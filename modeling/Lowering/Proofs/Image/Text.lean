import Lowering.Image.Json
import Lowering.Proofs.Image.Shapes
import Lowering.Proofs.Json.Pretty

/-!
# Reading back the text of an image

What reading finds in the JSON form of data, and when. `Json.ReadsIf` is said of the result of a
reader: it is a given one exactly if a condition holds, and an error otherwise. It is closed under
the ways in which readers are put together, with the conditions of the parts conjoined, so a reader
of data inherits it from its parts. The conditions come from two places only: a double is written as
a number if it is finite, and a container is entered if the reader has a level left for it. Together
they say that all doubles are finite and that the form nests no deeper than the reader goes
(`Datum.Fits.readsBack`).

Fields and alternatives are found by their names, which is why the names within one definition have
to differ (`TypeName.definition_distinct`). The text of an image whose doubles read back holds its
JSON form and nothing else (`Image.read_toText`), which gives the same for texts
(`Image.ofText_toText`).
-/

namespace Lowering

/-! ## Results under a condition -/

namespace Json

variable {α β : Type} {result : Except ReadError α} {a : α} {p q : Prop}

/-- A result is a given one if a condition holds, and an error if it does not. -/
def ReadsIf (result : Except ReadError α) (a : α) (p : Prop) : Prop :=
  ∀ b, result = .ok b ↔ b = a ∧ p

namespace ReadsIf

/-- A result is the given one where the condition holds. -/
theorem ok (a : α) (h : p) : ReadsIf (.ok a) a p := by
  intro b
  rw [Except.ok.injEq, eq_comm]
  exact (and_iff_left h).symm

/-- An error is right where the condition fails. -/
theorem error (e : ReadError) (a : α) (h : ¬ p) : ReadsIf (.error e) a p :=
  fun _ => ⟨nofun, fun hp => absurd hp.2 h⟩

/-- A condition may be replaced by an equivalent one. -/
theorem congr (h : ReadsIf result a p) (hpq : p ↔ q) : ReadsIf result a q :=
  fun b => (h b).trans (and_congr_right fun _ => hpq)

/-- One result and then another are the given ones if both conditions hold. -/
theorem bind {next : α → Except ReadError β} {b : β} (h : ReadsIf result a p)
    (hnext : ReadsIf (next a) b q) : ReadsIf (result >>= next) b (p ∧ q) := by
  intro c
  rcases result with e | a'
  · have hp : ¬ p := fun hp => nomatch (h a).mpr ⟨rfl, hp⟩
    exact ⟨nofun, fun hc => absurd hc.2.1 hp⟩
  · obtain ⟨rfl, hp⟩ := (h a').mp rfl
    exact (hnext c).trans (and_congr_right fun _ => (and_iff_right hp).symm)

/-- A function of the result changes nothing about when there is one. -/
theorem map (f : α → β) (h : ReadsIf result a p) : ReadsIf (result.map f) (f a) p := by
  intro c
  rcases result with e | a'
  · have hp : ¬ p := fun hp => nomatch (h a).mpr ⟨rfl, hp⟩
    exact ⟨nofun, fun hc => absurd hc.2 hp⟩
  · obtain ⟨rfl, hp⟩ := (h a').mp rfl
    exact ok (f a') hp c

/-- A container is entered if there is a level left, and its entries are read with one level
less. -/
theorem level (reader : Nat → Except ReadError α) {e : ReadError} {n : Nat}
    (hzero : reader 0 = .error e) (hsucc : ∀ depth, ReadsIf (reader (depth + 1)) a (p ∧ n ≤ depth))
    (depth : Nat) : ReadsIf (reader depth) a (p ∧ n + 1 ≤ depth) := by
  cases depth with
  | zero =>
    rw [hzero]
    exact error e a fun h => Nat.not_succ_le_zero n h.2
  | succ depth => exact (hsucc depth).congr (and_congr_right' Nat.succ_le_succ_iff.symm)

end ReadsIf

end Json

open Json (ReadsIf)

/-! ## The schema -/

/-- The names of the fields that an alternative carries. -/
def Payload.fieldNames : Payload → List String
  | .fields schema => schema.map Field.name
  | .nothing | .single _ => []

/-- No two alternatives of a choice and no two fields of a record have one name. -/
def Definition.Distinct : Definition → Prop
  | .record schema => (schema.map Field.name).Nodup
  | .choice variants => (variants.map Variant.name).Nodup ∧
      ∀ variant ∈ variants, variant.payload.fieldNames.Nodup

instance : DecidablePred Definition.Distinct
  | .record schema => inferInstanceAs (Decidable (schema.map Field.name).Nodup)
  | .choice variants => inferInstanceAs (Decidable ((variants.map Variant.name).Nodup ∧
      ∀ variant ∈ variants, variant.payload.fieldNames.Nodup))

/-- The alternatives of every named choice and the fields of every named record have different
names. -/
theorem TypeName.definition_distinct (name : TypeName) : name.definition.Distinct := by
  cases name <;> decide +kernel

/-! ## The doubles in data -/

mutual

/-- The doubles in a datum. -/
def Datum.doubles : Datum → List Double
  | .double x => [x]
  | .sequence items => dataDoubles items
  | .record fields => dataDoubles fields
  | .variant _ payload => dataDoubles payload
  | .word _ | .integer _ | .flag _ | .text _ | .optionalText _ => []

/-- The doubles in data. -/
def dataDoubles : List Datum → List Double
  | [] => []
  | datum :: rest => datum.doubles ++ dataDoubles rest

end

mutual

/-- There are no doubles in an op-line. -/
theorem LinkedOp.doubles_toDatum : ∀ op : LinkedOp, op.toDatum.doubles = []
  | .unary _ _ _ | .binary _ _ _ _ | .jumpTo _ | .jumpIf _ _ | .jumpIfNot _ _ | .noOp => by
    simp [LinkedOp.toDatum, Datum.doubles, dataDoubles]
  | .functionDef _ body _ => by
    simp [LinkedOp.toDatum, Datum.doubles, dataDoubles, dataDoubles_opsToData body]

/-- There are no doubles in op-lines. -/
theorem dataDoubles_opsToData : ∀ ops : List LinkedOp, dataDoubles (opsToData ops) = []
  | [] => by simp [opsToData, dataDoubles]
  | op :: rest => by
    simp [opsToData, dataDoubles, LinkedOp.doubles_toDatum op, dataDoubles_opsToData rest]

end

mutual

/-- The doubles in the data of a value are those in the value. -/
theorem ValueImage.doubles_toDatum : ∀ value : ValueImage, value.toDatum.doubles = value.doubles
  | .null | .bool _ | .long _ | .double _ | .string _ | .slot _ => by
    simp [ValueImage.toDatum, Datum.doubles, dataDoubles, ValueImage.doubles]
  | .array items => by
    simp [ValueImage.toDatum, Datum.doubles, dataDoubles, ValueImage.doubles,
      dataDoubles_valuesToData items]
  | .param record => by
    simp [ValueImage.toDatum, Datum.doubles, dataDoubles, ValueImage.doubles,
      dataDoubles_opsToData]

/-- The doubles in the data of values are those in the values. -/
theorem dataDoubles_valuesToData : ∀ values : List ValueImage,
    dataDoubles (valuesToData values) = doublesIn values
  | [] => by simp [valuesToData, dataDoubles, doublesIn]
  | value :: rest => by
    simp [valuesToData, dataDoubles, doublesIn, ValueImage.doubles_toDatum value,
      dataDoubles_valuesToData rest]

end

/-- The doubles in the data of an image are those of the image. -/
theorem Image.doubles_toDatum (image : Image) : image.toDatum.doubles = image.doubles := by
  have hslots : dataDoubles (image.slots.map SlotImage.toDatum) = image.doubles := by
    unfold Image.doubles
    induction image.slots with
    | nil => simp [dataDoubles]
    | cons slot rest ih =>
      simp [dataDoubles, ih, SlotImage.toDatum, Datum.doubles, ValueImage.doubles_toDatum]
  simp [Image.toDatum, Datum.doubles, dataDoubles, dataDoubles_opsToData, hslots]

/-! ## The JSON form -/

namespace Datum

open Json (Complete)

/-- The items of a sequence are written one by one. -/
theorem itemsToJson_eq_map (item : TypeName) (items : List Datum) :
    itemsToJson item items = items.map (toJson (.named item)) := by
  induction items with
  | nil => rfl
  | cons datum rest ih => rw [itemsToJson, ih, List.map_cons]

/-- The object of a record holds its fields and is closed if they are. -/
theorem complete_fieldsToJson {schema : List Field} {data : List Datum}
    (h : List.Forall₂ (fun field datum => Complete (toJson field.shape datum)) schema data) :
    Complete (.record (fieldsToJson schema data)) := by
  apply Complete.record
  induction h with
  | nil => simp [fieldsToJson]
  | cons hfirst _ ih =>
    rw [fieldsToJson, List.forall_mem_cons]
    exact ⟨hfirst, ih⟩

/-- A double in one of some data is a double in them. -/
theorem mem_dataDoubles {x : Double} {datum : Datum} (hx : x ∈ datum.doubles) {data : List Datum}
    (h : datum ∈ data) : x ∈ dataDoubles data := by
  induction data with
  | nil => cases h
  | cons first rest ih =>
    rw [dataDoubles, List.mem_append]
    rcases List.mem_cons.mp h with rfl | h
    · exact Or.inl hx
    · exact Or.inr (ih h)

mutual

/-- The JSON form of a datum is a complete value, if its doubles read back. A double that is not
finite is left out of it. -/
theorem Fits.complete : ∀ {shape : Shape} {datum : Datum}, datum.Fits shape →
    (∀ x ∈ datum.doubles, x.isFinite → x.ReadsBack) → Complete (toJson shape datum)
  | _, _, .word n, _ => by
    have hword := n.toNat_lt
    refine .number ⟨?_, ?_⟩ <;> simp only [Json.signedBound, Json.unsignedBound] <;> omega
  | _, _, .integer n, _ => by
    have hlow := n.le_toInt
    have hhigh := n.toInt_lt
    refine .number ⟨?_, ?_⟩ <;> simp only [Json.signedBound, Json.unsignedBound] <;> omega
  | _, _, .double x, hback => by
    rw [toJson]
    split
    · next hfinite => exact .number ⟨hfinite, hback x List.mem_cons_self hfinite⟩
    · exact .null
  | _, _, .flag b, _ => .bool b
  | _, _, .text s, _ => .string s
  | _, _, .optionalText none, _ => .null
  | _, _, .optionalText (some s), _ => .string s
  | _, _, @Fits.sequence item items hitems, hback => by
    rw [toJson, itemsToJson_eq_map]
    rw [doubles] at hback
    exact .list (List.forall_mem_map.mpr fun datum hmem =>
      Fits.complete (hitems datum hmem) fun x hx => hback x (mem_dataDoubles hx hmem))
  | _, _, @Fits.record name schema fields hname hall, hback => by
    simp only [toJson, hname]
    exact complete_fieldsToJson (List.forall₂_map_left_iff.mp (FitAll.complete hall hback))
  | _, _, @Fits.variant name variants index chosen payload hname hindex hall, hback => by
    obtain ⟨word, content⟩ := chosen
    have hcontent := FitAll.complete hall hback
    simp only [toJson, hname, hindex]
    cases content with
    | nothing => exact .string word
    | single shape =>
      obtain _ | ⟨hsingle, _⟩ := hcontent
      exact .record (List.forall_mem_singleton.mpr hsingle)
    | fields schema =>
      have hfields := complete_fieldsToJson (List.forall₂_map_left_iff.mp hcontent)
      exact .record (List.forall_mem_singleton.mpr hfields)

/-- The JSON forms of data are complete values, if their doubles read back. -/
theorem FitAll.complete : ∀ {shapes : List Shape} {data : List Datum}, FitAll shapes data →
    (∀ x ∈ dataDoubles data, x.isFinite → x.ReadsBack) →
    List.Forall₂ (fun shape datum => Complete (toJson shape datum)) shapes data
  | _, _, .nil, _ => .nil
  | _, _, .cons hfits hall, hback => by
    rw [dataDoubles, List.forall_mem_append] at hback
    exact .cons (Fits.complete hfits hback.1) (FitAll.complete hall hback.2)

end

end Datum

/-! ## Parts by name -/

namespace Json

/-- An alternative is found under its name. -/
theorem findVariant_of_getElem? {variants : List Variant} {index : Nat} {variant : Variant}
    (hnames : (variants.map Variant.name).Nodup) (hindex : variants[index]? = some variant) :
    findVariant variants variant.name = .ok (index, variant.payload) := by
  have hfind : variants.findIdx? (fun other => other.name == variant.name) = some index := by
    obtain ⟨hlt, rfl⟩ := List.getElem?_eq_some_iff.mp hindex
    rw [List.findIdx?_eq_some_iff_getElem]
    refine ⟨hlt, beq_self_eq_true _, fun earlier hearlier hsame => ?_⟩
    have hdiffer := List.pairwise_iff_getElem.mp (List.pairwise_map.mp hnames) earlier index
      (Nat.lt_trans hearlier hlt) hlt hearlier
    exact hdiffer (beq_iff_eq.mp hsame)
  rw [findVariant, hfind]
  dsimp only
  rw [hindex]

/-- Fields that are all found are collected in order. -/
theorem collectFields_of_map_lookup {found : List (String × Datum)} {fields : List Field}
    {data : List Datum} (h : fields.map (found.lookup ·.name) = data.map some) :
    collectFields found fields = .ok data := by
  induction fields generalizing data with
  | nil =>
    obtain rfl : data = [] := by simpa using h.symm
    rfl
  | cons field rest ih =>
    obtain ⟨datum, data, rfl, hfirst, hrest⟩ := List.map_eq_cons_iff.mp h.symm
    simp [collectFields, ← hfirst, ih hrest.symm, Except.map]

end Json

/-! ## Reading -/

namespace Datum

/-- A datum is read from its JSON form if its doubles are finite and the form nests no deeper than
the reader goes. -/
def ReadsBack (depth : Nat) (shape : Shape) (datum : Datum) : Prop :=
  ReadsIf (Json.readDatum depth shape.wanted (toJson shape datum)) datum
    ((∀ x ∈ datum.doubles, x.isFinite) ∧ (toJson shape datum).nesting ≤ depth)

/-- A datum without doubles that does not nest is read back if its reader finds it. -/
theorem ReadsBack.of_leaf {depth : Nat} {shape : Shape} {datum : Datum}
    (hread : Json.readDatum depth shape.wanted (toJson shape datum) = .ok datum)
    (hdoubles : datum.doubles = []) (hnesting : (toJson shape datum).nesting = 0) :
    ReadsBack depth shape datum := by
  rw [ReadsBack, hread, hdoubles, hnesting]
  exact .ok datum ⟨List.forall_mem_nil _, Nat.zero_le depth⟩

/-! ### Leaves -/

/-- A word is read back from its number. -/
theorem readLeaf_word (n : UInt32) : Json.readLeaf .word (.int n.toNat) = .ok (.word n) := by
  have hword := n.toNat_lt
  have hrange : (0 : Int) ≤ n.toNat ∧ (n.toNat : Int) < Json.wordBound := by
    simp only [Json.wordBound]
    omega
  rw [Json.int, Json.readLeaf, Json.readInteger, if_pos hrange, Except.map, Int.toNat_natCast,
    UInt32.ofNat_toNat]

/-- A signed integer is read back from its number. -/
theorem readLeaf_integer (n : Int64) :
    Json.readLeaf .integer (.int n.toInt) = .ok (.integer n) := by
  have hrange : -(Json.signedBound : Int) ≤ n.toInt ∧ n.toInt < Json.signedBound :=
    ⟨n.le_toInt, n.toInt_lt⟩
  rw [Json.int, Json.readLeaf, Json.readInteger, if_pos hrange, Except.map, Int64.ofInt_toInt]

/-! ### Containers -/

/-- Items are read back if each of them is, up to the depth that all of them need. -/
theorem readDatumItems_itemsToJson {depth : Nat} {item : TypeName} {items : List Datum}
    (h : ∀ datum ∈ items, ReadsBack depth (.named item) datum) :
    ReadsIf (Json.readDatumItems depth (Shape.named item).wanted .closed (itemsToJson item items))
      items ((∀ x ∈ dataDoubles items, x.isFinite) ∧
        Json.itemsNesting (itemsToJson item items) ≤ depth) := by
  induction items with
  | nil => exact .ok [] ⟨by simp [dataDoubles], Nat.zero_le depth⟩
  | cons datum rest ih =>
    obtain ⟨hfirst, hrest⟩ := List.forall_mem_cons.mp h
    refine (hfirst.bind ((ih hrest).bind (.ok (datum :: rest) trivial))).congr ?_
    simp only [dataDoubles, itemsToJson, Json.itemsNesting, List.forall_mem_append, Nat.max_le,
      and_true]
    exact and_and_and_comm

/-- The fields of a record are read one after another, when those before them have been found. -/
theorem readByName_fieldsToJson {depth : Nat} {fields : List Field} {data : List Datum}
    (h : List.Forall₂ (fun field datum => ReadsBack depth field.shape datum) fields data) :
    ∀ (done : List Field) (before : List Datum) (found : List (String × Datum)),
      ((done ++ fields).map Field.name).Nodup →
      done.map (found.lookup ·.name) = before.map some →
      (∀ field ∈ fields, found.lookup field.name = none) →
      ReadsIf (Json.readByName depth (done ++ fields) .closed (fieldsToJson fields data) found)
        (before ++ data) ((∀ x ∈ dataDoubles data, x.isFinite) ∧
          Json.membersNesting (fieldsToJson fields data) ≤ depth) := by
  induction h with
  | nil =>
    intro done before found _ hdone _
    simp only [List.append_nil, fieldsToJson, Json.readByName]
    rw [Json.collectFields_of_map_lookup hdone]
    exact .ok before ⟨by simp [dataDoubles], Nat.zero_le depth⟩
  | @cons field datum fields data hfirst _ ih =>
    intro done before found hnames hdone hnew
    -- The name of the field is that of no other, so entering it changes what is found for none.
    have hother : ∀ other ∈ done ++ fields, other.name ≠ field.name := by
      have hperm := (List.perm_middle.map Field.name).nodup_iff.mp hnames
      intro other hmem hname
      exact (List.nodup_cons.mp hperm).1 (List.mem_map.mpr ⟨other, hmem, hname⟩)
    have hlookup : ∀ other ∈ done ++ fields,
        ((field.name, datum) :: found).lookup other.name = found.lookup other.name := by
      intro other hmem
      rw [List.lookup_cons, beq_false_of_ne (hother other hmem)]
    have hfield : (done ++ field :: fields).find? (fun other => other.name == field.name) =
        some field :=
      List.find?_eq_some_iff_append.mpr ⟨beq_self_eq_true _, done, fields, rfl, fun other hmem => by
        simpa using hother other (List.mem_append_left _ hmem)⟩
    have hfound : (done ++ [field]).map (((field.name, datum) :: found).lookup ·.name) =
        (before ++ [datum]).map some := by
      rw [List.map_append, List.map_append, ← hdone, List.map_congr_left fun other hmem =>
        hlookup other (List.mem_append_left _ hmem)]
      simp
    have hnone : ∀ other ∈ fields, ((field.name, datum) :: found).lookup other.name = none := by
      intro other hmem
      rw [hlookup other (List.mem_append_right _ hmem), hnew other (List.mem_cons_of_mem _ hmem)]
    have hnext := ih (done ++ [field]) (before ++ [datum]) ((field.name, datum) :: found)
      (by simpa using hnames) hfound hnone
    simp only [List.append_assoc, List.cons_append, List.nil_append] at hnext
    simp only [fieldsToJson, Json.readByName, hfield, hnew field List.mem_cons_self,
      Option.isSome_none, Bool.false_eq_true, if_false]
    refine (hfirst.bind hnext).congr ?_
    simp only [dataDoubles, Json.membersNesting, List.forall_mem_append, Nat.max_le]
    exact and_and_and_comm

/-- A record is read from its fields, whatever it is called. -/
theorem readDatum_record {schema : List Field} {data : List Datum}
    (hnames : (schema.map Field.name).Nodup)
    (h : ∀ depth, List.Forall₂ (fun field datum => ReadsBack depth field.shape datum) schema data)
    (title : String) (depth : Nat) :
    ReadsIf (Json.readDatum depth (.record title schema) (.record (fieldsToJson schema data)))
      (.record data) ((∀ x ∈ dataDoubles data, x.isFinite) ∧
        (Json.record (fieldsToJson schema data)).nesting ≤ depth) := by
  refine .level (fun depth => Json.readDatum depth _ _) rfl (fun depth => ?_) depth
  exact (readByName_fieldsToJson (h depth) [] [] [] hnames rfl (by simp)).map Datum.record

/-! ### Alternatives -/

/-- An alternative that carries nothing is read from its bare name. -/
theorem readDatum_bareVariant {depth : Nat} {name : TypeName} {variants : List Variant}
    {word : String} {index : Nat}
    (hfind : Json.findVariant variants word = .ok (index, .nothing)) :
    Json.readDatum depth (.choice name variants) (.string word) = .ok (.variant index []) := by
  simp [Json.readDatum, Json.readLeaf, Json.readBareVariant, hfind, bind, Except.bind]

/-- An alternative is read from the object that has its name as the only member. -/
theorem readDatum_choice {name : TypeName} {variants : List Variant} {word : String} {value : Json}
    {datum : Datum} {p : Prop}
    (h : ∀ depth, ReadsIf (Json.readVariant depth name variants .closed [(word, value)]) datum
      (p ∧ value.nesting ≤ depth)) (depth : Nat) :
    ReadsIf (Json.readDatum depth (.choice name variants) (.record [(word, value)])) datum
      (p ∧ (Json.record [(word, value)]).nesting ≤ depth) := by
  refine .level (fun depth => Json.readDatum depth _ _) rfl (fun depth => ?_) depth
  refine (h depth).congr ?_
  simp [Json.membersNesting]

/-- An alternative that carries one piece is read back if that piece is. -/
theorem readVariant_single {depth : Nat} {name : TypeName} {variants : List Variant}
    {word : String} {index : Nat} {shape : Shape} {value : Json} {datum : Datum} {p : Prop}
    (hfind : Json.findVariant variants word = .ok (index, .single shape))
    (h : ReadsIf (Json.readDatum depth shape.wanted value) datum p) :
    ReadsIf (Json.readVariant depth name variants .closed [(word, value)])
      (.variant index [datum]) p := by
  rw [Json.readVariant, hfind]
  exact ((h.map ([·])).bind (.ok (Datum.variant index [datum]) trivial)).congr
    (and_iff_left trivial)

/-- An alternative that carries fields is read back if these are. -/
theorem readVariant_fields {depth : Nat} {name : TypeName} {variants : List Variant}
    {word : String} {index : Nat} {schema : List Field} {value : Json} {data : List Datum}
    {p : Prop} (hfind : Json.findVariant variants word = .ok (index, .fields schema))
    (h : ReadsIf (Json.readDatum depth (.variantRecord name word schema) value) (.record data) p) :
    ReadsIf (Json.readVariant depth name variants .closed [(word, value)])
      (.variant index data) p := by
  rw [Json.readVariant, hfind]
  exact ((h.map parts).bind (.ok (Datum.variant index data) trivial)).congr
    (and_iff_left trivial)

/-- An alternative is read from its name and what it carries. -/
theorem readsBack_variant {name : TypeName} {variants : List Variant} {index : Nat}
    {chosen : Variant} {payload : List Datum} (hname : name.definition = .choice variants)
    (hindex : variants[index]? = some chosen)
    (h : ∀ depth, List.Forall₂ (ReadsBack depth) chosen.payload.shapes payload) (depth : Nat) :
    ReadsBack depth (.named name) (.variant index payload) := by
  obtain ⟨hnames, hfields⟩ : (Definition.choice variants).Distinct :=
    hname ▸ name.definition_distinct
  have hfind := Json.findVariant_of_getElem? hnames hindex
  have hschema := hfields chosen (List.mem_of_getElem? hindex)
  obtain ⟨word, content⟩ := chosen
  simp only [ReadsBack, Shape.wanted, toJson, hname, hindex, doubles]
  -- A variant without content is a word alone, and every other one a record with one member.
  cases content with
  | nothing =>
    obtain _ | _ := h depth
    dsimp only
    rw [readDatum_bareVariant hfind]
    exact .ok _ ⟨List.forall_mem_nil _, Nat.zero_le depth⟩
  | single shape =>
    obtain _ | @⟨_, datum, _, _, _, _ | _⟩ := h depth
    have hdatum (depth : Nat) := (List.forall₂_cons.mp (h depth)).1
    rw [dataDoubles, dataDoubles, List.append_nil]
    exact readDatum_choice (fun depth => readVariant_single hfind (hdatum depth)) depth
  | fields schema =>
    have hrecord := readDatum_record hschema fun depth => List.forall₂_map_left_iff.mp (h depth)
    exact readDatum_choice (fun depth => readVariant_fields hfind (hrecord _ depth)) depth

/-! ### Data -/

mutual

/-- A datum that fits a shape is read from its JSON form exactly if its doubles are finite and the
form nests no deeper than the reader goes. -/
theorem Fits.readsBack : ∀ {shape : Shape} {datum : Datum}, datum.Fits shape →
    ∀ depth, ReadsBack depth shape datum
  | _, _, .word n, depth => .of_leaf (readLeaf_word n) rfl rfl
  | _, _, .integer n, depth => .of_leaf (readLeaf_integer n) rfl rfl
  | _, _, .double x, depth => by
    rw [ReadsBack, toJson]
    split
    · next hfinite => exact .ok _ ⟨List.forall_mem_singleton.mpr hfinite, Nat.zero_le depth⟩
    · next hfinite => exact .error _ _ fun h => hfinite (h.1 x List.mem_cons_self)
  | _, _, .flag b, depth => .of_leaf rfl rfl rfl
  | _, _, .text s, depth => .of_leaf rfl rfl rfl
  | _, _, .optionalText none, depth => .of_leaf rfl rfl rfl
  | _, _, .optionalText (some s), depth => .of_leaf rfl rfl rfl
  | _, _, @Fits.sequence item items hitems, depth => by
    refine .level (fun depth => Json.readDatum depth _ _) rfl (fun depth => ?_) depth
    have hreads : ∀ datum ∈ items, ReadsBack depth (.named item) datum :=
      fun datum hmem => Fits.readsBack (hitems datum hmem) depth
    exact (readDatumItems_itemsToJson hreads).map Datum.sequence
  | _, _, @Fits.record name schema fields hname hall, depth => by
    have hnames : (Definition.record schema).Distinct := hname ▸ name.definition_distinct
    have hreads (depth : Nat) := List.forall₂_map_left_iff.mp (FitAll.readsBack hall depth)
    simp only [ReadsBack, Shape.wanted, toJson, hname, doubles]
    exact readDatum_record hnames hreads _ depth
  | _, _, .variant hname hindex hall, depth =>
    readsBack_variant hname hindex (fun depth => FitAll.readsBack hall depth) depth

/-- Data that fit shapes are read back from their JSON forms, each at the depth that it needs. -/
theorem FitAll.readsBack : ∀ {shapes : List Shape} {data : List Datum}, FitAll shapes data →
    ∀ depth, List.Forall₂ (ReadsBack depth) shapes data
  | _, _, .nil, _ => .nil
  | _, _, .cons hfits hall, depth =>
    .cons (Fits.readsBack hfits depth) (FitAll.readsBack hall depth)

end

end Datum

/-! ## Images -/

/-- An image is read from its JSON form exactly if its doubles are finite and the form nests no
deeper than the reader goes. -/
theorem Image.read_toJson (depth : Nat) (image : Image) :
    ReadsIf (Image.read depth image.toJson) image
      ((∀ x ∈ image.doubles, x.isFinite) ∧ image.toJson.nesting ≤ depth) := by
  have hdatum := image.toDatum_fits.readsBack depth
  rw [Datum.ReadsBack, image.doubles_toDatum] at hdatum
  refine (hdatum.bind ?_).congr (and_iff_left trivial)
  rw [image.ofDatum?_toDatum]
  exact .ok image trivial

/-- The text of an image holds its JSON form, if its doubles read back. -/
theorem Image.read_toText {image : Image} (hback : ∀ x ∈ image.doubles, x.isFinite → x.ReadsBack) :
    Json.read image.toText = ⟨image.toJson, false⟩ :=
  (image.toDatum_fits.complete (image.doubles_toDatum ▸ hback)).read_pretty

/-- The text of an image whose finite doubles are read back from their own texts is decoded if and only
if all doubles in the image are finite and the text nests at most 127 containers. Then the image is
found again, with every double bit for bit the same. -/
theorem Image.ofText_toText (image : Image)
    (hback : ∀ x ∈ image.doubles, x.isFinite → x.ReadsBack) :
    ((∃ decoded, Image.ofText image.toText = .ok decoded) ↔
      (∀ x ∈ image.doubles, x.isFinite) ∧ (Json.read image.toText).root.nesting ≤ 127) ∧
    ∀ decoded, Image.ofText image.toText = .ok decoded → decoded = image := by
  have hread (decoded : Image) : Image.ofText image.toText = .ok decoded ↔ decoded = image ∧
      (∀ x ∈ image.doubles, x.isFinite) ∧ (Json.read image.toText).root.nesting ≤ 127 := by
    rw [Image.ofText, Json.readText_eq_ok_iff, Image.read_toText hback]
    exact (and_iff_left rfl).trans (image.read_toJson Json.nestingLimit decoded)
  simp only [hread]
  exact ⟨exists_eq_left, fun _ h => h.1⟩

/-- An image with a tenth in its first slot. -/
def tenthImage (more : List SlotImage) : Image :=
  ⟨[.noOp], ⟨.array [.double ⟨0x3FB999999999999A⟩], .array⟩ :: more⟩

/-- A tenth is written with one digit. -/
theorem tenth_readsBack : Double.ReadsBack ⟨0x3FB999999999999A⟩ := by
  let numeral : Double.Numeral := ⟨['0'], some ['1'], none⟩
  have hformed : numeral.WellFormed := by
    refine ⟨by simp [numeral], Or.inl rfl, ?_⟩
    rintro _ ⟨rfl⟩
    exact ⟨by simp, by simp⟩
  exact Json.readsBack_of_short (by decide) hformed (by decide) (by decide +kernel)

/-- An image with a tenth is found again, and one with an infinity as well is not. -/
theorem Image.ofText_toText_tenth :
    (∃ decoded, Image.ofText (tenthImage []).toText = .ok decoded ∧ decoded = tenthImage []) ∧
      ¬ ∃ decoded,
        Image.ofText (tenthImage [⟨.double ⟨0x7FF0000000000000⟩, .double⟩]).toText = .ok decoded := by
  have htenth : (tenthImage []).doubles = [⟨0x3FB999999999999A⟩] := by decide
  have hboth : (tenthImage [⟨.double ⟨0x7FF0000000000000⟩, .double⟩]).doubles =
      [⟨0x3FB999999999999A⟩, ⟨0x7FF0000000000000⟩] := by decide
  constructor
  · have hback : ∀ x ∈ (tenthImage []).doubles, x.isFinite → x.ReadsBack := by
      rw [htenth]
      exact List.forall_mem_singleton.mpr fun _ => tenth_readsBack
    have hnesting : (Json.read (tenthImage []).toText).root.nesting ≤ 127 := by
      rw [Image.read_toText hback]
      decide
    obtain ⟨hdecoded, hsame⟩ := Image.ofText_toText (tenthImage []) hback
    obtain ⟨decoded, h⟩ := hdecoded.mpr ⟨by rw [htenth]; decide, hnesting⟩
    exact ⟨decoded, h, hsame decoded h⟩
  · obtain ⟨hdecoded, -⟩ :=
      Image.ofText_toText (tenthImage [⟨.double ⟨0x7FF0000000000000⟩, .double⟩]) (by
        rw [hboth]
        refine List.forall_mem_cons.mpr ⟨fun _ => tenth_readsBack, ?_⟩
        exact List.forall_mem_singleton.mpr fun hfinite => absurd hfinite (by decide))
    intro hread
    have hfinite := (hdecoded.mp hread).1
    rw [hboth] at hfinite
    exact absurd (hfinite ⟨0x7FF0000000000000⟩ (by simp)) (by decide)

end Lowering
