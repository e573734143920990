import Mathlib.Algebra.Group.Nat.Defs
import Lowering.Image.Datum

/-!
# Data of a shape

The schema of images is a table of shapes, and `Datum.Fits` says which data have a shape: it follows
the table one part at a time. The data of an image fit the shape of images (`Image.toDatum_fits`),
and the image is found again in its data (`Image.ofDatum?_toDatum`) as the data are in the image
that they stand for (`Image.toDatum_of_ofDatum?`). Both stored forms read data by their shapes, so
what is proved of data that fit holds of every image.

Equality of images compares doubles as numbers. An image equals itself if and only if none of its
doubles is a NaN (`Image.same_self`).
-/

namespace Lowering

/-! ## Shapes -/

mutual

/-- A datum has a shape. -/
inductive Datum.Fits : Shape → Datum → Prop where
  | word (n : UInt32) : Fits .word (.word n)
  | integer (n : Int64) : Fits .integer (.integer n)
  | double (x : Double) : Fits .double (.double x)
  | flag (b : Bool) : Fits .flag (.flag b)
  | text (s : String) : Fits .text (.text s)
  | optionalText (s : Option String) : Fits .optionalText (.optionalText s)
  | sequence {item : TypeName} {items : List Datum} :
      (∀ datum ∈ items, Fits (.named item) datum) → Fits (.sequence item) (.sequence items)
  | record {name : TypeName} {schema : List Field} {fields : List Datum} :
      name.definition = .record schema → Datum.FitAll (schema.map Field.shape) fields →
        Fits (.named name) (.record fields)
  | variant {name : TypeName} {variants : List Variant} {index : Nat} {variant : Variant}
      {payload : List Datum} :
      name.definition = .choice variants → variants[index]? = some variant →
        Datum.FitAll variant.payload.shapes payload → Fits (.named name) (.variant index payload)

/-- Data have shapes, one each. -/
inductive Datum.FitAll : List Shape → List Datum → Prop where
  | nil : FitAll [] []
  | cons {shape : Shape} {datum : Datum} {shapes : List Shape} {data : List Datum} :
      Datum.Fits shape datum → FitAll shapes data → FitAll (shape :: shapes) (datum :: data)

end

/-- Whether a shape is that of a record. -/
def Shape.isRecord : Shape → Bool
  | .named name =>
    match name.definition with
    | .record _ => true
    | .choice _ => false
  | _ => false

/-- The shapes of the parts that a definition consists of. -/
def Definition.shapes : Definition → List Shape
  | .record fields => fields.map Field.shape
  | .choice variants => variants.flatMap fun variant => variant.payload.shapes

/-- No part of a definition is a record. -/
theorem TypeName.isRecord_of_mem_shapes (name : TypeName) :
    ∀ shape ∈ name.definition.shapes, shape.isRecord = false := by
  cases name <;> decide

/-- No part of an alternative is a record. -/
theorem TypeName.isRecord_of_variant (name : TypeName) {variants : List Variant}
    (hname : name.definition = .choice variants) {variant : Variant} (hmem : variant ∈ variants) :
    ∀ shape ∈ variant.payload.shapes, shape.isRecord = false := by
  intro shape hshape
  apply name.isRecord_of_mem_shapes
  rw [hname]
  exact List.mem_flatMap.mpr ⟨variant, hmem, hshape⟩

/-- The index of an alternative is a number of 32 bits. -/
theorem TypeName.index_lt (name : TypeName) {variants : List Variant} {index : Nat}
    {variant : Variant} (hname : name.definition = .choice variants)
    (hindex : variants[index]? = some variant) : index < 2 ^ 32 := by
  have hcount : variants.length < 2 ^ 32 := by cases name <;> cases hname <;> decide
  obtain ⟨hlt, -⟩ := List.getElem?_eq_some_iff.mp hindex
  exact Nat.lt_trans hlt hcount

/-- A record has fields. -/
theorem TypeName.ne_nil_of_record (name : TypeName) : name.definition ≠ .record [] := by
  cases name <;> simp [TypeName.definition, TypeName.choiceOfNames]

/-! ## The data of an image -/

namespace Datum

/-- An alternative of a choice between names carries nothing. -/
theorem fits_ofNames {name : TypeName} {names : List String} {index : Nat} {word : String}
    (hname : name.definition = TypeName.choiceOfNames names) (hindex : names[index]? = some word) :
    Fits (.named name) (.variant index []) := by
  refine @Fits.variant name _ index ⟨word, .nothing⟩ [] hname ?_ .nil
  rw [List.getElem?_map, hindex, Option.map_some]

/-- The index of an operation on one operand fits its shape. -/
theorem fits_unaryKind (kind : UnaryKind) : Fits (.named .unaryKind) (.variant kind.index []) :=
  fits_ofNames rfl (by rw [List.getElem?_map, kind.getElem?_index, Option.map_some])

/-- The index of an operation on two operands fits its shape. -/
theorem fits_binaryKind (kind : BinaryKind) : Fits (.named .binaryKind) (.variant kind.index []) :=
  fits_ofNames rfl (by rw [List.getElem?_map, kind.getElem?_index, Option.map_some])

/-- The index of a tag fits its shape. -/
theorem fits_typeTag (tag : TypeTag) : Fits (.named .typeTag) (.variant tag.index []) :=
  fits_ofNames rfl (by rw [List.getElem?_map, tag.getElem?_index, Option.map_some])

end Datum

mutual

/-- The data of an op-line fit the shape of op-lines. -/
theorem LinkedOp.toDatum_fits : ∀ op : LinkedOp, op.toDatum.Fits (.named .linkedOp)
  | .unary kind _ _ =>
    .variant rfl rfl (.cons (Datum.fits_unaryKind kind) (.cons (.word _) (.cons (.word _) .nil)))
  | .binary kind _ _ _ =>
    .variant rfl rfl (.cons (Datum.fits_binaryKind kind)
      (.cons (.word _) (.cons (.word _) (.cons (.word _) .nil))))
  | .functionDef _ body _ =>
    .variant rfl rfl (.cons (.word _) (.cons (.sequence (opsToData_fit body))
      (.cons (.word _) .nil)))
  | .jumpTo _ => .variant rfl rfl (.cons (.word _) .nil)
  | .jumpIf _ _ | .jumpIfNot _ _ =>
    .variant rfl rfl (.cons (.word _) (.cons (.word _) .nil))
  | .noOp => .variant rfl rfl .nil

/-- The data of op-lines fit the shape of op-lines. -/
theorem opsToData_fit : ∀ (ops : List LinkedOp), ∀ datum ∈ opsToData ops,
    datum.Fits (.named .linkedOp)
  | [] => by simp [opsToData]
  | op :: rest => by
    rw [opsToData, List.forall_mem_cons]
    exact ⟨LinkedOp.toDatum_fits op, opsToData_fit rest⟩

end

mutual

/-- The data of a value fit the shape of values. -/
theorem ValueImage.toDatum_fits : ∀ value : ValueImage, value.toDatum.Fits (.named .valueImage)
  | .null => .variant rfl rfl .nil
  | .bool b => .variant rfl rfl (.cons (.flag b) .nil)
  | .long n => .variant rfl rfl (.cons (.integer n) .nil)
  | .double x => .variant rfl rfl (.cons (.double x) .nil)
  | .string s => .variant rfl rfl (.cons (.text s) .nil)
  | .array items => .variant rfl rfl (.cons (.sequence (valuesToData_fit items)) .nil)
  | .slot _ => .variant rfl rfl (.cons (.word _) .nil)
  | .param record =>
    .variant rfl rfl (.cons (.text _) (.cons (.word _) (.cons (.sequence (opsToData_fit record.ops))
      (.cons (.flag _) (.cons (.optionalText _) .nil)))))

/-- The data of values fit the shape of values. -/
theorem valuesToData_fit : ∀ (values : List ValueImage), ∀ datum ∈ valuesToData values,
    datum.Fits (.named .valueImage)
  | [] => by simp [valuesToData]
  | value :: rest => by
    rw [valuesToData, List.forall_mem_cons]
    exact ⟨ValueImage.toDatum_fits value, valuesToData_fit rest⟩

end

/-- The data of a slot fit the shape of slots. -/
theorem SlotImage.toDatum_fits (slot : SlotImage) : slot.toDatum.Fits (.named .slotImage) :=
  .record rfl
    (.cons (ValueImage.toDatum_fits slot.value) (.cons (Datum.fits_typeTag slot.type) .nil))

/-- The data of an image fit the shape of images. -/
theorem Image.toDatum_fits (image : Image) : image.toDatum.Fits (.named .image) := by
  have hslots : ∀ datum ∈ image.slots.map SlotImage.toDatum, datum.Fits (.named .slotImage) :=
    List.forall_mem_map.mpr fun slot _ => slot.toDatum_fits
  exact .record rfl
    (.cons (.sequence (opsToData_fit image.ops)) (.cons (.sequence hslots) .nil))

/-! ## The image in its data -/

mutual

/-- An op-line is found again in its data. -/
theorem LinkedOp.ofDatum?_toDatum : ∀ op : LinkedOp, LinkedOp.ofDatum? op.toDatum = some op
  | .unary kind op1 result => by
    simp [LinkedOp.toDatum, LinkedOp.ofDatum?, kind.getElem?_index]
  | .binary kind op1 op2 result => by
    simp [LinkedOp.toDatum, LinkedOp.ofDatum?, kind.getElem?_index]
  | .functionDef name body params => by
    simp [LinkedOp.toDatum, LinkedOp.ofDatum?, opsOfData?_opsToData body]
  | .jumpTo _ | .jumpIf _ _ | .jumpIfNot _ _ | .noOp => by
    simp [LinkedOp.toDatum, LinkedOp.ofDatum?]

/-- Op-lines are found again in their data. -/
theorem opsOfData?_opsToData : ∀ ops : List LinkedOp, opsOfData? (opsToData ops) = some ops
  | [] => by simp [opsToData, opsOfData?]
  | op :: rest => by
    simp [opsToData, opsOfData?, LinkedOp.ofDatum?_toDatum op, opsOfData?_opsToData rest]

end

mutual

/-- A value is found again in its data. -/
theorem ValueImage.ofDatum?_toDatum : ∀ value : ValueImage,
    ValueImage.ofDatum? value.toDatum = some value
  | .null | .bool _ | .long _ | .double _ | .string _ | .slot _ => by
    simp [ValueImage.toDatum, ValueImage.ofDatum?]
  | .array items => by
    simp [ValueImage.toDatum, ValueImage.ofDatum?, valuesOfData?_valuesToData items]
  | .param record => by
    simp [ValueImage.toDatum, ValueImage.ofDatum?, opsOfData?_opsToData]

/-- Values are found again in their data. -/
theorem valuesOfData?_valuesToData : ∀ values : List ValueImage,
    valuesOfData? (valuesToData values) = some values
  | [] => by simp [valuesToData, valuesOfData?]
  | value :: rest => by
    simp [valuesToData, valuesOfData?, ValueImage.ofDatum?_toDatum value,
      valuesOfData?_valuesToData rest]

end

/-- A slot is found again in its data. -/
theorem SlotImage.ofDatum?_toDatum (slot : SlotImage) :
    SlotImage.ofDatum? slot.toDatum = some slot := by
  simp [SlotImage.toDatum, SlotImage.ofDatum?, ValueImage.ofDatum?_toDatum,
    TypeTag.getElem?_index]

/-- An image is found again in its data. -/
theorem Image.ofDatum?_toDatum (image : Image) : Image.ofDatum? image.toDatum = some image := by
  have hslots : (image.slots.map SlotImage.toDatum).mapM SlotImage.ofDatum? =
      some image.slots := by
    induction image.slots with
    | nil => rfl
    | cons slot rest ih => simp [slot.ofDatum?_toDatum, ih]
  rw [Image.toDatum, Image.ofDatum?, opsOfData?_opsToData, hslots]

/-! ## The data in an image -/

/-- What stands at a place in a list without repetition has that place for its index. -/
theorem idxOf_of_getElem? {α : Type} [DecidableEq α] {xs : List α} {index : Nat} {x : α}
    (hnodup : xs.Nodup) (h : xs[index]? = some x) : xs.idxOf x = index := by
  obtain ⟨hlt, rfl⟩ := List.getElem?_eq_some_iff.mp h
  exact hnodup.idxOf_getElem index hlt

/-- Op-lines that data stand for have these data. -/
theorem opsToData_of_opsOfData? :
    (∀ datum op, LinkedOp.ofDatum? datum = some op → op.toDatum = datum) ∧
      ∀ data ops, opsOfData? data = some ops → opsToData ops = data := by
  -- The induction follows the reader: one case for each variant it knows, and one for all other
  -- data.
  refine LinkedOp.ofDatum?.mutual_induct
    (fun datum => ∀ op, LinkedOp.ofDatum? datum = some op → op.toDatum = datum)
    (fun data => ∀ ops, opsOfData? data = some ops → opsToData ops = data)
    ?unary ?binary ?functionDef ?jumpTo ?jumpIf ?jumpIfNot ?noOp ?other ?nil ?cons ?failed
  case unary =>
    intro index op1 result op h
    obtain ⟨kind, hkind, rfl⟩ := Option.map_eq_some_iff.mp h
    rw [LinkedOp.toDatum, UnaryKind.index, idxOf_of_getElem? (by decide) hkind]
  case binary =>
    intro index op1 op2 result op h
    obtain ⟨kind, hkind, rfl⟩ := Option.map_eq_some_iff.mp h
    rw [LinkedOp.toDatum, BinaryKind.index, idxOf_of_getElem? (by decide) hkind]
  case functionDef =>
    intro name data params ih op h
    obtain ⟨body, hbody, rfl⟩ := Option.map_eq_some_iff.mp h
    rw [LinkedOp.toDatum, ih body hbody]
  case other =>
    intro datum _ _ _ _ _ _ _ op h
    simp_all [LinkedOp.ofDatum?]
  case cons =>
    intro datum rest op ops hrest hop ihop ihops found h
    rw [opsOfData?, hop, hrest] at h
    cases h
    rw [opsToData, ihop op hop, ihops ops hrest]
  case failed =>
    intro datum rest _ _ _ found h
    simp [opsOfData?] at h
  all_goals
    intros
    next h => cases h; rfl

/-- Values that data stand for have these data. -/
theorem valuesToData_of_valuesOfData? :
    (∀ datum value, ValueImage.ofDatum? datum = some value → value.toDatum = datum) ∧
      ∀ data values, valuesOfData? data = some values → valuesToData values = data := by
  -- The induction follows the reader; a body is read by the lemma before.
  refine ValueImage.ofDatum?.mutual_induct
    (fun datum => ∀ value, ValueImage.ofDatum? datum = some value → value.toDatum = datum)
    (fun data => ∀ values, valuesOfData? data = some values → valuesToData values = data)
    ?null ?bool ?long ?double ?string ?array ?slot ?param ?other ?nil ?cons ?failed
  case array =>
    intro data ih value h
    obtain ⟨items, hitems, rfl⟩ := Option.map_eq_some_iff.mp h
    rw [ValueImage.toDatum, ih items hitems]
  case param =>
    intro name default data byRef typeHint value h
    obtain ⟨ops, hops, rfl⟩ := Option.map_eq_some_iff.mp h
    rw [ValueImage.toDatum, opsToData_of_opsOfData?.2 data ops hops]
  case other =>
    intro datum _ _ _ _ _ _ _ _ value h
    simp_all [ValueImage.ofDatum?]
  case cons =>
    intro datum rest value values hrest hvalue ihvalue ihvalues found h
    rw [valuesOfData?, hvalue, hrest] at h
    cases h
    rw [valuesToData, ihvalue value hvalue, ihvalues values hrest]
  case failed =>
    intro datum rest _ _ _ found h
    simp [valuesOfData?] at h
  all_goals
    intros
    next h => cases h; rfl

/-- A slot that a datum stands for has that datum. -/
theorem SlotImage.toDatum_of_ofDatum? {datum : Datum} {slot : SlotImage}
    (h : SlotImage.ofDatum? datum = some slot) : slot.toDatum = datum := by
  unfold SlotImage.ofDatum? at h
  split at h
  · split at h
    · next value type hvalue htype =>
      cases h
      rw [SlotImage.toDatum, valuesToData_of_valuesOfData?.1 _ _ hvalue, TypeTag.index,
        idxOf_of_getElem? (by decide) htype]
    · cases h
  · cases h

/-- Slots that data stand for have these data. -/
theorem map_toDatum_of_mapM_ofDatum? {data : List Datum} {slots : List SlotImage}
    (h : data.mapM SlotImage.ofDatum? = some slots) : slots.map SlotImage.toDatum = data := by
  induction data generalizing slots with
  | nil =>
    cases h
    rfl
  | cons datum rest ih =>
    simp only [List.mapM_cons, Option.bind_eq_bind, Option.bind_eq_some_iff] at h
    obtain ⟨slot, hslot, slots, hslots, hcons⟩ := h
    cases hcons
    rw [List.map_cons, SlotImage.toDatum_of_ofDatum? hslot, ih hslots]

/-- An image that a datum stands for has that datum. -/
theorem Image.toDatum_of_ofDatum? {datum : Datum} {image : Image}
    (h : Image.ofDatum? datum = some image) : image.toDatum = datum := by
  unfold Image.ofDatum? at h
  split at h
  · split at h
    · next ops slots hops hslots =>
      cases h
      rw [Image.toDatum, opsToData_of_opsOfData?.2 _ _ hops, map_toDatum_of_mapM_ofDatum? hslots]
    · cases h
  · cases h

/-! ## Equality -/

mutual

/-- The doubles in a value. -/
def ValueImage.doubles : ValueImage → List Double
  | .double x => [x]
  | .array items => doublesIn items
  | .null | .bool _ | .long _ | .string _ | .slot _ | .param _ => []

/-- The doubles in values. -/
def doublesIn : List ValueImage → List Double
  | [] => []
  | value :: rest => value.doubles ++ doublesIn rest

end

/-- The doubles in an image. They are all in its slots, since neither op-lines nor parameter records
have any. -/
def Image.doubles (image : Image) : List Double :=
  image.slots.flatMap fun slot => slot.value.doubles

/-- A double equals itself unless it is a NaN. -/
theorem Double.same_self (x : Double) : x.same x = !x.isNaN := by
  simp [Double.same]

mutual

/-- The data of an op-line equal themselves, as there are no doubles in them. -/
theorem LinkedOp.same_self : ∀ op : LinkedOp, op.toDatum.same op.toDatum = true
  | .unary _ _ _ | .binary _ _ _ _ | .jumpTo _ | .jumpIf _ _ | .jumpIfNot _ _ | .noOp => by
    simp [LinkedOp.toDatum, Datum.same, sameData]
  | .functionDef _ body _ => by
    simp [LinkedOp.toDatum, Datum.same, sameData, sameData_opsToData body]

/-- The data of op-lines equal themselves, as there are no doubles in them. -/
theorem sameData_opsToData : ∀ ops : List LinkedOp,
    sameData (opsToData ops) (opsToData ops) = true
  | [] => by simp [opsToData, sameData]
  | op :: rest => by
    simp [opsToData, sameData, LinkedOp.same_self op, sameData_opsToData rest]

end

mutual

/-- The data of a value equal themselves unless one of its doubles is a NaN. -/
theorem ValueImage.same_self : ∀ value : ValueImage,
    value.toDatum.same value.toDatum = true ↔ ∀ x ∈ value.doubles, x.isNaN = false
  | .null | .bool _ | .long _ | .string _ | .slot _ => by
    simp [ValueImage.toDatum, Datum.same, sameData, ValueImage.doubles]
  | .double x => by
    simp [ValueImage.toDatum, Datum.same, sameData, ValueImage.doubles, x.same_self]
  | .array items => by
    simp [ValueImage.toDatum, Datum.same, sameData, ValueImage.doubles,
      sameData_valuesToData items]
  | .param record => by
    simp [ValueImage.toDatum, Datum.same, sameData, ValueImage.doubles, sameData_opsToData]

/-- The data of values equal themselves unless one of their doubles is a NaN. -/
theorem sameData_valuesToData : ∀ values : List ValueImage,
    sameData (valuesToData values) (valuesToData values) = true ↔
      ∀ x ∈ doublesIn values, x.isNaN = false
  | [] => by simp [valuesToData, sameData, doublesIn]
  | value :: rest => by
    simp only [valuesToData, sameData, doublesIn, Bool.and_eq_true, List.forall_mem_append,
      ValueImage.same_self value, sameData_valuesToData rest]

end

/-- An image equals itself if and only if none of its doubles is a NaN. -/
theorem Image.same_self (image : Image) :
    image.same image = true ↔ ∀ x ∈ image.doubles, x.isNaN = false := by
  have hslots : sameData (image.slots.map SlotImage.toDatum) (image.slots.map SlotImage.toDatum) =
      true ↔ ∀ x ∈ image.doubles, x.isNaN = false := by
    unfold Image.doubles
    induction image.slots with
    | nil => simp [sameData]
    | cons slot rest ih =>
      simp only [List.map_cons, sameData, Bool.and_eq_true, List.flatMap_cons,
        List.forall_mem_append, ih, ← ValueImage.same_self]
      simp [SlotImage.toDatum, Datum.same, sameData]
  rw [← hslots]
  simp [Image.same, Image.toDatum, Datum.same, sameData, sameData_opsToData]

end Lowering
