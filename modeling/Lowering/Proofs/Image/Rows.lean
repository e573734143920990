import Lowering.Proofs.Compile.Findings
import Lowering.Proofs.Compile.Linkable
import Lowering.Proofs.Double.ReadBack
import Lowering.Proofs.Image.Lines

/-!
# One line for each op-line and for each slot

A listing is a table as long as no text in it holds a line break. Strings in slots are quoted, so
they never do (`quoted_oneLine`). The name of a parameter and its declared type are written as they
are, and they come from the tree: `Image.tabular_iff` says that the listing of an image is a table
exactly if they hold no line breaks in any record, and `compiled_listing_tabular` says so of
programs. A line break in the name of a parameter does break a row (`listing_not_tabular`).
-/

namespace Lowering

open CompileM Text
open Emitter (Declaration)

/-! ## Lines and line breaks -/

namespace Text

/-- Lines have the line breaks inside them and one each. -/
theorem count_lineChars (lines : List String) : (lineChars lines).count '\n' =
    (lines.map fun line => line.toList.count '\n').sum + lines.length := by
  induction lines with
  | nil => rfl
  | cons line lines ih =>
    simp [ih]
    omega

/-- There are as many line breaks as lines exactly if the lines hold none themselves. -/
theorem count_lineChars_eq_length {lines : List String} :
    (lineChars lines).count '\n' = lines.length ↔ ∀ line ∈ lines, OneLine line := by
  rw [count_lineChars, Nat.add_eq_right, List.sum_eq_zero_iff_forall_eq_nat]
  simp [OneLine, List.count_eq_zero]

/-- A text of given characters is one line if no line break is among them. -/
theorem oneLine_ofList {cs : List Char} : OneLine (String.ofList cs) ↔ '\n' ∉ cs := by
  rw [OneLine, String.toList_ofList]

/-- Parts that are joined by a separator of one line are one line if each of them is. -/
theorem oneLine_intercalate {separator : String} (h : OneLine separator) (parts : List String) :
    OneLine (separator.intercalate parts) ↔ ∀ part ∈ parts, OneLine part := by
  induction parts with
  | nil => simp [OneLine]
  | cons part rest ih =>
    cases rest with
    | nil => simp
    | cons next rest =>
      rw [String.intercalate_cons_cons, oneLine_append, oneLine_append, ih, and_iff_left h,
        ← List.forall_mem_cons]

/-- Blanks behind a text bring no line break. -/
theorem oneLine_padRight {s : String} (h : OneLine s) (width : Nat) :
    OneLine (padRight width s) := by
  rw [padRight, oneLine_append, oneLine_ofList]
  exact ⟨h, fun hbreak => absurd (List.eq_of_mem_replicate hbreak) (by decide)⟩

/-- The words for truth values are one line. -/
theorem truth_oneLine (b : Bool) : OneLine (truth b) := by
  cases b <;> decide

/-! ## Quoted texts -/

/-- A line break is no hexadecimal digit. -/
theorem newline_not_mem_toDigits (n : Nat) : '\n' ∉ Nat.toDigits 16 n := by
  have hdigit (digit : Nat) : '\n' ∉ [digit.digitChar] := by
    rw [List.mem_singleton]
    exact (Nat.digitChar_ne '\n' (by decide)).symm
  induction n using Nat.strongRecOn with
  | _ n ih =>
    rw [Nat.toDigits_eq_if (by decide)]
    split
    · exact hdigit n
    · next hle =>
      rw [List.mem_append, not_or]
      exact ⟨ih _ (Nat.div_lt_self (by omega) (by decide)), hdigit _⟩

/-- No character of a quoted text is written with a line break. -/
theorem quotedChar_oneLine (c : Char) : OneLine (quotedChar c) := by
  by_cases hbreak : c = '\n'
  · subst hbreak
    decide
  · unfold quotedChar
    split
    case h_7 =>
      split
      · rw [oneLine_append, oneLine_append, hex]
        exact ⟨⟨by decide, oneLine_ofList.mpr (newline_not_mem_toDigits _)⟩, by decide⟩
      · simpa [OneLine] using Ne.symm hbreak
    all_goals decide

/-- A quoted text is one line, whatever is in it, since line breaks are escaped. -/
theorem quoted_oneLine (s : String) : OneLine (quoted s) := by
  have hbody : OneLine (String.join (s.toList.map quotedChar)) := by
    rw [OneLine, String.toList_join, List.mem_flatMap]
    rintro ⟨piece, hpiece, hbreak⟩
    obtain ⟨c, -, rfl⟩ := List.mem_map.mp hpiece
    exact quotedChar_oneLine c hbreak
  rw [quoted, oneLine_append, oneLine_append]
  exact ⟨⟨by decide, hbody⟩, by decide⟩

/-! ## Numbers -/

/-- An integer is written on one line. -/
theorem oneLine_int (n : Int) : OneLine n.repr := by
  cases n with
  | ofNat n => exact oneLine_repr n
  | negSucc n =>
    rw [Int.repr, oneLine_append]
    exact ⟨by decide, oneLine_repr _⟩

end Text

namespace Double

/-- Digits with a point among them are one line if the digits are. -/
theorem positionalText_oneLine {digits : List Char} (hdigits : '\n' ∉ digits) (point : Int) :
    OneLine (positionalText "" digits point) := by
  have hzeros (k : Nat) : '\n' ∉ List.replicate k '0' := fun hbreak =>
    absurd (List.eq_of_mem_replicate hbreak) (by decide)
  unfold positionalText
  split
  · exact oneLine_append.mpr ⟨by decide, oneLine_ofList.mpr (by simp [hzeros, hdigits])⟩
  · split
    · exact oneLine_append.mpr ⟨oneLine_ofList.mpr (by simp [hzeros, hdigits]), by decide⟩
    · have htake : '\n' ∉ digits.take point.toNat := fun h => hdigits (List.mem_of_mem_take h)
      have hdrop : '\n' ∉ digits.drop point.toNat := fun h => hdigits (List.mem_of_mem_drop h)
      rw [oneLine_append, oneLine_append]
      exact ⟨⟨oneLine_ofList.mpr htake, by decide⟩, oneLine_ofList.mpr hdrop⟩

/-- A double is written on one line. -/
theorem text_oneLine (x : Double) : OneLine (x.text .plain) := by
  have hmagnitude : OneLine (magnitudeText .plain x.magnitude) := by
    unfold magnitudeText
    split
    · exact positionalText_oneLine (by decide) 1
    · refine positionalText_oneLine (fun hbreak => ?_) _
      exact absurd (Decimal.isDigit_of_mem_text _ hbreak) (by decide)
  have hsign : OneLine (if x.negative then "-" else "") := by
    split <;> decide
  unfold text
  split
  · decide
  · rw [oneLine_append]
    refine ⟨hsign, ?_⟩
    split
    · exact hmagnitude
    · decide

end Double

/-! ## Values -/

/-- The name of a declaration and its declared type hold no line breaks. -/
def Emitter.Declaration.OneLine (declaration : Declaration) : Prop :=
  Text.OneLine declaration.name ∧ ∀ hint ∈ declaration.typeHint, Text.OneLine hint

/-- What the record of a parameter shows of its declaration. -/
def ParamImage.declaration (record : ParamImage) : Declaration :=
  ⟨record.name, record.byRef, record.typeHint⟩

/-- A record is one line if its declaration is: it shows nothing else from outside. -/
theorem ParamImage.text_oneLine (record : ParamImage) :
    OneLine record.text ↔ record.declaration.OneLine := by
  obtain ⟨name, default, ops, byRef, typeHint⟩ := record
  have hslot : OneLine default.text := default.text_unsigned.not_mem (by decide)
  have hops : OneLine (if ops.isEmpty then "" else " (" ++ ops.length.repr ++ " ops)") := by
    split
    · decide
    · rw [oneLine_append, oneLine_append]
      exact ⟨⟨by decide, oneLine_repr _⟩, by decide⟩
  have hreference : OneLine (if byRef then "&" else "") := by
    split <;> decide
  have hfixed : ∀ text ∈ ["param ", "", " ", "$", " = "], OneLine text := by decide
  simp only [List.forall_mem_cons] at hfixed
  cases typeHint with
  | none =>
    simp [-List.isEmpty_iff, ParamImage.text, Declaration.OneLine, ParamImage.declaration, hslot,
      hops, hreference, hfixed]
  | some hint =>
    simp [-List.isEmpty_iff, ParamImage.text, Declaration.OneLine, ParamImage.declaration, hslot,
      hops, hreference, hfixed, and_comm]

mutual

/-- A value is one line if the declarations of its records are. -/
theorem ValueImage.text_oneLine : ∀ value : ValueImage,
    OneLine value.text ↔ ∀ record ∈ value.records, record.declaration.OneLine
  | .null => by
    have hnull : OneLine "null" := by decide
    simp [ValueImage.text, ValueImage.records, hnull]
  | .bool b => by simp [ValueImage.text, ValueImage.records, truth_oneLine]
  | .long n => by simp [ValueImage.text, ValueImage.records, oneLine_int]
  | .double x => by simp [ValueImage.text, ValueImage.records, x.text_oneLine]
  | .string s => by simp [ValueImage.text, ValueImage.records, quoted_oneLine]
  | .array items => by
    have hopen : OneLine "[" := by decide
    have hclose : OneLine "]" := by decide
    rw [ValueImage.text, ValueImage.records, bracketed, oneLine_append, oneLine_append,
      oneLine_intercalate (by decide), and_iff_right hopen, and_iff_left hclose]
    exact valueTexts_oneLine items
  | .slot ref => by
    have hslot : OneLine ref.text := ref.text_unsigned.not_mem (by decide)
    simp [ValueImage.text, ValueImage.records, hslot]
  | .param record => by
    simp [ValueImage.text, ValueImage.records, record.text_oneLine]

/-- Values are one line each if the declarations of their records are. -/
theorem valueTexts_oneLine : ∀ values : List ValueImage,
    (∀ text ∈ valueTexts values, OneLine text) ↔
      ∀ record ∈ imageRecords values, record.declaration.OneLine
  | [] => by simp [valueTexts, imageRecords]
  | value :: rest => by
    rw [valueTexts, imageRecords, List.forall_mem_cons, List.forall_mem_append,
      value.text_oneLine, valueTexts_oneLine rest]

end

/-! ## Tables -/

/-- The lines of slots show them one for one, from a place on. -/
theorem getElem?_slotLines (first place : Nat) (slots : List SlotImage) :
    (slotLines first slots)[place]? = slots[place]?.map (slotLine (first + place)) := by
  induction slots generalizing first place with
  | nil => simp [slotLines]
  | cons slot rest ih =>
    cases place with
    | zero => rfl
    | succ place =>
      rw [slotLines, List.getElem?_cons_succ, List.getElem?_cons_succ, ih]
      congr 2
      omega

/-- A slot has one line. -/
theorem length_slotLines (first : Nat) (slots : List SlotImage) :
    (slotLines first slots).length = slots.length := by
  induction slots generalizing first with
  | nil => rfl
  | cons slot rest ih => rw [slotLines, List.length_cons, List.length_cons, ih]

/-- The line of a slot begins with its place. -/
theorem prefix_slotLine (place : Nat) (slot : SlotImage) :
    ("$" ++ place.repr ++ " ").toList <+: (slotLine place slot).toList := by
  have hblank (k : Nat) (rest : List Char) : [' '] <+: List.replicate k ' ' ++ ' ' :: rest := by
    cases k with
    | zero => exact ⟨rest, rfl⟩
    | succ k => exact ⟨List.replicate k ' ' ++ ' ' :: rest, rfl⟩
  simp only [slotLine, padRight, String.toList_append, String.toList_ofList, List.append_assoc]
  rw [List.prefix_append_right_inj, List.prefix_append_right_inj]
  exact hblank _ _

/-- The line of a slot is one if no parameter in its value has a name or a type with a line break.
-/
theorem slotLine_oneLine (place : Nat) (slot : SlotImage) :
    OneLine (slotLine place slot) ↔ ∀ record ∈ slot.value.records, record.declaration.OneLine := by
  have hplace : OneLine (padRight 5 place.repr) := oneLine_padRight (oneLine_repr place) 5
  have hword : OneLine slot.type.word := by
    cases slot.type <;> decide
  have hfixed : ∀ text ∈ ["$", " "], OneLine text := by decide
  simp only [List.forall_mem_cons] at hfixed
  rw [← slot.value.text_oneLine]
  simp [slotLine, hplace, oneLine_padRight hword, hfixed]

/-- The lines of slots are one each if no parameter in their values has a name or a type with a line
break. -/
theorem slotLines_oneLine (first : Nat) (slots : List SlotImage) :
    (∀ line ∈ slotLines first slots, OneLine line) ↔
      ∀ entry ∈ slots, ∀ record ∈ entry.value.records, record.declaration.OneLine := by
  induction slots generalizing first with
  | nil => simp [slotLines]
  | cons slot rest ih =>
    rw [slotLines, List.forall_mem_cons, List.forall_mem_cons, slotLine_oneLine, ih]

/-- A listing is a table: as many line breaks as it has rows, and between the heads of its sections
and behind them just the rows of the op-lines, nested ones included, and those of the slots, each of
which begins with its place. -/
structure Image.Tabular (image : Image) : Prop where
  count : image.listing.toList.count '\n' =
    9 + (standings image.ops).length + image.slots.length
  rows : ∃ ops slots : List String,
    linesOf image.listing = sectionHead "main" image.ops.length "op-lines" ++ ops ++ [""] ++
      sectionHead "slots" image.slots.length "entries" ++ slots ++ [""] ∧
    ops.length = (standings image.ops).length ∧ slots.length = image.slots.length ∧
    ∀ (place : Nat) (row : String), slots[place]? = some row →
      ("$" ++ place.repr ++ " ").toList <+: row.toList

/-- A listing has a line for each op-line and each slot, and nine for the heads and the ends of its
sections. -/
theorem length_listingLines (image : Image) : image.listingLines.length =
    9 + (standings image.ops).length + image.slots.length := by
  have hops := (programLines_shown image.ops).length_eq
  simp [Image.listingLines, sectionHead, length_slotLines, hops]
  omega

/-- A listing is a table exactly if no record in it declares a name or a type with a line break. -/
theorem Image.tabular_iff (image : Image) : image.Tabular ↔
    ∀ entry ∈ image.slots, ∀ record ∈ entry.value.records, record.declaration.OneLine := by
  -- All other lines of the listing are made of fixed words, numbers and quoted texts.
  have hlines : (∀ line ∈ image.listingLines, OneLine line) ↔
      ∀ entry ∈ image.slots, ∀ record ∈ entry.value.records, record.declaration.OneLine := by
    simp only [Image.listingLines, List.forall_mem_append, List.forall_mem_singleton]
    rw [slotLines_oneLine]
    have hempty : OneLine "" := by decide
    have hmain : ∀ line ∈ sectionHead "main" image.ops.length "op-lines", OneLine line :=
      sectionHead_oneLine (by decide) (by decide) _
    have hslots : ∀ line ∈ sectionHead "slots" image.slots.length "entries", OneLine line :=
      sectionHead_oneLine (by decide) (by decide) _
    exact and_iff_right ⟨⟨⟨hmain, programLines_oneLine image.ops⟩, hempty⟩, hslots⟩
  rw [← hlines]
  constructor
  -- Where every line is one line, counting line breaks counts lines.
  · intro h
    rw [← count_lineChars_eq_length, ← Image.toList_listing, h.count, length_listingLines]
  · intro h
    refine ⟨?_, programLines image.ops, slotLines 0 image.slots, ?_, ?_, ?_, ?_⟩
    · rw [Image.toList_listing, count_lineChars_eq_length.mpr h, length_listingLines]
    · have hchars : image.listing.toList = lineChars image.listingLines ++ [] := by
        rw [Image.toList_listing, List.append_nil]
      rw [linesOf_lineChars h hchars]
      simp [Image.listingLines]
    · exact (programLines_shown image.ops).length_eq.symm
    · exact length_slotLines 0 image.slots
    · intro place row hrow
      rw [getElem?_slotLines] at hrow
      obtain ⟨slot, -, rfl⟩ := Option.map_eq_some_iff.mp hrow
      rw [Nat.zero_add]
      exact prefix_slotLine place slot

/-! ## Calls -/

/-- A value in the image of a call is none at all or that of a slot that was empty, or not there yet,
before the call. -/
theorem value_of_mem_slots {nodes : List Node} {context : Option SlotId}
    {state after : CompileState} {lines : List OpLine} {image : Image}
    (hempty : ∀ slot ∈ context, state.heap.get slot = {})
    (hrun : (compile nodes context).run.run state = (.ok lines, after))
    (hlink : link after.heap lines = .ok image) {entry : SlotImage} (hentry : entry ∈ image.slots) :
    entry.value = .null ∨ ∃ slot place, state.heap.get slot = {} ∧
      entry.value = (after.heap.get slot).value.placed place := by
  let territory : Territory := ⟨(· ∈ context), state.heap.size⟩
  have hbefore : ∀ slot, territory.Owns slot → state.heap.get slot = {} := fun slot hslot =>
    hslot.elim (hempty slot) Heap.get_of_size_le
  -- The call owns its context and the slots it adds, and these were empty before.
  have hsealed : territory.Sealed state := by
    refine ⟨le_rfl, fun slot hslot => ?_⟩
    rw [hbefore slot hslot]
    exact Territory.sealedValue_of_isLiteral (by simp [Value.IsLiteral])
  have hemits :=
    ((compile_built nodes).keeps context state (fun _ => Or.inl) hsealed).of_run_ok hrun
  have hlinked := link_eq_ok hlink
  refine (hlinked.values entry hentry).imp_right ?_
  rintro ⟨slot, hslot, hvalue⟩
  have hreach := (hlinked.mem_iff slot).mp hslot
  exact ⟨slot, _, hbefore slot (hemits.isSealed.owns_of_reach hemits.emission.owned hreach), hvalue⟩

/-- The records in the image of a call are those of parameters that the call has come across. -/
theorem declared_of_mem_records {nodes : List Node} {context : Option SlotId}
    {state after : CompileState} {lines : List OpLine} {image : Image}
    (hempty : ∀ slot ∈ context, state.heap.get slot = {})
    (hrun : (compile nodes context).run.run state = (.ok lines, after))
    (hlink : link after.heap lines = .ok image) {entry : SlotImage} (hentry : entry ∈ image.slots)
    {record : ParamImage} (hrecord : record ∈ entry.value.records) :
    .declared record.declaration ∈ findings nodes := by
  rcases value_of_mem_slots hempty hrun hlink hentry with hnull | ⟨slot, place, hslot, hvalue⟩
  · rw [hnull] at hrecord
    cases hrecord
  rw [hvalue, Value.records_placed] at hrecord
  obtain ⟨source, hsource, rfl⟩ := List.mem_map.mp hrecord
  have hmeets := (compile_finds nodes context state).of_run_ok hrun
  refine (hmeets.mem_records slot source hsource).resolve_left ?_
  simp [hslot, Value.records]

/-- The listing of a program has one line for each op-line, nested ones included, one for each slot,
and nine more, exactly if no name and no declared type of a parameter in its slots holds a line
break. So it has if none of the parameters in the statements has such a name or type; the strings in
slots do not matter. -/
theorem compiled_listing_tabular {nodes : List Node} {context : Option SlotId}
    {state after : CompileState} {lines : List OpLine} {image : Image}
    (hempty : ∀ slot ∈ context, state.heap.get slot = {})
    (hrun : (compile nodes context).run.run state = (.ok lines, after))
    (hlink : link after.heap lines = .ok image) :
    (image.Tabular ↔ ∀ entry ∈ image.slots, ∀ record ∈ entry.value.records,
      record.declaration.OneLine) ∧
    ((∀ declaration, .declared declaration ∈ findings nodes → declaration.OneLine) →
      image.Tabular) := by
  refine ⟨image.tabular_iff, fun hdeclared => image.tabular_iff.mpr ?_⟩
  intro entry hentry record hrecord
  exact hdeclared _ (declared_of_mem_records hempty hrun hlink hentry hrecord)

/-- A function that echoes a string with a line break, and has a parameter with a given name. -/
def echoingNodes (name : String) : List Node :=
  [⟨.stmtFunction, [],
    [("name", .scalar (.string "f")),
      ("params", .list [.node ⟨.param, [],
        [("name", .scalar (.string name)), ("type", .scalar (.string "int"))]⟩]),
      ("stmts", .list [.node ⟨.stmtEcho, [], [("exprs", .scalar (.string "a\nb"))]⟩])]⟩]

/-- The image of `echoingNodes`. -/
def echoingImage? (name : String) : Option Image :=
  match (compile (echoingNodes name) none).run.run {} with
  | (.ok lines, after) => (link after.heap lines).toOption
  | (.error _, _) => none

/-- The image comes from a run that links. -/
theorem exists_run_of_echoingImage {name : String} {image : Image}
    (h : echoingImage? name = some image) : ∃ lines after,
      (compile (echoingNodes name) none).run.run {} = (.ok lines, after) ∧
        link after.heap lines = .ok image := by
  unfold echoingImage? at h
  split at h
  · next lines after hrun =>
    refine ⟨lines, after, hrun, ?_⟩
    rcases hlink : link after.heap lines with e | linked
    · rw [hlink] at h
      cases h
    · rw [hlink] at h
      obtain rfl := Option.some.inj h
      rfl
  · cases h

/-- The string in the slots does not break its row, and neither do the name and the type of the
parameter. -/
theorem compiled_listing_tabular_echoing : ∃ lines after image,
    (compile (echoingNodes "x") none).run.run {} = (.ok lines, after) ∧
    link after.heap lines = .ok image ∧
    findings (echoingNodes "x") =
      [.folded (.string "a\nb"), .folded (.string "f"), .declared ⟨"x", false, some "int"⟩] ∧
    (image.Tabular ↔ ∀ entry ∈ image.slots, ∀ record ∈ entry.value.records,
      record.declaration.OneLine) ∧ image.Tabular := by
  have hsome : (echoingImage? "x").isSome = true := by decide +kernel
  obtain ⟨image, himage⟩ := Option.isSome_iff_exists.mp hsome
  obtain ⟨lines, after, hrun, hlink⟩ := exists_run_of_echoingImage himage
  -- The declaration is the one finding that a listing does not quote.
  have hfindings : findings (echoingNodes "x") =
      [.folded (.string "a\nb"), .folded (.string "f"), .declared ⟨"x", false, some "int"⟩] := by
    simp [findings, echoingNodes, Node.findings_eq, Node.compiledFields, NodeKind.descriptor?,
      NodeKind.routine?, Node.findingsOf, Node.field?, Node.declared, Child.findings, itemFindings,
      hasSlot, List.lookup_cons, Finding.single, Node.declaration, Node.scalar?, Node.flag,
      Child.typeHint?, Scalar.text]
  have hdeclared : ∀ declaration, .declared declaration ∈ findings (echoingNodes "x") →
      declaration.OneLine := by
    intro declaration hmem
    obtain rfl : declaration = ⟨"x", false, some "int"⟩ := by simpa [hfindings] using hmem
    exact ⟨by decide, by simp [OneLine]⟩
  have htable := compiled_listing_tabular (by simp) hrun hlink
  exact ⟨lines, after, image, hrun, hlink, hfindings, htable.1, htable.2 hdeclared⟩

/-- A line break in the name of a parameter makes two rows of one. -/
theorem listing_not_tabular : ∃ lines after image,
    (compile (echoingNodes "a\nb") none).run.run {} = (.ok lines, after) ∧
    link after.heap lines = .ok image ∧ ¬ image.Tabular := by
  have hbroken : (echoingImage? "a\nb").any (fun image => image.slots.any fun entry =>
      entry.value.records.any fun record => !decide (OneLine record.name)) = true := by
    decide +kernel
  obtain ⟨image, himage, hslots⟩ := (Option.any_eq_true _ _).mp hbroken
  obtain ⟨lines, after, hrun, hlink⟩ := exists_run_of_echoingImage himage
  refine ⟨lines, after, image, hrun, hlink, fun htabular => ?_⟩
  obtain ⟨entry, hentry, hrecords⟩ := List.any_eq_true.mp hslots
  obtain ⟨record, hrecord, hname⟩ := List.any_eq_true.mp hrecords
  have hbreak : ¬ OneLine record.name := by simpa using hname
  exact hbreak (image.tabular_iff.mp htabular entry hentry record hrecord).1

end Lowering
