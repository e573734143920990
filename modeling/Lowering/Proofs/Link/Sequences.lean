import Lowering.Proofs.Link.Identity

/-!
# What can be linked

Linking looks at the program it is given, at the bodies of functions, and at the op-lines of the
parameter records in the slots that it meets on the way. `ReachableSequence` is the inductive
closure of these three: it follows one step at a time and knows nothing of tables. It has the lists
that `link_eq_ok` and `link_eq_error` speak of (`reachableSequence_iff`), so a slot that is passed
over because it was met before hides nothing.

`LinkedSequence` pairs each of these lists with the list of the image that stands in its place, and
`Resolves` is what holds of such a pair.
-/

namespace Lowering

/-! ## Lists of op-lines that can be found -/

mutual

/-- The parameter records that stand in a value. -/
def Value.records : Value → List ParamRecord
  | .array items => valueRecords items
  | .param record => [record]
  | _ => []

/-- The parameter records that stand in values. -/
def valueRecords : List Value → List ParamRecord
  | [] => []
  | value :: rest => value.records ++ valueRecords rest

end

/-- The lists of op-lines that can be found from a program: the program itself, the bodies of the
functions that they declare, and the op-lines of the records in the slots that can be found from
them. -/
inductive ReachableSequence (heap : Heap) (program : List OpLine) : List OpLine → Prop where
  | program : ReachableSequence heap program program
  | body {lines body : List OpLine} {id : OpId} {name params : SlotId} :
      ReachableSequence heap program lines → ⟨id, .functionDef name body params⟩ ∈ lines →
        ReachableSequence heap program body
  | record {lines : List OpLine} {slot : SlotId} {record : ParamRecord} :
      ReachableSequence heap program lines → slot ∈ ReachableSlots heap lines →
        record ∈ (heap.get slot).value.records → ReachableSequence heap program record.ops

variable {heap : Heap} {program lines : List OpLine}

/-- A slot that op-lines name is named by one of them. -/
theorem mem_lineSlots {slot : SlotId} :
    slot ∈ lineSlots lines ↔ ∃ line ∈ lines, slot ∈ line.op.slots := by
  induction lines with
  | nil => simp [lineSlots]
  | cons line rest ih => simp [ih]

mutual

/-- The lists of op-lines inside a value are those of its records and the bodies inside them. -/
theorem Value.mem_sequences {lines : List OpLine} : ∀ value : Value,
    lines ∈ value.sequences ↔ ∃ record ∈ value.records, lines ∈ record.ops :: lineBodies record.ops
  | .null | .bool _ | .long _ | .double _ | .string _ | .slot _ => by
    simp [Value.sequences, Value.records]
  | .param record => by simp [Value.sequences, Value.records]
  | .array items => by
    rw [Value.sequences, Value.records]
    exact mem_valueSequences items

/-- The lists of op-lines inside values are those of their records and the bodies inside them. -/
theorem mem_valueSequences {lines : List OpLine} : ∀ values : List Value,
    lines ∈ valueSequences values ↔
      ∃ record ∈ valueRecords values, lines ∈ record.ops :: lineBodies record.ops
  | [] => by simp [valueSequences, valueRecords]
  | value :: rest => by
    rw [valueSequences, valueRecords, List.mem_append, Value.mem_sequences value,
      mem_valueSequences rest]
    simp only [List.mem_append, or_and_right, exists_or]

end

mutual

/-- The slots that a record names are named by the value that it stands in. -/
theorem Value.slots_of_mem_records {record : ParamRecord} : ∀ value : Value,
    record ∈ value.records → lineSlots record.ops ⊆ value.slots
  | .null, h | .bool _, h | .long _, h | .double _, h | .string _, h | .slot _, h => by
    simp [Value.records] at h
  | .param other, h => by
    obtain rfl : record = other := by simpa [Value.records] using h
    exact List.subset_cons_self _ _
  | .array items, h => by
    rw [Value.slots]
    exact valueSlots_of_mem_records items (by rwa [Value.records] at h)

/-- The slots that a record names are named by the values that it stands in. -/
theorem valueSlots_of_mem_records {record : ParamRecord} : ∀ values : List Value,
    record ∈ valueRecords values → lineSlots record.ops ⊆ valueSlots values
  | [], h => by simp [valueRecords] at h
  | value :: rest, h => by
    rw [valueSlots]
    rcases List.mem_append.mp (by rwa [valueRecords] at h) with h | h
    · exact List.Subset.trans (Value.slots_of_mem_records value h) (List.subset_append_left _ _)
    · exact List.Subset.trans (valueSlots_of_mem_records rest h) (List.subset_append_right _ _)

end

mutual

/-- The bodies inside a body of an operation are bodies of the operation. -/
theorem Op.lineBodies_subset {body : List OpLine} : ∀ op : Op,
    body ∈ op.bodies → lineBodies body ⊆ op.bodies
  | .unary _ _ _, h | .binary _ _ _ _, h | .jumpTo _, h | .jumpIf _ _, h | .jumpIfNot _ _, h
  | .noOp, h => by simp [Op.bodies] at h
  | .functionDef _ inner _, h => by
    rw [Op.bodies] at h ⊢
    rcases List.mem_cons.mp h with rfl | h
    · exact List.subset_cons_self _ _
    · exact List.Subset.trans (lineBodies_subset inner h) (List.subset_cons_self _ _)

/-- The bodies inside a body in op-lines are bodies in the op-lines. -/
theorem lineBodies_subset {body : List OpLine} : ∀ lines : List OpLine,
    body ∈ lineBodies lines → lineBodies body ⊆ lineBodies lines
  | [], h => by simp [lineBodies] at h
  | ⟨_, op⟩ :: rest, h => by
    rw [lineBodies] at h ⊢
    rcases List.mem_append.mp h with h | h
    · exact List.Subset.trans (Op.lineBodies_subset op h) (List.subset_append_left _ _)
    · exact List.Subset.trans (lineBodies_subset rest h) (List.subset_append_right _ _)

end

/-- The body of a declared function is one of the bodies, and so are those inside it. -/
theorem mem_lineBodies_of_mem {id : OpId} {name params : SlotId} {body : List OpLine}
    (h : ⟨id, .functionDef name body params⟩ ∈ lines) : body ∈ lineBodies lines :=
  mem_lineBodies.mpr ⟨_, h, List.mem_cons_self⟩

/-- What is closed under bodies has the body of a function that one of its lists declares. -/
theorem mem_bodies_of_mem {whole : List OpLine} {id : OpId} {name params : SlotId}
    {body : List OpLine} (hlines : lines ∈ whole :: lineBodies whole)
    (h : ⟨id, .functionDef name body params⟩ ∈ lines) : body ∈ whole :: lineBodies whole := by
  refine List.mem_cons_of_mem _ ?_
  rcases List.mem_cons.mp hlines with rfl | hlines
  · exact mem_lineBodies_of_mem h
  · exact lineBodies_subset whole hlines (mem_lineBodies_of_mem h)

mutual

/-- The bodies inside an operation of a list that can be found can be found. -/
theorem ReachableSequence.of_mem_bodies {id : OpId} {body : List OpLine} :
    ∀ {lines : List OpLine} (op : Op), ReachableSequence heap program lines → ⟨id, op⟩ ∈ lines →
      body ∈ op.bodies → ReachableSequence heap program body
  | _, .unary _ _ _, _, _, h | _, .binary _ _ _ _, _, _, h | _, .jumpTo _, _, _, h
  | _, .jumpIf _ _, _, _, h | _, .jumpIfNot _ _, _, _, h | _, .noOp, _, _, h => by
    simp [Op.bodies] at h
  | _, .functionDef _ inner _, hlines, hmem, h => by
    have hinner := hlines.body hmem
    rcases List.mem_cons.mp (by rwa [Op.bodies] at h) with rfl | h
    · exact hinner
    · exact ReachableSequence.of_mem_lineBodies inner hinner (List.Subset.refl inner) h

/-- The bodies inside op-lines of a list that can be found can be found. -/
theorem ReachableSequence.of_mem_lineBodies {body : List OpLine} :
    ∀ {lines : List OpLine} (part : List OpLine), ReachableSequence heap program lines →
      part ⊆ lines → body ∈ lineBodies part → ReachableSequence heap program body
  | _, [], _, _, h => by simp [lineBodies] at h
  | _, ⟨id, op⟩ :: rest, hlines, hpart, h => by
    rcases List.mem_append.mp (by rwa [lineBodies] at h) with h | h
    · exact ReachableSequence.of_mem_bodies op hlines (hpart List.mem_cons_self) h
    · exact ReachableSequence.of_mem_lineBodies rest hlines
        (fun _ hline => hpart (List.mem_cons_of_mem _ hline)) h

end

/-- A list that can be found has its bodies among those that can be found. -/
theorem ReachableSequence.bodies (h : ReachableSequence heap program lines) {body : List OpLine}
    (hbody : body ∈ lines :: lineBodies lines) : ReachableSequence heap program body := by
  rcases List.mem_cons.mp hbody with rfl | hbody
  · exact h
  · exact .of_mem_lineBodies lines h (List.Subset.refl lines) hbody

/-- The slots that can be found from the content of a slot that can be found. -/
theorem ReachableSlots.of_content {slot found : SlotId} {part : List OpLine}
    (hslot : slot ∈ ReachableSlots heap lines) (hpart : lineSlots part ⊆ heap.slotsOf slot)
    (hfound : found ∈ ReachableSlots heap part) : found ∈ ReachableSlots heap lines := by
  induction hfound with
  | root hmem => exact Reach.content hslot (hpart hmem)
  | content _ hnext ih => exact Reach.content ih hnext

/-- The slots that can be found from a list that can be found can be found from the program. -/
theorem ReachableSequence.reachableSlots (h : ReachableSequence heap program lines) :
    ReachableSlots heap lines ⊆ ReachableSlots heap program := by
  induction h with
  | program => exact fun _ hslot => hslot
  | @body lines body id name params _ hmem ih =>
    intro slot hslot
    refine ih (Reach.mono ?_ hslot)
    intro other hother
    refine mem_lineSlots.mpr ⟨_, hmem, ?_⟩
    simp [Op.slots, hother]
  | record _ hslot hrecord ih =>
    intro found hfound
    exact ReachableSlots.of_content (ih hslot) (Value.slots_of_mem_records _ hrecord) hfound

/-- The lists that can be found are the program with its bodies, and the lists inside the slots that
can be found from the program. -/
theorem reachableSequence_iff : ReachableSequence heap program lines ↔
    lines ∈ program :: lineBodies program ∨
      ∃ slot ∈ ReachableSlots heap program, lines ∈ (heap.get slot).value.sequences := by
  constructor
  · intro h
    -- A body is found where the list around it is found; a record brings its default code.
    induction h with
    | program => exact Or.inl List.mem_cons_self
    | body _ hmem ih =>
      refine ih.imp (fun hlines => mem_bodies_of_mem hlines hmem) ?_
      rintro ⟨slot, hslot, hlines⟩
      obtain ⟨record, hrecord, hlines⟩ := (Value.mem_sequences _).mp hlines
      exact ⟨slot, hslot, (Value.mem_sequences _).mpr
        ⟨record, hrecord, mem_bodies_of_mem hlines hmem⟩⟩
    | @record lines slot record hlines hslot hrecord _ =>
      refine Or.inr ⟨slot, hlines.reachableSlots hslot, (Value.mem_sequences _).mpr ?_⟩
      exact ⟨record, hrecord, List.mem_cons_self⟩
  · rintro (hlines | ⟨slot, hslot, hlines⟩)
    · exact ReachableSequence.program.bodies hlines
    · obtain ⟨record, hrecord, hlines⟩ := (Value.mem_sequences _).mp hlines
      exact (ReachableSequence.program.record hslot hrecord).bodies hlines

/-! ## Lists of an image and where they come from -/

mutual

/-- The parameter records that stand in a value of an image. -/
def ValueImage.records : ValueImage → List ParamImage
  | .array items => imageRecords items
  | .param record => [record]
  | _ => []

/-- The parameter records that stand in values of an image. -/
def imageRecords : List ValueImage → List ParamImage
  | [] => []
  | value :: rest => value.records ++ imageRecords rest

end

/-- The lists of op-lines that an image holds: its own, the bodies of functions, and those of the
records in its slots. -/
inductive Image.Holds (image : Image) : List LinkedOp → Prop where
  | ops : image.Holds image.ops
  | body {ops body : List LinkedOp} {name params : SlotRef} :
      image.Holds ops → .functionDef name body params ∈ ops → image.Holds body
  | record {entry : SlotImage} {record : ParamImage} :
      entry ∈ image.slots → record ∈ entry.value.records → image.Holds record.ops

/-- A list of op-lines of a program and the list of the image that stands in its place, given the
index of each slot in the slot table: the two begin together, and at the same position of a pair
stand the bodies of a pair, or the records. -/
inductive LinkedSequence (heap : Heap) (program : List OpLine) (image : Image)
    (index : SlotId → Nat) : List OpLine → List LinkedOp → Prop where
  | program : LinkedSequence heap program image index program image.ops
  | body {lines body : List OpLine} {ops linked : List LinkedOp} {position : Nat} {id : OpId}
      {name params : SlotId} {name' params' : SlotRef} :
      LinkedSequence heap program image index lines ops →
        lines[position]? = some ⟨id, .functionDef name body params⟩ →
        ops[position]? = some (.functionDef name' linked params') →
        LinkedSequence heap program image index body linked
  | record {lines : List OpLine} {ops : List LinkedOp} {slot : SlotId} {entry : SlotImage}
      {position : Nat} {record : ParamRecord} {linked : ParamImage} :
      LinkedSequence heap program image index lines ops → slot ∈ ReachableSlots heap lines →
        image.slots[index slot]? = some entry →
        (heap.get slot).value.records[position]? = some record →
        entry.value.records[position]? = some linked →
        LinkedSequence heap program image index record.ops linked.ops

/-- What an op-line does, apart from its slots and where it jumps to. -/
inductive OpForm where
  | unary (kind : UnaryKind)
  | binary (kind : BinaryKind)
  | functionDef | jumpTo | jumpIf | jumpIfNot | noOp
  deriving DecidableEq

/-- The form of an operation. -/
def Op.form : Op → OpForm
  | .unary kind _ _ => .unary kind
  | .binary kind _ _ _ => .binary kind
  | .functionDef _ _ _ => .functionDef
  | .jumpTo _ => .jumpTo
  | .jumpIf _ _ => .jumpIf
  | .jumpIfNot _ _ => .jumpIfNot
  | .noOp => .noOp

/-- The form of an op-line of an image. -/
def LinkedOp.form : LinkedOp → OpForm
  | .unary kind _ _ => .unary kind
  | .binary kind _ _ _ => .binary kind
  | .functionDef _ _ _ => .functionDef
  | .jumpTo _ => .jumpTo
  | .jumpIf _ _ => .jumpIf
  | .jumpIfNot _ _ => .jumpIfNot
  | .noOp => .noOp

/-- Op-lines keep their positions when they are put in their linked form. -/
theorem getElem?_placedLines (place : SlotId → SlotRef) (lines part : List OpLine) (i : Nat) :
    (placedLines place lines part)[i]? = part[i]?.map fun line => line.op.placed place lines := by
  rw [placedLines_eq_map, List.getElem?_map]

mutual

/-- The records of a linked value are the linked records of the value. -/
theorem Value.records_placed (place : SlotId → SlotRef) : ∀ value : Value,
    (value.placed place).records = value.records.map (ParamRecord.placed place)
  | .null | .bool _ | .long _ | .double _ | .string _ | .slot _ | .param _ => by
    simp [Value.placed, ValueImage.records, Value.records]
  | .array items => by
    simp [Value.placed, ValueImage.records, Value.records, imageRecords_placedValues place items]

/-- The records of linked values are the linked records of the values. -/
theorem imageRecords_placedValues (place : SlotId → SlotRef) : ∀ values : List Value,
    imageRecords (placedValues place values) =
      (valueRecords values).map (ParamRecord.placed place)
  | [] => by simp [placedValues, imageRecords, valueRecords]
  | value :: rest => by
    simp [placedValues, imageRecords, valueRecords, Value.records_placed place value,
      imageRecords_placedValues place rest]

end

/-- The image of a program whose slots have given indices: its op-lines are the linked form of the
program, and the entry of each slot that can be found is at its index. -/
structure Image.IsLinked (image : Image) (heap : Heap) (program : List OpLine)
    (index : SlotId → Nat) : Prop where
  bijOn : Set.BijOn index (ReachableSlots heap program) (Set.Iio image.slots.length)
  ops : image.ops = placedLines (fun slot => .ofNat (index slot)) program program
  slots : ∀ slot ∈ ReachableSlots heap program,
    image.slots[index slot]? = some (heap.entry (fun slot => .ofNat (index slot)) slot)

section

variable {image : Image} {index : SlotId → Nat} {ops : List LinkedOp}

/-- The first of a pair can be found, and the second is its linked form. -/
theorem LinkedSequence.eq_placedLines (himage : image.IsLinked heap program index)
    (h : LinkedSequence heap program image index lines ops) :
    ReachableSequence heap program lines ∧
      ops = placedLines (fun slot => .ofNat (index slot)) lines lines := by
  -- Wherever the image holds a list, it is the placed one of the source, so its parts are as well.
  induction h with
  | program => exact ⟨.program, himage.ops⟩
  | @body lines body ops linked position id name params name' params' _ hline hop ih =>
    obtain ⟨hfound, rfl⟩ := ih
    rw [getElem?_placedLines, hline, Option.map_some, Op.placed] at hop
    injection hop with hop
    injection hop with _ hlinked _
    exact ⟨hfound.body (List.mem_of_getElem? hline), hlinked.symm⟩
  | @record lines ops slot entry position record linked _ hslot hentry hrecord hlinked ih =>
    obtain ⟨hfound, rfl⟩ := ih
    rw [himage.slots slot (hfound.reachableSlots hslot)] at hentry
    obtain rfl := Option.some.inj hentry
    rw [Heap.entry, Value.records_placed, List.getElem?_map, hrecord] at hlinked
    obtain rfl := Option.some.inj hlinked
    exact ⟨hfound.record hslot (List.mem_of_getElem? hrecord), rfl⟩

/-- Every list that can be found is paired with its linked form. -/
theorem ReachableSequence.linked (himage : image.IsLinked heap program index)
    (h : ReachableSequence heap program lines) :
    LinkedSequence heap program image index lines
      (placedLines (fun slot => .ofNat (index slot)) lines lines) := by
  generalize hplace : (fun slot => SlotRef.ofNat (index slot)) = place
  -- The image is entered at the same positions as the source: a body in its line, a record in its
  -- entry.
  induction h with
  | program =>
    rw [← hplace, ← himage.ops]
    exact .program
  | @body lines body id name params _ hmem ih =>
    obtain ⟨position, hline⟩ := List.mem_iff_getElem?.mp hmem
    have hop : (placedLines place lines lines)[position]? =
        some (.functionDef (place name) (placedLines place body body) (place params)) := by
      rw [getElem?_placedLines, hline]
      rfl
    exact ih.body hline hop
  | @record lines slot record hlines hslot hrecord ih =>
    obtain ⟨position, hposition⟩ := List.mem_iff_getElem?.mp hrecord
    have hlinked : (heap.entry place slot).value.records[position]? =
        some (record.placed place) := by
      rw [Heap.entry, Value.records_placed, List.getElem?_map, hposition]
      rfl
    have hentry := himage.slots slot (hlines.reachableSlots hslot)
    rw [hplace] at hentry
    exact ih.record hslot hentry hposition hlinked

/-- Every list that an image holds is paired with one of its program. -/
theorem Image.Holds.linked (himage : image.IsLinked heap program index) (h : image.Holds ops) :
    ∃ lines, LinkedSequence heap program image index lines ops := by
  induction h with
  | ops => exact ⟨program, .program⟩
  | @body ops body name params _ hmem ih =>
    obtain ⟨lines, hpair⟩ := ih
    obtain ⟨position, hop⟩ := List.mem_iff_getElem?.mp hmem
    have hplaced := hop
    rw [(hpair.eq_placedLines himage).2, getElem?_placedLines] at hplaced
    obtain ⟨⟨id, op⟩, hline, hform⟩ := Option.map_eq_some_iff.mp hplaced
    -- Only a function has the linked form of a function.
    cases op with
    | functionDef name' body' params' => exact ⟨body', hpair.body hline hop⟩
    | _ => cases hform
  | @record entry record hentry hrecord =>
    obtain ⟨i, hi⟩ := List.mem_iff_getElem?.mp hentry
    obtain ⟨hlt, -⟩ := List.getElem?_eq_some_iff.mp hi
    obtain ⟨slot, hslot, rfl⟩ := himage.bijOn.surjOn hlt
    obtain ⟨position, hposition⟩ := List.mem_iff_getElem?.mp hrecord
    have hplaced := hposition
    rw [himage.slots slot hslot] at hi
    obtain rfl := Option.some.inj hi
    rw [Heap.entry, Value.records_placed, List.getElem?_map] at hplaced
    obtain ⟨source, hsource, -⟩ := Option.map_eq_some_iff.mp hplaced
    exact ⟨source.ops, LinkedSequence.program.record hslot (himage.slots slot hslot) hsource
      hposition⟩

end

/-! ## Success and refusal -/

/-- Where every list that can be found is well-formed, there is an image, and only there. -/
theorem link_ok_iff :
    (∃ image, link heap program = .ok image) ↔
      ∀ lines, ReachableSequence heap program lines → WellFormed lines := by
  constructor
  · rintro ⟨image, h⟩ lines hlines
    have hlinked := link_eq_ok h
    rcases reachableSequence_iff.mp hlines with hlines | ⟨slot, hslot, hlines⟩
    · exact hlinked.program lines hlines
    · exact hlinked.contents slot ((hlinked.mem_iff slot).mpr hslot) lines hlines
  · intro hwell
    rcases h : link heap program with e | image
    · rcases link_eq_error h with ⟨lines, hlines, hfault⟩ | ⟨slot, hslot, lines, hlines, hfault⟩
      · exact absurd hfault ((hwell lines (reachableSequence_iff.mpr (Or.inl hlines))).no_fault e)
      · have hfound := reachableSequence_iff.mpr (Or.inr ⟨slot, hslot, hlines⟩)
        exact absurd hfault ((hwell lines hfound).no_fault e)
    · exact ⟨image, rfl⟩

end Lowering
