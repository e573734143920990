import Mathlib.Data.Set.Card
import Mathlib.Tactic.NormNum
import Lowering.Proofs.Link.Order

/-!
# Linking keeps the identity and the content of slots

`link_eq_ok` and `link_eq_error` say what `link` returns in terms of the program alone. An image is
the linked form of the op-lines with the entries of the slots that can be found from them, each
once, in the order in which they are met; the place of a slot is its index in that order. For the
entries there must be no more slots than words: beyond that a value is filled in where another
belongs. A refusal has a reason in one of the lists of op-lines that can be found.

`link_identity` is the statement about identity: places are a bijection between the slots that can
be found and the indices of the slot table.
-/

namespace Lowering

/-! ## The result of linking -/

/-- The slots that can be found from op-lines. -/
def ReachableSlots (heap : Heap) (lines : List OpLine) : Set SlotId :=
  {slot | Reach heap (lineSlots lines) slot}

/-- The places of slots that stand in a given order. -/
def placeIn (order : List SlotId) (slot : SlotId) : SlotRef :=
  .ofNat (order.idxOf slot)

/-- Linking a whole program meets the contract of its op-lines from the empty table. -/
theorem linkSequence_linked (heap : Heap) (lines : List OpLine) :
    Linked heap (lineSlots lines)
      (fun e => ∃ body ∈ lines :: lineBodies lines, SequenceFault body e)
      (fun place => placedLines place lines lines) {}
      ((linkSequence (linkSlot heap (heap.size + 1)) lines).run {}) := by
  apply linkSequence_links (linkSlot_links heap (heap.size + 1)) lines
  exact ⟨List.nodup_nil, by simp [SlotTable.met]⟩

/-- What an image has to do with its program, given the order of its slots. It lists each slot that
can be found once, and its op-lines are the linked form of the program. Its values are linked ones,
and unless there are more slots than words each of them is in the entry of its own slot. No list of
op-lines has a fault. -/
structure Image.LinkedIn (image : Image) (heap : Heap) (lines : List OpLine)
    (order : List SlotId) : Prop where
  nodup : order.Nodup
  mem_iff : ∀ slot, slot ∈ order ↔ slot ∈ ReachableSlots heap lines
  ops : image.ops = placedLines (placeIn order) lines lines
  length : image.slots.length = order.length
  values : ∀ entry ∈ image.slots, entry.value = .null ∨
    ∃ slot ∈ order, entry.value = (heap.get slot).value.placed (placeIn order)
  slots : image.slots.length ≤ 2 ^ 32 → image.slots = order.map (heap.entry (placeIn order))
  program : ∀ body ∈ lines :: lineBodies lines, WellFormed body
  contents : ∀ slot ∈ order, ∀ body ∈ (heap.get slot).value.sequences, WellFormed body

/-- An image lists the slots in the order in which they are met, and is the linked form of its
program. -/
theorem link_eq_ok {heap : Heap} {lines : List OpLine} {image : Image}
    (h : link heap lines = .ok image) : image.LinkedIn heap lines (heap.order lines) := by
  have hlinks := linkSequence_linked heap lines
  unfold link at h
  rcases hrun : (linkSequence (linkSlot heap (heap.size + 1)) lines).run {} with
    e | ⟨ops, table⟩
  · rw [hrun] at h
    cases h
  rw [hrun] at h hlinks
  obtain rfl : (⟨ops, table.slots⟩ : Image) = image := by injection h
  obtain ⟨hgrown, hdistinct, hsound, hplaced⟩ := hlinks
  -- The table was empty at first, so all its slots are among those that were added.
  obtain ⟨added, hadded, hcomplete⟩ := hgrown.keys
  obtain rfl : table.keys = added := by simpa using hadded
  have hplace : table.Places (placeIn table.keys) := by
    intro i slot hi
    obtain ⟨hlt, rfl⟩ := List.getElem?_eq_some_iff.mp hi
    unfold placeIn
    rw [List.Nodup.idxOf_getElem hdistinct]
  have hlength : table.slots.length = table.size := by simp [SlotTable.slots, SlotTable.size]
  have hmem : ∀ slot, slot ∈ table.keys ↔ slot ∈ ReachableSlots heap lines := by
    intro slot
    refine ⟨fun hslot => (hcomplete slot hslot).reach, fun hreach => ?_⟩
    -- The table is closed: it has the roots and whatever one of its slots names.
    induction hreach with
    | root hroot => exact hgrown.subset hroot
    | content _ hnext ih => exact (hcomplete _ ih).closed hnext
  rw [← keys_of_linkSequence hrun]
  refine ⟨hdistinct, hmem, hplaced _ hplace, by rw [hlength, SlotTable.length_keys], ?_, ?_, ?_, ?_⟩
  · intro entry hentry
    rcases hgrown.values entry hentry with hnull | ⟨old, hold, -⟩ | ⟨slot, hreach, hvalue⟩
    · exact Or.inl hnull
    · cases hold
    · exact Or.inr ⟨slot, (hmem slot).mpr hreach, hvalue _ hplace⟩
  · intro hsmall
    obtain ⟨entries, hentries, hlinked⟩ := hgrown.entries (hlength ▸ hsmall)
    obtain rfl : table.entries.toList = entries := by simpa using hentries
    unfold SlotTable.slots SlotTable.keys
    rw [List.map_map]
    exact List.map_congr_left fun entry hentry => hlinked entry hentry _ hplace
  · intro body hbody
    exact wellFormed_of_no_fault fun e hfault => hsound e ⟨body, hbody, hfault⟩
  · intro slot hslot body hbody
    exact wellFormed_of_no_fault ((hcomplete slot hslot).sound body hbody)

/-- A refusal names a fault of a list of op-lines that stands in the program or in a slot that can
be found from it. -/
theorem link_eq_error {heap : Heap} {lines : List OpLine} {e : LinkError}
    (h : link heap lines = .error e) :
    (∃ body ∈ lines :: lineBodies lines, SequenceFault body e) ∨
      ∃ slot ∈ ReachableSlots heap lines, ∃ body ∈ (heap.get slot).value.sequences,
        SequenceFault body e := by
  have hlinks := linkSequence_linked heap lines
  unfold link at h
  rcases hrun : (linkSequence (linkSlot heap (heap.size + 1)) lines).run {} with
    e' | ⟨ops, table⟩
  · rw [hrun] at h hlinks
    obtain rfl : e' = e := by injection h
    exact hlinks
  · rw [hrun] at h
    cases h

/-! ## Places in an image -/

mutual

/-- The places that an op-line of an image names, those of a body included. -/
def LinkedOp.refs : LinkedOp → List SlotRef
  | .unary _ op1 result => [op1, result]
  | .binary _ op1 op2 result => [op1, op2, result]
  | .functionDef name body params => name :: (linkedRefs body ++ [params])
  | .jumpIf cond _ | .jumpIfNot cond _ => [cond]
  | .jumpTo _ | .noOp => []

/-- The places that op-lines of an image name. -/
def linkedRefs : List LinkedOp → List SlotRef
  | [] => []
  | op :: rest => op.refs ++ linkedRefs rest

end

mutual

/-- The places that a value of an image names. -/
def ValueImage.refs : ValueImage → List SlotRef
  | .array items => imageRefs items
  | .slot ref => [ref]
  | .param record => record.default :: linkedRefs record.ops
  | _ => []

/-- The places that values of an image name. -/
def imageRefs : List ValueImage → List SlotRef
  | [] => []
  | value :: rest => value.refs ++ imageRefs rest

end

/-- All places that occur in an image. -/
def Image.refs (image : Image) : List SlotRef :=
  linkedRefs image.ops ++ image.slots.flatMap fun entry => entry.value.refs

mutual

/-- The linked form of an operation names the places of the slots that the operation names. -/
theorem Op.refs_placed (place : SlotId → SlotRef) (lines : List OpLine) :
    ∀ op : Op, (op.placed place lines).refs = op.slots.map place
  | .unary _ _ _ | .binary _ _ _ _ | .jumpTo _ | .jumpIf _ _ | .jumpIfNot _ _ | .noOp => by
    simp [Op.placed, LinkedOp.refs, Op.slots]
  | .functionDef name body params => by
    simp [Op.placed, LinkedOp.refs, Op.slots, linkedRefs_placedLines place body body]

/-- The linked forms of op-lines name the places of the slots that the op-lines name. -/
theorem linkedRefs_placedLines (place : SlotId → SlotRef) (lines : List OpLine) :
    ∀ part : List OpLine, linkedRefs (placedLines place lines part) = (lineSlots part).map place
  | [] => by simp [placedLines, linkedRefs, lineSlots]
  | ⟨id, op⟩ :: rest => by
    simp [linkedRefs, Op.refs_placed place lines op, linkedRefs_placedLines place lines rest]

end

mutual

/-- The linked form of a value names the places of the slots that the value names. -/
theorem Value.refs_placed (place : SlotId → SlotRef) :
    ∀ value : Value, (value.placed place).refs = value.slots.map place
  | .null | .bool _ | .long _ | .double _ | .string _ | .slot _ => by
    simp [Value.placed, ValueImage.refs, Value.slots]
  | .array items => by
    simp [Value.placed, ValueImage.refs, Value.slots, imageRefs_placedValues place items]
  | .param record => by
    simp [Value.placed, ParamRecord.placed, ValueImage.refs, Value.slots, linkedRefs_placedLines]

/-- The linked forms of values name the places of the slots that the values name. -/
theorem imageRefs_placedValues (place : SlotId → SlotRef) :
    ∀ values : List Value, imageRefs (placedValues place values) = (valueSlots values).map place
  | [] => by simp [placedValues, imageRefs, valueSlots]
  | value :: rest => by
    simp [placedValues, imageRefs, valueSlots, Value.refs_placed place value,
      imageRefs_placedValues place rest]

end

/-- The places in an image are those of the slots that can be found. -/
theorem exists_slot_of_mem_refs {heap : Heap} {lines : List OpLine} {image : Image}
    {order : List SlotId} {place : SlotId → SlotRef}
    (horder : ∀ slot, slot ∈ order ↔ slot ∈ ReachableSlots heap lines)
    (hops : image.ops = placedLines place lines lines)
    (hslots : image.slots = order.map (heap.entry place)) {ref : SlotRef}
    (href : ref ∈ image.refs) : ∃ slot ∈ order, place slot = ref := by
  unfold Image.refs at href
  rw [hops, hslots, linkedRefs_placedLines] at href
  rcases List.mem_append.mp href with href | href
  · obtain ⟨slot, hslot, rfl⟩ := List.mem_map.mp href
    exact ⟨slot, (horder slot).mpr (.root hslot), rfl⟩
  · -- A place in an entry is that of a slot which the content of another one names.
    obtain ⟨entry, hentry, href⟩ := List.mem_flatMap.mp href
    obtain ⟨owner, howner, rfl⟩ := List.mem_map.mp hentry
    unfold Heap.entry at href
    rw [Value.refs_placed] at href
    obtain ⟨slot, hslot, rfl⟩ := List.mem_map.mp href
    exact ⟨slot, (horder slot).mpr (((horder owner).mp howner).content hslot), rfl⟩

/-! ## Identity -/

/-- The index of a slot in an order without repetitions is a bijection onto the indices. -/
theorem bijOn_idxOf {order : List SlotId} (h : order.Nodup) :
    Set.BijOn order.idxOf {slot | slot ∈ order} (Set.Iio order.length) := by
  refine ⟨?_, ?_, ?_⟩
  · intro slot hslot
    exact List.idxOf_lt_length_of_mem hslot
  · intro slot hslot other _ heq
    exact (List.idxOf_inj hslot).mp heq
  · intro i hi
    refine ⟨order.get ⟨i, hi⟩, List.getElem_mem _, ?_⟩
    exact List.Nodup.idxOf_getElem h i hi

/-- Linking keeps the identity and the content of slots. Its places are a bijection `f` between the
slots that can be found and the indices of the slot table: all op-lines name each slot by the place
`f` gives it, the entry there has the slot's tag and its value with the slots in it named likewise,
two slots have the same place exactly when they are the same slot, and no place is out of range. -/
theorem link_identity {heap : Heap} {lines : List OpLine} {image : Image}
    (hsmall : (ReachableSlots heap lines).encard < 2 ^ 32) (h : link heap lines = .ok image) :
    ∃ (f : SlotId → Nat) (place : SlotId → SlotRef),
      Set.BijOn f (ReachableSlots heap lines) (Set.Iio image.slots.length) ∧
      (∀ slot ∈ ReachableSlots heap lines, (place slot).number.toNat = f slot) ∧
      (∀ slot ∈ ReachableSlots heap lines, ∀ other ∈ ReachableSlots heap lines,
        place slot = place other ↔ slot = other) ∧
      image.ops = placedLines place lines lines ∧
      (∀ slot ∈ ReachableSlots heap lines, image.slots[f slot]? = some
        ⟨(heap.get slot).value.placed place, (heap.get slot).type⟩) ∧
      ∀ ref ∈ image.refs, ref.number.toNat < image.slots.length := by
  have hlinked := link_eq_ok h
  generalize heap.order lines = order at hlinked
  obtain ⟨hnodup, horder, hops, himage, -, hslots, -, -⟩ := hlinked
  have hset : ReachableSlots heap lines = {slot | slot ∈ order} := by
    ext slot
    exact (horder slot).symm
  have hbij : Set.BijOn order.idxOf (ReachableSlots heap lines) (Set.Iio order.length) := by
    rw [hset]; exact bijOn_idxOf hnodup
  -- There are fewer slots than words, so an index can be read back from its word.
  have hlength : order.length < 2 ^ 32 := by
    rw [hset, show {slot | slot ∈ order} = (order.toFinset : Set SlotId) by ext; simp,
      Set.encard_coe_eq_coe_finsetCard, List.toFinset_card_of_nodup hnodup] at hsmall
    exact_mod_cast hsmall
  have hnumber : ∀ slot ∈ ReachableSlots heap lines,
      (placeIn order slot).number.toNat = order.idxOf slot := by
    intro slot hslot
    have hlt : order.idxOf slot < order.length := hbij.mapsTo hslot
    exact UInt32.toNat_ofNat_of_lt' (hlt.trans hlength)
  replace hslots := hslots (himage.trans_le hlength.le)
  refine ⟨order.idxOf, placeIn order, by rw [himage]; exact hbij, hnumber, ?_, hops, ?_, ?_⟩
  · intro slot hslot other hother
    refine ⟨fun heq => hbij.injOn hslot hother ?_, congrArg _⟩
    rw [← hnumber slot hslot, ← hnumber other hother, heq]
  · intro slot hslot
    rw [hslots, List.getElem?_map, List.getElem?_idxOf ((horder slot).mpr hslot)]
    rfl
  · intro ref href
    obtain ⟨slot, hslot, rfl⟩ := exists_slot_of_mem_refs horder hops hslots href
    have hreach := (horder slot).mp hslot
    rw [hnumber slot hreach, himage]
    exact hbij.mapsTo hreach

/-- A heap in which a slot contains itself, beside a record whose op-lines use the same slot. -/
def cyclicHeap : Heap :=
  ⟨#[⟨.array [.slot ⟨0⟩, .param ⟨"p", ⟨1⟩, [⟨⟨7⟩, .unary .fetchVariable ⟨0⟩ ⟨1⟩⟩], true, none⟩],
    .array⟩]⟩

/-- Op-lines over `cyclicHeap` with a jump back to the first of them. -/
def cyclicLines : List OpLine :=
  [⟨⟨3⟩, .unary .echoOp ⟨1⟩ ⟨0⟩⟩, ⟨⟨9⟩, .jumpIf ⟨0⟩ ⟨3⟩⟩]

/-- The image of `cyclicLines`. -/
def cyclicImage : Image :=
  ⟨[.unary .echoOp ⟨0⟩ ⟨1⟩, .jumpIf ⟨1⟩ 0],
    [⟨.null, .null⟩,
      ⟨.array [.slot ⟨1⟩, .param ⟨"p", ⟨0⟩, [.unary .fetchVariable ⟨1⟩ ⟨0⟩], true, none⟩], .array⟩]⟩

/-- Only the two slots that `cyclicLines` names can be found from it. -/
theorem encard_reachableSlots_cyclic :
    (ReachableSlots cyclicHeap cyclicLines).encard < 2 ^ 32 := by
  have hroots : lineSlots cyclicLines = [⟨1⟩, ⟨0⟩, ⟨0⟩] := by decide
  have hzero : cyclicHeap.slotsOf ⟨0⟩ = [⟨0⟩, ⟨1⟩, ⟨0⟩, ⟨1⟩] := by decide
  have hone : cyclicHeap.slotsOf ⟨1⟩ = [] := by decide
  -- The two slots name each other, so an induction on reachability never leaves them.
  have hsub : ReachableSlots cyclicHeap cyclicLines ⊆ {⟨0⟩, ⟨1⟩} := by
    intro slot hreach
    induction hreach with
    | root hmem =>
      rw [hroots] at hmem
      simpa [or_comm] using hmem
    | content _ hnext ih =>
      rcases ih with rfl | rfl
      · rw [hzero] at hnext
        simp only [List.mem_cons, List.not_mem_nil, or_false] at hnext
        rcases hnext with rfl | rfl | rfl | rfl <;> simp
      · rw [hone] at hnext
        simp at hnext
  calc (ReachableSlots cyclicHeap cyclicLines).encard
      ≤ ({⟨0⟩, ⟨1⟩} : Set SlotId).encard := Set.encard_le_encard hsub
    _ ≤ ({⟨1⟩} : Set SlotId).encard + 1 := Set.encard_insert_le _ _
    _ < 2 ^ 32 := by rw [Set.encard_singleton]; norm_num

/-- Linking keeps the identity of slots where a slot contains itself. -/
theorem link_identity_cyclic :
    ∃ (f : SlotId → Nat) (place : SlotId → SlotRef),
      Set.BijOn f (ReachableSlots cyclicHeap cyclicLines) (Set.Iio cyclicImage.slots.length) ∧
      (∀ slot ∈ ReachableSlots cyclicHeap cyclicLines, (place slot).number.toNat = f slot) ∧
      (∀ slot ∈ ReachableSlots cyclicHeap cyclicLines,
        ∀ other ∈ ReachableSlots cyclicHeap cyclicLines, place slot = place other ↔ slot = other) ∧
      cyclicImage.ops = placedLines place cyclicLines cyclicLines ∧
      (∀ slot ∈ ReachableSlots cyclicHeap cyclicLines, cyclicImage.slots[f slot]? = some
        ⟨(cyclicHeap.get slot).value.placed place, (cyclicHeap.get slot).type⟩) ∧
      ∀ ref ∈ cyclicImage.refs, ref.number.toNat < cyclicImage.slots.length :=
  link_identity encard_reachableSlots_cyclic (by with_unfolding_all rfl)

end Lowering
