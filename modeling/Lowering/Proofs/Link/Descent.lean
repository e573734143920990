import Lowering.Proofs.Link.Order

/-!
# Linking ends

Linking a slot links the slots that its content names, and those the slots that theirs name, with
nothing that gets smaller on the way: a slot may contain itself. `Unbounded` is this recursion as it
stands, without a depth. `unrolled` is the same recursion opened a number of times, with anything at
all in place of the calls below: they may refuse, or answer what they like.

What comes to an end is the supply of slots. A slot is registered before its content is linked, and
one that is registered is not followed again, so each level of calls finds fewer slots of the heap
that have not been met. `Coincide` says of two steps that they do the same as long as fewer than a
given number have not; op-lines and values inherit it from slots at the same number, and a slot has
it at one more than its content. From as many levels as there are slots, and one for a slot that is
not there, it therefore makes no difference what stands below (`unrolled_eq`): no call gets there.
-/

namespace Lowering

/-- Linking slots follows the content of each slot as far as it goes. -/
def Unbounded (heap : Heap) (slot : SlotId → LinkM SlotRef) : Prop :=
  slot = linkSlotBy heap fun value => value.link slot

/-- The recursion of linking slots, opened a number of times above other ways to link them. -/
def unrolled (heap : Heap) (below : SlotId → LinkM SlotRef) : Nat → SlotId → LinkM SlotRef
  | 0 => below
  | depth + 1 => linkSlotBy heap fun value => value.link (unrolled heap below depth)

variable {heap : Heap} {bound : Nat} {α β : Type}

/-! ## Steps -/

/-- Two steps end alike from every table that lacks fewer than `bound` slots of the heap, and leave
such a table. -/
def Coincide (heap : Heap) (bound : Nat) (step step' : LinkM α) : Prop :=
  ∀ table, heap.unmet table.keys < bound → step.run table = step'.run table ∧
    ∀ a after, step.run table = .ok (a, after) → heap.unmet after.keys < bound

namespace Coincide

/-- A step coincides with itself if it only returns something. -/
theorem pure (a : α) : Coincide heap bound (Pure.pure a) (Pure.pure a) := by
  intro table hroom
  refine ⟨rfl, ?_⟩
  rintro _ _ ⟨⟩
  exact hroom

/-- A step coincides with itself if it throws. -/
theorem throw (e : LinkError) :
    Coincide heap bound (MonadExcept.throw e : LinkM α) (MonadExcept.throw e) :=
  fun _ _ => ⟨rfl, nofun⟩

/-- One step and then another coincide with others if each does with its own. -/
theorem bind {step step' : LinkM α} {next next' : α → LinkM β} (h : Coincide heap bound step step')
    (h' : ∀ a, Coincide heap bound (next a) (next' a)) :
    Coincide heap bound (step >>= next) (step' >>= next') := by
  intro table hroom
  obtain ⟨hrun, hafter⟩ := h table hroom
  rw [StateT.run_bind, StateT.run_bind, ← hrun]
  rcases hstep : step.run table with e | ⟨a, between⟩
  · exact ⟨rfl, nofun⟩
  · exact h' a between (hafter a between hstep)

end Coincide

/-- Checking for duplicates touches no table. -/
theorem checkDistinct_coincide (lines : List OpLine) :
    Coincide heap bound (checkDistinct lines) (checkDistinct lines) := by
  unfold checkDistinct
  split
  · exact .throw _
  · exact .pure ()

/-- Resolving a jump touches no table. -/
theorem resolve_coincide (lines : List OpLine) (target : OpId) :
    Coincide heap bound (resolve lines target) (resolve lines target) := by
  unfold resolve
  split
  · exact .pure _
  · exact .throw _

variable {slot slot' : SlotId → LinkM SlotRef}

mutual

/-- An operation is linked alike by ways to link slots that coincide. -/
theorem Op.link_coincide (hslot : ∀ id, Coincide heap bound (slot id) (slot' id))
    (lines : List OpLine) :
    ∀ op : Op, Coincide heap bound (op.link slot lines) (op.link slot' lines)
  | .unary kind op1 result => by
    unfold Op.link
    exact (hslot op1).bind fun _ => (hslot result).bind fun _ => .pure _
  | .binary kind op1 op2 result => by
    unfold Op.link
    exact (hslot op1).bind fun _ => (hslot op2).bind fun _ => (hslot result).bind fun _ => .pure _
  -- The body is linked with itself as the lines that its jumps are resolved in.
  | .functionDef name body params => by
    unfold Op.link
    exact (hslot name).bind fun _ => (checkDistinct_coincide body).bind fun _ =>
      (linkLines_coincide hslot body body).bind fun _ => (hslot params).bind fun _ => .pure _
  | .jumpTo target => by
    unfold Op.link
    exact (resolve_coincide lines target).bind fun _ => .pure _
  | .jumpIf cond target => by
    unfold Op.link
    exact (hslot cond).bind fun _ => (resolve_coincide lines target).bind fun _ => .pure _
  | .jumpIfNot cond target => by
    unfold Op.link
    exact (hslot cond).bind fun _ => (resolve_coincide lines target).bind fun _ => .pure _
  | .noOp => by
    unfold Op.link
    exact .pure _

/-- Op-lines are linked alike by ways to link slots that coincide. -/
theorem linkLines_coincide (hslot : ∀ id, Coincide heap bound (slot id) (slot' id))
    (lines : List OpLine) : ∀ part : List OpLine,
    Coincide heap bound (linkLines slot lines part) (linkLines slot' lines part)
  | [] => by
    unfold linkLines
    exact .pure _
  | ⟨_, op⟩ :: rest => by
    unfold linkLines
    exact (Op.link_coincide hslot lines op).bind fun _ =>
      (linkLines_coincide hslot lines rest).bind fun _ => .pure _

end

/-- A whole list of op-lines is linked alike by ways to link slots that coincide. -/
theorem linkSequence_coincide (hslot : ∀ id, Coincide heap bound (slot id) (slot' id))
    (lines : List OpLine) :
    Coincide heap bound (linkSequence slot lines) (linkSequence slot' lines) := by
  unfold linkSequence
  exact (checkDistinct_coincide lines).bind fun _ => linkLines_coincide hslot lines lines

mutual

/-- A value is linked alike by ways to link slots that coincide. -/
theorem Value.link_coincide (hslot : ∀ id, Coincide heap bound (slot id) (slot' id)) :
    ∀ value : Value, Coincide heap bound (value.link slot) (value.link slot')
  | .null | .bool _ | .long _ | .double _ | .string _ => by
    unfold Value.link
    exact .pure _
  | .array items => by
    unfold Value.link
    exact (linkValues_coincide hslot items).bind fun _ => .pure _
  | .slot id => by
    unfold Value.link
    exact (hslot id).bind fun _ => .pure _
  | .param record => by
    unfold Value.link
    exact (hslot record.default).bind fun _ =>
      (linkSequence_coincide hslot record.ops).bind fun _ => .pure _

/-- Values are linked alike by ways to link slots that coincide. -/
theorem linkValues_coincide (hslot : ∀ id, Coincide heap bound (slot id) (slot' id)) :
    ∀ values : List Value, Coincide heap bound (linkValues slot values) (linkValues slot' values)
  | [] => by
    unfold linkValues
    exact .pure _
  | value :: rest => by
    unfold linkValues
    exact (Value.link_coincide hslot value).bind fun _ =>
      (linkValues_coincide hslot rest).bind fun _ => .pure _

end

/-! ## Slots -/

/-- Linking a slot from a table that lacks no more than `bound` slots: its content is linked from
one that lacks fewer, because the slot has been registered by then. -/
theorem linkSlotBy_coincide (hslot : ∀ id, Coincide heap bound (slot id) (slot' id)) (id : SlotId) :
    Coincide heap (bound + 1) (linkSlotBy heap (fun value => value.link slot) id)
      (linkSlotBy heap (fun value => value.link slot') id) := by
  intro table hroom
  rcases hfind : table.find? id with _ | place
  · have hnew : id ∉ table.keys := SlotTable.not_mem_of_find? hfind
    have hkeys := table.keys_register id (heap.get id).type
    rw [linkSlotBy_of_find?_eq_none hfind, linkSlotBy_of_find?_eq_none hfind]
    by_cases hthere : id.index < heap.size
    -- Registering the slot leaves one less to meet, which is the room that its content needs.
    · have hless := Heap.unmet_append_lt hnew hthere
      obtain ⟨hrun, hafter⟩ := Value.link_coincide hslot (heap.get id).value
        (table.register id (heap.get id).type) (by rw [hkeys]; omega)
      rw [hrun]
      rcases hcontent : ((heap.get id).value.link slot').run
        (table.register id (heap.get id).type) with e | ⟨value, after⟩
      · exact ⟨rfl, nofun⟩
      · refine ⟨rfl, ?_⟩
        rintro _ _ ⟨⟩
        rw [SlotTable.keys_fill]
        exact Nat.lt_succ_of_lt (hafter value after (hrun.trans hcontent))
    · -- A slot that is not there has no content to follow.
      rw [Heap.get_of_size_le (Nat.le_of_not_lt hthere)]
      refine ⟨rfl, ?_⟩
      rintro _ _ ⟨⟩
      have hle : heap.unmet (table.keys ++ [id]) ≤ heap.unmet table.keys :=
        Heap.unmet_le_of_subset (List.subset_append_left _ _)
      rw [SlotTable.keys_fill, SlotTable.keys_register]
      omega
  · -- A slot that was met before is not followed.
    rw [linkSlotBy_of_find? hfind, linkSlotBy_of_find? hfind]
    refine ⟨rfl, ?_⟩
    rintro _ _ ⟨⟩
    exact hroom

/-- What stands below as many levels as there are slots left to meet makes no difference. -/
theorem unrolled_coincide (below below' : SlotId → LinkM SlotRef) :
    ∀ (bound depth depth' : Nat), bound ≤ depth → bound ≤ depth' → ∀ id,
      Coincide heap bound (unrolled heap below depth id) (unrolled heap below' depth' id)
  | 0, _, _, _, _, _ => fun _ hroom => absurd hroom (Nat.not_lt_zero _)
  | bound + 1, depth + 1, depth' + 1, hle, hle', id =>
    linkSlotBy_coincide (unrolled_coincide below below' bound depth depth'
      (Nat.le_of_succ_le_succ hle) (Nat.le_of_succ_le_succ hle')) id

/-- Beyond the size of the heap, neither how far the recursion is opened nor what is below it
matters. -/
theorem unrolled_eq (below below' : SlotId → LinkM SlotRef) {depth depth' : Nat}
    (h : heap.size < depth) (h' : heap.size < depth') :
    unrolled heap below depth = unrolled heap below' depth' := by
  funext id table
  have hroom : heap.unmet table.keys < heap.size + 1 :=
    Nat.lt_succ_of_le (heap.unmet_le_size table.keys)
  exact (unrolled_coincide below below' (heap.size + 1) depth depth' h h' id table hroom).1

/-! ## Whole programs -/

/-- Unbounded linking of slots is itself, opened any number of times. -/
theorem Unbounded.eq_unrolled (h : Unbounded heap slot) (depth : Nat) :
    slot = unrolled heap slot depth := by
  induction depth with
  | zero => rfl
  | succ depth ih =>
    rw [unrolled, ← ih]
    exact h

/-- Linking slots down to a depth is the recursion opened as often, above the last level. -/
theorem linkSlot_eq_unrolled (heap : Heap) (depth : Nat) :
    linkSlot heap depth = unrolled heap (linkSlot heap 0) depth := by
  induction depth with
  | zero => rfl
  | succ depth ih => rw [unrolled, ← ih, linkSlot]

/-- The recursion of the linker through slots has exactly one solution, and it is reached by opening
the recursion once more than there are slots in the heap, whatever is put in place of the calls
below. -/
theorem unbounded_iff : Unbounded heap slot ↔ slot = linkSlot heap (heap.size + 1) := by
  have hlt := Nat.lt_succ_self heap.size
  constructor
  · intro h
    rw [linkSlot_eq_unrolled, ← unrolled_eq slot _ hlt hlt]
    exact h.eq_unrolled (heap.size + 1)
  · rintro rfl
    calc linkSlot heap (heap.size + 1)
        = unrolled heap (linkSlot heap 0) (heap.size + 1 + 1) := by
          rw [linkSlot_eq_unrolled, unrolled_eq _ _ hlt (Nat.lt_succ_of_lt hlt)]
      _ = linkSlotBy heap fun value => value.link (linkSlot heap (heap.size + 1)) := by
          rw [unrolled, ← linkSlot_eq_unrolled]

/-- Linking always ends. The recursion that follows slots through their content without any bound
has one solution over every heap, also where slots contain themselves or each other, or where the
op-lines of a record use the slot that the record is stored in. Opened more often than there are
slots, it makes no call below, since whatever is put there changes nothing. Linking op-lines by it
returns an image or an error, and that is what `link` returns. -/
theorem link_ends (heap : Heap) (lines : List OpLine) :
    ∃ slot, (∀ other, Unbounded heap other ↔ other = slot) ∧
      (∀ below depth, heap.size < depth → unrolled heap below depth = slot) ∧
      ((∃ ops table, (linkSequence slot lines).run {} = .ok (ops, table) ∧
          link heap lines = .ok ⟨ops, table.slots⟩) ∨
        ∃ e, (linkSequence slot lines).run {} = .error e ∧ link heap lines = .error e) := by
  refine ⟨linkSlot heap (heap.size + 1), fun _ => unbounded_iff, ?_, ?_⟩
  · intro below depth hdepth
    rw [linkSlot_eq_unrolled]
    exact unrolled_eq below _ hdepth (Nat.lt_succ_self heap.size)
  · unfold link
    rcases (linkSequence (linkSlot heap (heap.size + 1)) lines).run {} with e | ⟨ops, table⟩
    · exact Or.inr ⟨e, rfl, rfl⟩
    · exact Or.inl ⟨ops, table, rfl, rfl⟩

end Lowering
