import Mathlib.Data.Finset.Card
import Mathlib.Data.Finset.Range
import Lowering.Proofs.Link.Spec

/-!
# The order in which slots are met

A slot gets its place when it is first met, and then its content is followed before anything else.
`Heap.visit` is this walk with everything left out but the slots: from those met so far and the next
slot it makes those met afterwards. `Visits` says of a step of the linker that the slots of its
table change as the walk over the slots of its piece does. It is closed under sequencing, so it
holds of op-lines and values because `Op.slots` and `Value.slots` list slots in the order in which
linking asks for them.

The walk is bounded by a depth, as linking is. A slot of the heap is followed only once, so with
more depth than there are slots left to meet, still more depth changes nothing (`visit_succ`), and
`Heap.order` does not depend on the size of the heap beyond that.
-/

namespace Lowering

namespace Heap

/-- The slots that have been met after a slot and what is found from it down to a depth, given those
met before. -/
def visit (heap : Heap) : Nat → List SlotId → SlotId → List SlotId
  | 0, met, slot => if slot ∈ met then met else met ++ [slot]
  | depth + 1, met, slot =>
    if slot ∈ met then met else (heap.slotsOf slot).foldl (heap.visit depth) (met ++ [slot])

/-- The slots that can be found from op-lines, in the order in which they are met. -/
def order (heap : Heap) (lines : List OpLine) : List SlotId :=
  (lineSlots lines).foldl (heap.visit (heap.size + 1)) []

end Heap

variable {heap : Heap} {depth : Nat} {α β : Type}

/-! ## Steps of the linker -/

/-- On success, a step has met the slots that the walk over some roots meets. -/
def Visits (heap : Heap) (depth : Nat) (roots : List SlotId) (step : LinkM α) : Prop :=
  ∀ table a table', step.run table = .ok (a, table') →
    table'.keys = roots.foldl (heap.visit depth) table.keys

namespace Visits

variable {roots roots' : List SlotId}

/-- The same roots may be written in another way. -/
theorem congr {step : LinkM α} (h : Visits heap depth roots step) (hroots : roots = roots') :
    Visits heap depth roots' step :=
  hroots ▸ h

/-- A step that only returns something meets no slots. -/
theorem pure (a : α) : Visits heap depth [] (Pure.pure a : LinkM α) := by
  intro table b table' h
  injection h with h
  injection h with _ htable
  rw [← htable]
  rfl

/-- A step that throws meets no slots. -/
theorem throw (e : LinkError) : Visits heap depth [] (MonadExcept.throw e : LinkM α) := by
  intro table a table' h
  cases h

/-- One step and then another meet the slots of both, in order. -/
theorem bind {step : LinkM α} {next : α → LinkM β} (h : Visits heap depth roots step)
    (h' : ∀ a, Visits heap depth roots' (next a)) :
    Visits heap depth (roots ++ roots') (step >>= next) := by
  intro table b table'' hrun
  rw [StateT.run_bind] at hrun
  rcases hstep : step.run table with e | ⟨a, table'⟩
  · rw [hstep] at hrun
    cases hrun
  · rw [hstep] at hrun
    rw [List.foldl_append, ← h table a table' hstep]
    exact h' a table' b table'' hrun

end Visits

/-- Checking for duplicates meets no slots. -/
theorem checkDistinct_visits (lines : List OpLine) :
    Visits heap depth [] (checkDistinct lines) := by
  unfold checkDistinct
  split
  · exact .throw _
  · exact .pure ()

/-- Resolving a jump meets no slots. -/
theorem resolve_visits (lines : List OpLine) (target : OpId) :
    Visits heap depth [] (resolve lines target) := by
  unfold resolve
  split
  · exact .pure _
  · exact .throw _

variable {slot : SlotId → LinkM SlotRef}

mutual

/-- Linking an operation meets the slots that it names in their order. -/
theorem Op.link_visits (hslot : ∀ id, Visits heap depth [id] (slot id)) (lines : List OpLine) :
    ∀ op : Op, Visits heap depth op.slots (op.link slot lines)
  | .unary kind op1 result => by
    unfold Op.link
    exact (hslot op1).bind fun _ => (hslot result).bind fun _ => .pure _
  | .binary kind op1 op2 result => by
    unfold Op.link
    exact (hslot op1).bind fun _ => (hslot op2).bind fun _ => (hslot result).bind fun _ => .pure _
  | .functionDef name body params => by
    unfold Op.link
    refine ((hslot name).bind fun _ => (checkDistinct_visits body).bind fun _ =>
      (linkLines_visits hslot body body).bind fun _ =>
        (hslot params).bind fun _ => .pure _).congr ?_
    simp [Op.slots]
  | .jumpTo target => by
    unfold Op.link
    exact (resolve_visits lines target).bind fun _ => .pure _
  | .jumpIf cond target => by
    unfold Op.link
    exact (hslot cond).bind fun _ => (resolve_visits lines target).bind fun _ => .pure _
  | .jumpIfNot cond target => by
    unfold Op.link
    exact (hslot cond).bind fun _ => (resolve_visits lines target).bind fun _ => .pure _
  | .noOp => by
    unfold Op.link
    exact .pure _

/-- Linking op-lines meets the slots that they name in their order. -/
theorem linkLines_visits (hslot : ∀ id, Visits heap depth [id] (slot id)) (lines : List OpLine) :
    ∀ part : List OpLine, Visits heap depth (lineSlots part) (linkLines slot lines part)
  | [] => by
    unfold linkLines
    exact .pure _
  | ⟨_, op⟩ :: rest => by
    unfold linkLines
    refine ((Op.link_visits hslot lines op).bind fun _ =>
      (linkLines_visits hslot lines rest).bind fun _ => .pure _).congr ?_
    simp

end

/-- A whole list of op-lines meets the slots that its op-lines name. -/
theorem linkSequence_visits (hslot : ∀ id, Visits heap depth [id] (slot id))
    (lines : List OpLine) : Visits heap depth (lineSlots lines) (linkSequence slot lines) := by
  unfold linkSequence
  exact (checkDistinct_visits lines).bind fun _ => linkLines_visits hslot lines lines

mutual

/-- Linking a value meets the slots that it names in their order. -/
theorem Value.link_visits (hslot : ∀ id, Visits heap depth [id] (slot id)) :
    ∀ value : Value, Visits heap depth value.slots (value.link slot)
  | .null | .bool _ | .long _ | .double _ | .string _ => by
    unfold Value.link
    exact .pure _
  | .array items => by
    unfold Value.link
    refine ((linkValues_visits hslot items).bind fun _ => .pure _).congr ?_
    simp [Value.slots]
  | .slot id => by
    unfold Value.link
    exact (hslot id).bind fun _ => .pure _
  | .param record => by
    unfold Value.link
    refine ((hslot record.default).bind fun _ =>
      (linkSequence_visits hslot record.ops).bind fun _ => .pure _).congr ?_
    simp [Value.slots]

/-- Linking values meets the slots that they name in their order. -/
theorem linkValues_visits (hslot : ∀ id, Visits heap depth [id] (slot id)) :
    ∀ values : List Value, Visits heap depth (valueSlots values) (linkValues slot values)
  | [] => by
    unfold linkValues
    exact .pure _
  | value :: rest => by
    unfold linkValues
    refine ((Value.link_visits hslot value).bind fun _ =>
      (linkValues_visits hslot rest).bind fun _ => .pure _).congr ?_
    simp [valueSlots]

end

/-- Linking a slot is a visit, whose depth beyond the slot is that of linking its content. -/
theorem linkSlot_visits (heap : Heap) : ∀ (depth : Nat) (id : SlotId),
    Visits heap depth [id] (linkSlot heap depth id)
  | depth, id => by
    intro table a table' hrun
    rw [List.foldl_cons, List.foldl_nil]
    rcases hfind : table.find? id with _ | place
    · -- A slot that is met first is registered before its content is linked.
      have hnew : id ∉ table.keys := SlotTable.not_mem_of_find? hfind
      cases depth with
      | zero =>
        unfold linkSlot at hrun
        rw [linkSlotBy_of_find?_eq_none hfind] at hrun
        injection hrun with hrun
        injection hrun with _ htable
        rw [← htable, SlotTable.keys_fill, SlotTable.keys_register, Heap.visit, if_neg hnew]
      | succ depth =>
        unfold linkSlot at hrun
        rw [linkSlotBy_of_find?_eq_none hfind] at hrun
        rcases hvalue : ((heap.get id).value.link (linkSlot heap depth)).run
          (table.register id (heap.get id).type) with e | ⟨value, between⟩
        · rw [hvalue] at hrun
          cases hrun
        rw [hvalue] at hrun
        injection hrun with hrun
        injection hrun with _ htable
        have hcontent := Value.link_visits (linkSlot_visits heap depth) _ _ _ _ hvalue
        rw [← htable, SlotTable.keys_fill, hcontent, SlotTable.keys_register, Heap.visit,
          if_neg hnew, Heap.slotsOf]
    · -- A slot that was met before has its place, and the table stays as it is.
      have hmet : id ∈ table.keys := List.mem_of_getElem? (SlotTable.getElem?_of_find? hfind)
      have hvisit : heap.visit depth table.keys id = table.keys := by
        cases depth <;> rw [Heap.visit, if_pos hmet]
      rw [hvisit]
      cases depth <;>
      · unfold linkSlot at hrun
        rw [linkSlotBy_of_find? hfind] at hrun
        injection hrun with hrun
        injection hrun with _ htable
        rw [htable]

/-- The table that linking a program leaves has the slots in the order of the walk. -/
theorem keys_of_linkSequence {lines : List OpLine} {ops : List LinkedOp} {table : SlotTable}
    (h : (linkSequence (linkSlot heap (heap.size + 1)) lines).run {} = .ok (ops, table)) :
    table.keys = heap.order lines :=
  linkSequence_visits (linkSlot_visits heap (heap.size + 1)) lines {} ops table h

/-! ## Depth -/

namespace Heap

/-- The number of slots of the heap that have not been met. -/
def unmet (heap : Heap) (met : List SlotId) : Nat :=
  ((Finset.range heap.size).filter fun i => (⟨i⟩ : SlotId) ∉ met).card

/-- No more slots are unmet than there are. -/
theorem unmet_le_size (heap : Heap) (met : List SlotId) : heap.unmet met ≤ heap.size := by
  unfold unmet
  calc _ ≤ (Finset.range heap.size).card := Finset.card_filter_le _ _
    _ = heap.size := Finset.card_range _

/-- The more slots have been met, the fewer are unmet. -/
theorem unmet_le_of_subset {met met' : List SlotId} (h : met ⊆ met') :
    heap.unmet met' ≤ heap.unmet met := by
  refine Finset.card_le_card fun i hi => ?_
  rw [Finset.mem_filter] at hi ⊢
  exact ⟨hi.1, fun hmem => hi.2 (h hmem)⟩

/-- Meeting a slot of the heap leaves one less to meet. -/
theorem unmet_append_lt {met : List SlotId} {slot : SlotId} (hnew : slot ∉ met)
    (hslot : slot.index < heap.size) : heap.unmet (met ++ [slot]) < heap.unmet met := by
  refine Finset.card_lt_card (Finset.ssubset_iff_of_subset ?_ |>.mpr ⟨slot.index, ?_, ?_⟩)
  · intro i hi
    rw [Finset.mem_filter] at hi ⊢
    exact ⟨hi.1, fun hmem => hi.2 (List.mem_append_left _ hmem)⟩
  · rw [Finset.mem_filter, Finset.mem_range]
    exact ⟨hslot, hnew⟩
  · simp

/-- A visit only adds slots behind those met before. -/
theorem subset_visit (heap : Heap) : ∀ (depth : Nat) (met : List SlotId) (slot : SlotId),
    met ⊆ heap.visit depth met slot
  | 0, met, slot => by
    unfold visit
    split
    · exact List.Subset.refl met
    · exact List.subset_append_left met [slot]
  | depth + 1, met, slot => by
    unfold visit
    split
    · exact List.Subset.refl met
    · refine List.Subset.trans (List.subset_append_left met [slot]) ?_
      generalize met ++ [slot] = met'
      induction heap.slotsOf slot generalizing met' with
      | nil => exact List.Subset.refl met'
      | cons next rest ih =>
        exact List.Subset.trans (subset_visit heap depth met' next) (ih _)

/-- Where one more level changes no visit that starts from as much as has been met, it changes no
sequence of visits. -/
theorem foldl_visit_succ {met : List SlotId}
    (h : ∀ met' slot, met ⊆ met' → heap.visit (depth + 1) met' slot = heap.visit depth met' slot)
    (roots : List SlotId) :
    roots.foldl (heap.visit (depth + 1)) met = roots.foldl (heap.visit depth) met := by
  induction roots generalizing met with
  | nil => rfl
  | cons slot rest ih =>
    rw [List.foldl_cons, List.foldl_cons, h met slot (List.Subset.refl met)]
    refine ih fun met' other hsub => h met' other ?_
    exact List.Subset.trans (subset_visit heap depth met slot) hsub

/-- With more depth than slots left to meet, one more level changes nothing. -/
theorem visit_succ {met : List SlotId} (h : heap.unmet met < depth) (slot : SlotId) :
    heap.visit (depth + 1) met slot = heap.visit depth met slot := by
  induction depth generalizing met slot with
  | zero => omega
  | succ depth ih =>
    rw [visit, visit]
    split
    · rfl
    · next hnew =>
      by_cases hslot : slot.index < heap.size
      · -- The slot has been met now, so there is one less to meet at one level less.
        have hless := unmet_append_lt hnew hslot
        refine foldl_visit_succ (fun met' other hsub => ih ?_ other) _
        have hle : heap.unmet met' ≤ heap.unmet (met ++ [slot]) := unmet_le_of_subset hsub
        omega
      · -- A slot that is not there has no content to follow.
        rw [slotsOf, get_of_size_le (Nat.le_of_not_lt hslot)]
        rfl

/-- The order of a program takes any depth beyond the size of the heap. -/
theorem order_eq (lines : List OpLine) (h : heap.size < depth) :
    heap.order lines = (lineSlots lines).foldl (heap.visit depth) [] := by
  induction depth, h using Nat.le_induction with
  | base => rfl
  | succ depth hle ih =>
    rw [ih]
    refine (foldl_visit_succ (fun met' slot _ => visit_succ ?_ slot) _).symm
    have hunmet := heap.unmet_le_size met'
    omega

end Heap

end Lowering
