import Mathlib.Logic.Equiv.Defs
import Lowering.Proofs.Link.Renaming

/-!
# Linking a renamed program

A program and the same program under new names are linked in step. A table of the one is a table of
the other with its slots renamed (`SlotTable.renamed`), so slots are met, found and filled in at the
same places, and `Mirrors` says of two steps that they end alike from such tables: with the same
result, which holds no names, and again such tables, or with the same error about the new name of
its handle. It is closed under sequencing, so op-lines and values inherit it from their slots.

The two heaps may differ in size, and with them the depths down to which linking follows slots. For
slots the induction therefore goes down both depths at once, from tables that leave room in both
heaps. `link_renamed` is the result for whole programs.
-/

namespace Lowering

/-- An error under the new name of its handle. -/
def LinkError.renamed (names : Renaming) : LinkError → LinkError
  | .unresolvedTarget target => .unresolvedTarget (names.handle target)
  | .duplicateId id => .duplicateId (names.handle id)

/-- The second heap holds the cells of the first under new names. -/
def Heap.Renamed (names : Renaming) (heap heap' : Heap) : Prop :=
  ∀ slot, heap'.get (names.slot slot) = (heap.get slot).renamed names

variable {names : Renaming}

/-- Every heap has one that holds its cells under given new names. -/
theorem Heap.exists_renamed (hslot : Function.Bijective names.slot) (heap : Heap) :
    ∃ heap', heap.Renamed names heap' := by
  -- The new heap reaches as far as the new names of the slots that are there.
  let newIndex (i : Nat) : Nat := (names.slot ⟨i⟩).index
  let bound := (Finset.range heap.size).sup newIndex
  let old := Equiv.ofBijective names.slot hslot
  let cell (i : Fin (bound + 1)) : Cell := (heap.get (old.symm ⟨i⟩)).renamed names
  refine ⟨⟨Array.ofFn cell⟩, fun slot => ?_⟩
  by_cases hlt : (names.slot slot).index < bound + 1
  · have hback : old.symm (names.slot slot) = slot := old.symm_apply_apply slot
    simp [Heap.get, Array.getD, cell, hlt, hback]
  · -- A slot whose new name lies beyond was not there.
    have hle : heap.size ≤ slot.index := by
      by_contra hthere
      have hmem : slot.index ∈ Finset.range heap.size :=
        Finset.mem_range.mpr (Nat.lt_of_not_le hthere)
      have hbound : newIndex slot.index ≤ bound := Finset.le_sup hmem
      exact hlt (Nat.lt_succ_of_le hbound)
    rw [Heap.get_of_size_le hle, Heap.get_of_size_le (by simpa [Heap.size] using hlt)]
    rfl

/-! ## Renamed tables -/

namespace SlotTable

/-- A table under new names. -/
def renamed (names : Renaming) (table : SlotTable) : SlotTable :=
  ⟨table.entries.map fun (slot, entry) => (names.slot slot, entry)⟩

variable (table : SlotTable)

/-- The empty table has no names. -/
@[simp] theorem renamed_empty : ({} : SlotTable).renamed names = {} := by
  simp [renamed]

/-- New names leave a table as long as it is. -/
@[simp] theorem size_renamed : (table.renamed names).size = table.size := by
  simp [renamed, size]

/-- New names do not touch the entries of a table. -/
@[simp] theorem slots_renamed : (table.renamed names).slots = table.slots := by
  simp [renamed, slots]

/-- A slot is registered under its new name. -/
@[simp] theorem register_renamed (slot : SlotId) (type : TypeTag) :
    (table.renamed names).register (names.slot slot) type =
      (table.register slot type).renamed names := by
  simp [renamed, register]

/-- Entries are filled alike under old and new names. -/
@[simp] theorem fill_renamed (place : SlotRef) (value : ValueImage) :
    (table.renamed names).fill place value = (table.fill place value).renamed names := by
  unfold renamed fill
  rw [mk.injEq]
  refine Array.ext (by simp) fun i _ _ => ?_
  by_cases h : place.number.toNat = i <;> simp [Array.getElem_modify, h]

/-- The new name of a slot is found where the slot is. -/
theorem find?_renamed (hslot : Function.Injective names.slot) (slot : SlotId) :
    (table.renamed names).find? (names.slot slot) = table.find? slot := by
  have hsame (other : SlotId) : (names.slot other == names.slot slot) = (other == slot) := by
    rw [Bool.eq_iff_iff, beq_iff_eq, beq_iff_eq]
    exact hslot.eq_iff
  simp [renamed, find?, Array.findIdx?_map, Function.comp_def, hsame]

end SlotTable

/-! ## Steps -/

variable {heap heap' : Heap} {depth depth' : Nat} {α β : Type}

/-- How the step of a renamed program ends when that of the program ends in a given way. -/
def mirrored (names : Renaming) :
    Except LinkError (α × SlotTable) → Except LinkError (α × SlotTable)
  | .ok (a, table) => .ok (a, table.renamed names)
  | .error e => .error (e.renamed names)

/-- Two steps end alike from a table and its renamed form, given that both leave room, and then the
tables at the end leave room as well. -/
def Mirrors (names : Renaming) (heap heap' : Heap) (depth depth' : Nat) (step step' : LinkM α) :
    Prop :=
  ∀ table, table.Ready heap depth → (table.renamed names).Ready heap' depth' →
    step'.run (table.renamed names) = mirrored names (step.run table) ∧
      ∀ a after, step.run table = .ok (a, after) →
        after.Ready heap depth ∧ (after.renamed names).Ready heap' depth'

namespace Mirrors

/-- A step that only returns something is mirrored by itself. -/
theorem pure (a : α) :
    Mirrors names heap heap' depth depth' (Pure.pure a) (Pure.pure a) := by
  intro table hready hready'
  refine ⟨rfl, ?_⟩
  rintro _ _ ⟨⟩
  exact ⟨hready, hready'⟩

/-- A step that throws is mirrored by throwing the renamed error. -/
theorem throw (e : LinkError) :
    Mirrors names heap heap' depth depth' (MonadExcept.throw e : LinkM α)
      (MonadExcept.throw (e.renamed names)) := by
  intro table _ _
  exact ⟨rfl, nofun⟩

/-- One step and then another are mirrored if each of them is. -/
theorem bind {step step' : LinkM α} {next next' : α → LinkM β}
    (h : Mirrors names heap heap' depth depth' step step')
    (h' : ∀ a, Mirrors names heap heap' depth depth' (next a) (next' a)) :
    Mirrors names heap heap' depth depth' (step >>= next) (step' >>= next') := by
  intro table hready hready'
  obtain ⟨hrun, hafter⟩ := h table hready hready'
  rw [StateT.run_bind, StateT.run_bind, hrun]
  rcases hstep : step.run table with e | ⟨a, between⟩
  · exact ⟨rfl, nofun⟩
  · obtain ⟨hbetween, hbetween'⟩ := hafter a between hstep
    exact h' a between hbetween hbetween'

/-- Where two steps meet the contract of the linker, they leave room. -/
theorem of_run {step step' : LinkM α} {roots roots' : List SlotId}
    {fault fault' : LinkError → Prop} {placed placed' : (SlotId → SlotRef) → α}
    (h : Links heap depth roots fault placed step)
    (h' : Links heap' depth' roots' fault' placed' step')
    (hrun : ∀ table, table.Ready heap depth → (table.renamed names).Ready heap' depth' →
      step'.run (table.renamed names) = mirrored names (step.run table)) :
    Mirrors names heap heap' depth depth' step step' := by
  intro table hready hready'
  have hsame := hrun table hready hready'
  refine ⟨hsame, fun a after hafter => ?_⟩
  have hlinked := h table hready
  have hlinked' := h' (table.renamed names) hready'
  rw [hsame, hafter] at hlinked'
  rw [hafter] at hlinked
  exact ⟨hready.grown hlinked.1 hlinked.2.1, hready'.grown hlinked'.1 hlinked'.2.1⟩

end Mirrors

/-! ## Handles -/

/-- The first handle that occurs twice has its new name in the renamed op-lines. -/
theorem firstDuplicate?_renamedLines (hhandle : Function.Injective names.handle)
    (lines : List OpLine) (seen : List OpId) :
    firstDuplicate? (seen.map names.handle) (renamedLines names lines) =
      (firstDuplicate? seen lines).map names.handle := by
  induction lines generalizing seen with
  | nil => rfl
  | cons line rest ih =>
    obtain ⟨id, op⟩ := line
    have hseen : names.handle id ∈ seen.map names.handle ↔ id ∈ seen :=
      List.mem_map_of_injective hhandle
    have hrest := ih (id :: seen)
    rw [List.map_cons] at hrest
    simp only [renamedLines, firstDuplicate?, List.contains_iff_mem, hseen, hrest]
    split <;> rfl

/-- Checking for duplicates is mirrored by checking the renamed op-lines. -/
theorem checkDistinct_mirrors (hhandle : Function.Injective names.handle) (lines : List OpLine) :
    Mirrors names heap heap' depth depth' (checkDistinct lines)
      (checkDistinct (renamedLines names lines)) := by
  have hfirst := firstDuplicate?_renamedLines hhandle lines []
  rw [List.map_nil] at hfirst
  unfold checkDistinct
  rw [hfirst]
  cases firstDuplicate? [] lines with
  | none => exact .pure ()
  | some id => exact .throw (.duplicateId id)

/-- Resolving a jump is mirrored by resolving the renamed one. -/
theorem resolve_mirrors (hhandle : Function.Injective names.handle) (lines : List OpLine)
    (target : OpId) :
    Mirrors names heap heap' depth depth' (resolve lines target)
      (resolve (renamedLines names lines) (names.handle target)) := by
  have hsame (id : OpId) : (names.handle id == names.handle target) = (id == target) := by
    rw [Bool.eq_iff_iff, beq_iff_eq, beq_iff_eq]
    exact hhandle.eq_iff
  unfold resolve
  rw [renamedLines_eq_map, List.findIdx?_map]
  simp only [Function.comp_def, OpLine.renamed, hsame]
  cases lines.findIdx? fun line => line.id == target with
  | none => exact .throw (.unresolvedTarget target)
  | some position => exact .pure _

/-! ## Op-lines and values -/

/-- Linking slots is mirrored by linking their new names. -/
def MirrorsSlots (names : Renaming) (heap heap' : Heap) (depth depth' : Nat)
    (slot slot' : SlotId → LinkM SlotRef) : Prop :=
  ∀ id, Mirrors names heap heap' depth depth' (slot id) (slot' (names.slot id))

variable {slot slot' : SlotId → LinkM SlotRef}

mutual

/-- Linking an operation is mirrored by linking the renamed one. -/
theorem Op.link_mirrors (hhandle : Function.Injective names.handle)
    (hslot : MirrorsSlots names heap heap' depth depth' slot slot') (lines : List OpLine) :
    ∀ op : Op, Mirrors names heap heap' depth depth' (op.link slot lines)
      ((op.renamed names).link slot' (renamedLines names lines))
  | .unary kind op1 result => by
    unfold Op.renamed Op.link
    exact (hslot op1).bind fun _ => (hslot result).bind fun _ => .pure _
  | .binary kind op1 op2 result => by
    unfold Op.renamed Op.link
    exact (hslot op1).bind fun _ => (hslot op2).bind fun _ => (hslot result).bind fun _ => .pure _
  | .functionDef name body params => by
    unfold Op.renamed Op.link
    exact (hslot name).bind fun _ => (checkDistinct_mirrors hhandle body).bind fun _ =>
      (linkLines_mirrors hhandle hslot body body).bind fun _ =>
        (hslot params).bind fun _ => .pure _
  | .jumpTo target => by
    unfold Op.renamed Op.link
    exact (resolve_mirrors hhandle lines target).bind fun _ => .pure _
  | .jumpIf cond target => by
    unfold Op.renamed Op.link
    exact (hslot cond).bind fun _ => (resolve_mirrors hhandle lines target).bind fun _ => .pure _
  | .jumpIfNot cond target => by
    unfold Op.renamed Op.link
    exact (hslot cond).bind fun _ => (resolve_mirrors hhandle lines target).bind fun _ => .pure _
  | .noOp => by
    unfold Op.renamed Op.link
    exact .pure _

/-- Linking op-lines is mirrored by linking the renamed ones. -/
theorem linkLines_mirrors (hhandle : Function.Injective names.handle)
    (hslot : MirrorsSlots names heap heap' depth depth' slot slot') (lines : List OpLine) :
    ∀ part : List OpLine, Mirrors names heap heap' depth depth' (linkLines slot lines part)
      (linkLines slot' (renamedLines names lines) (renamedLines names part))
  | [] => by
    rw [renamedLines, linkLines, linkLines]
    exact .pure _
  | ⟨id, op⟩ :: rest => by
    rw [renamedLines, linkLines, linkLines]
    exact (Op.link_mirrors hhandle hslot lines op).bind fun _ =>
      (linkLines_mirrors hhandle hslot lines rest).bind fun _ => .pure _

end

/-- Linking a whole list of op-lines is mirrored by linking the renamed one. -/
theorem linkSequence_mirrors (hhandle : Function.Injective names.handle)
    (hslot : MirrorsSlots names heap heap' depth depth' slot slot') (lines : List OpLine) :
    Mirrors names heap heap' depth depth' (linkSequence slot lines)
      (linkSequence slot' (renamedLines names lines)) := by
  unfold linkSequence
  exact (checkDistinct_mirrors hhandle lines).bind fun _ =>
    linkLines_mirrors hhandle hslot lines lines

mutual

/-- Linking a value is mirrored by linking the renamed one. -/
theorem Value.link_mirrors (hhandle : Function.Injective names.handle)
    (hslot : MirrorsSlots names heap heap' depth depth' slot slot') : ∀ value : Value,
    Mirrors names heap heap' depth depth' (value.link slot) ((value.renamed names).link slot')
  | .null | .bool _ | .long _ | .double _ | .string _ => by
    unfold Value.renamed Value.link
    exact .pure _
  | .array items => by
    unfold Value.renamed Value.link
    exact (linkValues_mirrors hhandle hslot items).bind fun _ => .pure _
  | .slot id => by
    unfold Value.renamed Value.link
    exact (hslot id).bind fun _ => .pure _
  | .param record => by
    unfold Value.renamed ParamRecord.renamed Value.link
    exact (hslot record.default).bind fun _ =>
      (linkSequence_mirrors hhandle hslot record.ops).bind fun _ => .pure _

/-- Linking values is mirrored by linking the renamed ones. -/
theorem linkValues_mirrors (hhandle : Function.Injective names.handle)
    (hslot : MirrorsSlots names heap heap' depth depth' slot slot') : ∀ values : List Value,
    Mirrors names heap heap' depth depth' (linkValues slot values)
      (linkValues slot' (renamedValues names values))
  | [] => by
    unfold renamedValues linkValues
    exact .pure _
  | value :: rest => by
    unfold renamedValues linkValues
    exact (Value.link_mirrors hhandle hslot value).bind fun _ =>
      (linkValues_mirrors hhandle hslot rest).bind fun _ => .pure _

end

/-! ## Slots -/

/-- Without room there is no table to begin with. -/
theorem SlotTable.Ready.depth_ne_zero {table : SlotTable} (h : table.Ready heap depth) :
    depth ≠ 0 := by
  have hmet : table.met heap ≤ heap.size := h.distinct.met_le
  have hroom := h.room
  omega

/-- Linking a slot is mirrored where linking its content is, from the tables that have it. -/
theorem linkSlotBy_mirrored (hslot : Function.Injective names.slot)
    (hcells : heap.Renamed names heap') {content content' : Value → LinkM ValueImage} {id : SlotId}
    {table : SlotTable}
    (hcontent : id ∉ table.keys → names.slot id ∉ (table.renamed names).keys →
      (content' ((heap.get id).value.renamed names)).run
          ((table.register id (heap.get id).type).renamed names) =
        mirrored names ((content (heap.get id).value).run
          (table.register id (heap.get id).type))) :
    (linkSlotBy heap' content' (names.slot id)).run (table.renamed names) =
      mirrored names ((linkSlotBy heap content id).run table) := by
  rcases hfind : table.find? id with _ | place
  -- The tables are renamed alike, so a slot is found in both or in neither.
  · have hfind' : (table.renamed names).find? (names.slot id) = none := by
      rw [table.find?_renamed hslot, hfind]
    have hrun := hcontent (SlotTable.not_mem_of_find? hfind) (SlotTable.not_mem_of_find? hfind')
    rw [linkSlotBy_of_find?_eq_none hfind, linkSlotBy_of_find?_eq_none hfind', hcells id]
    simp only [Cell.renamed, SlotTable.register_renamed, SlotTable.size_renamed, hrun]
    rcases (content (heap.get id).value).run (table.register id (heap.get id).type) with
      e | ⟨value, after⟩
    · rfl
    · simp only [mirrored, Except.map, SlotTable.fill_renamed]
  · have hfind' : (table.renamed names).find? (names.slot id) = some place := by
      rw [table.find?_renamed hslot, hfind]
    rw [linkSlotBy_of_find? hfind, linkSlotBy_of_find? hfind']
    rfl

/-- Nothing but null is renamed to null. -/
theorem Value.eq_null_of_renamed {value : Value} (h : value.renamed names = .null) :
    value = .null := by
  cases value <;> simp_all [Value.renamed]

/-- Linking slots down to a depth is mirrored by linking their new names over the renamed heap. -/
theorem linkSlot_mirrors (hslot : Function.Injective names.slot)
    (hhandle : Function.Injective names.handle) (hcells : heap.Renamed names heap')
    (depth depth' : Nat) :
    MirrorsSlots names heap heap' depth depth' (linkSlot heap depth) (linkSlot heap' depth') := by
  intro id
  -- The heaps may differ in size, so the depths go down side by side and neither runs out.
  induction depth generalizing depth' id with
  | zero => exact fun table hready => absurd rfl hready.depth_ne_zero
  | succ depth ih =>
    cases depth' with
    | zero => exact fun table _ hready' => absurd rfl hready'.depth_ne_zero
    | succ depth' =>
      refine .of_run (linkSlot_links heap (depth + 1) id)
        (linkSlot_links heap' (depth' + 1) (names.slot id)) fun table hready hready' => ?_
      unfold linkSlot
      refine linkSlotBy_mirrored hslot hcells fun hnew hnew' => ?_
      by_cases hthere : id.index < heap.size ∧ (names.slot id).index < heap'.size
      · have hready₁ := hready.register hnew hthere.1 (heap.get id).type
        have hready₁' := hready'.register hnew' hthere.2 (heap.get id).type
        rw [SlotTable.register_renamed] at hready₁'
        exact (Value.link_mirrors hhandle (ih depth') (heap.get id).value _ hready₁ hready₁').1
      · -- One of the two is not there, so neither of them holds anything.
        have hempty : (heap.get id).value = .null := by
          rcases not_and_or.mp hthere with hnot | hnot
          · rw [Heap.get_of_size_le (Nat.le_of_not_lt hnot)]
          · have hcell := hcells id
            rw [Heap.get_of_size_le (Nat.le_of_not_lt hnot)] at hcell
            exact Value.eq_null_of_renamed (congrArg Cell.value hcell).symm
        rw [hempty, Value.renamed, Value.link, Value.link]
        rfl

/-! ## Programs -/

/-- Over a heap of its cells under new names, a renamed program ends as the program does. -/
theorem link_of_renamed (hslot : Function.Injective names.slot)
    (hhandle : Function.Injective names.handle) (hcells : heap.Renamed names heap')
    (lines : List OpLine) :
    link heap' (renamedLines names lines) =
      (link heap lines).mapError (LinkError.renamed names) := by
  have hslots := linkSlot_mirrors hslot hhandle hcells (heap.size + 1) (heap'.size + 1)
  have hempty (heap : Heap) : SlotTable.Ready heap (heap.size + 1) {} :=
    ⟨List.nodup_nil, by simp [SlotTable.met]⟩
  have hmirrors := linkSequence_mirrors hhandle hslots lines {} (hempty heap)
  rw [SlotTable.renamed_empty] at hmirrors
  obtain ⟨hrun, -⟩ := hmirrors (hempty heap')
  unfold link
  rw [hrun]
  rcases (linkSequence (linkSlot heap (heap.size + 1)) lines).run {} with e | ⟨ops, table⟩
  · rfl
  · simp [mirrored, bind, Except.bind, pure, Except.pure, Except.mapError]

/-- Linking depends on the shape of a program only. Its slots may be exchanged for others and its
handles for others, in all op-lines, bodies, records and slots: there is a heap with the new names,
and over every such heap the renamed program has the image that the program has, or is refused for
the same reason, about the new name of the handle. -/
theorem link_renamed (names : Renaming) (hslot : Function.Bijective names.slot)
    (hhandle : Function.Injective names.handle) (heap : Heap) (lines : List OpLine) :
    (∃ heap', heap.Renamed names heap') ∧
      ∀ heap', heap.Renamed names heap' →
        link heap' (renamedLines names lines) =
          (link heap lines).mapError (LinkError.renamed names) :=
  ⟨heap.exists_renamed hslot, fun _ hcells => link_of_renamed hslot.injective hhandle hcells lines⟩

/-- Two slots exchanged and every handle moved on by five. -/
def exchanged : Renaming where
  slot := Equiv.swap ⟨0⟩ ⟨2⟩
  handle := fun id => ⟨id.number + 5⟩

/-- Under new names, a program over a slot that contains itself has its image, and one with a jump
to a handle that does not occur is refused for that handle. -/
theorem link_renamed_cyclic : ∃ heap, cyclicHeap.Renamed exchanged heap ∧
    link heap (renamedLines exchanged cyclicLines) = .ok cyclicImage ∧
    link heap (renamedLines exchanged (cyclicLines ++ [⟨⟨4⟩, .jumpTo ⟨8⟩⟩])) =
      .error (.unresolvedTarget ⟨13⟩) := by
  have hslot : Function.Bijective exchanged.slot := (Equiv.swap _ _).bijective
  have hhandle : Function.Injective exchanged.handle := by
    rintro ⟨a⟩ ⟨b⟩ h
    simpa [exchanged] using h
  obtain ⟨⟨heap, hheap⟩, hlink⟩ := link_renamed exchanged hslot hhandle cyclicHeap cyclicLines
  obtain ⟨-, hlink'⟩ := link_renamed exchanged hslot hhandle cyclicHeap
    (cyclicLines ++ [⟨⟨4⟩, .jumpTo ⟨8⟩⟩])
  have hok : link cyclicHeap cyclicLines = .ok cyclicImage := by with_unfolding_all rfl
  have herror : link cyclicHeap (cyclicLines ++ [⟨⟨4⟩, .jumpTo ⟨8⟩⟩]) =
      .error (.unresolvedTarget ⟨8⟩) := by with_unfolding_all rfl
  refine ⟨heap, hheap, ?_, ?_⟩
  · rw [hlink heap hheap, hok]
    rfl
  · rw [hlink' heap hheap, herror]
    rfl

end Lowering
