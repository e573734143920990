import Mathlib.Data.List.Perm.Subperm
import Mathlib.Tactic.SplitIfs
import Lowering.Proofs.Link.Table

/-!
# What each step of the linker does

`Links` is the contract that every step meets: from a table in which no slot occurs twice, it either
grows the table for the slots that its piece of program names and returns the linked form of the
piece, or refuses with an error for which the piece, or the content of a slot that can be found from
it, has a reason. On success there is no such reason.

The contract is closed under sequencing (`Links.bind`), so op-lines and values inherit it from their
slots. For slots it holds by induction on the depth: each level registers one more slot of the heap,
and there are only `heap.size` of them to register, so a depth of one more is never used up.
-/

namespace Lowering

/-! ## Room to descend -/

/-- The number of slots of a heap that a table has. -/
def SlotTable.met (heap : Heap) (table : SlotTable) : Nat :=
  table.keys.countP fun slot => decide (slot.index < heap.size)

/-- A table without repetitions has no more slots of a heap than there are. -/
theorem SlotTable.Distinct.met_le {heap : Heap} {table : SlotTable} (h : table.Distinct) :
    table.met heap ≤ heap.size := by
  unfold SlotTable.met
  rw [List.countP_eq_length_filter]
  -- The slots that are counted have different indices, all below the size of the heap.
  generalize hmet : table.keys.filter (fun slot => decide (slot.index < heap.size)) = met
  have hnodup : (met.map SlotId.index).Nodup := by
    refine List.Nodup.map ?_ (hmet ▸ h.filter _)
    rintro ⟨i⟩ ⟨j⟩ hij
    exact congrArg SlotId.mk hij
  have hsub : met.map SlotId.index ⊆ List.range heap.size := by
    intro i hi
    obtain ⟨slot, hslot, rfl⟩ := List.mem_map.mp hi
    rw [← hmet, List.mem_filter] at hslot
    simpa using hslot.2
  simpa using (hnodup.subperm hsub).length_le

/-- A table from which the linker can still descend to every slot that it has not met. -/
structure SlotTable.Ready (heap : Heap) (depth : Nat) (table : SlotTable) : Prop where
  distinct : table.Distinct
  room : heap.size < depth + table.met heap

variable {heap : Heap} {depth : Nat} {table table' : SlotTable} {α β : Type}

/-- Growth leaves room. -/
theorem SlotTable.Ready.grown {roots : List SlotId} (h : table.Ready heap depth)
    (hgrown : SlotTable.Grown heap roots table table') (hdistinct : table'.Distinct) :
    table'.Ready heap depth := by
  refine ⟨hdistinct, ?_⟩
  obtain ⟨added, hadded⟩ := hgrown.keys_eq
  have hroom := h.room
  unfold SlotTable.met at hroom ⊢
  rw [hadded, List.countP_append]
  omega

/-- A table stays free of repetitions when a slot is registered that it does not have. -/
theorem SlotTable.Distinct.register {id : SlotId} (h : table.Distinct)
    (hnew : id ∉ table.keys) (type : TypeTag) : (table.register id type).Distinct := by
  unfold SlotTable.Distinct
  rw [SlotTable.keys_register]
  exact List.Nodup.append h (List.nodup_singleton id) (by simpa using hnew)

/-- Registering a slot that is there makes up for one level of depth. -/
theorem SlotTable.Ready.register {slot : SlotId} (h : table.Ready heap (depth + 1))
    (hnew : slot ∉ table.keys) (hslot : slot.index < heap.size) (type : TypeTag) :
    (table.register slot type).Ready heap depth := by
  refine ⟨?_, ?_⟩
  · exact h.distinct.register hnew type
  · have hroom := h.room
    unfold SlotTable.met at hroom ⊢
    rw [SlotTable.keys_register, List.countP_append, List.countP_singleton, if_pos (by simpa)]
    omega

/-! ## The contract -/

/-- A reason to refuse that lies in the content of a slot. -/
def ContentFault (heap : Heap) (roots : List SlotId) (e : LinkError) : Prop :=
  ∃ slot, Reach heap roots slot ∧ ∃ lines ∈ (heap.get slot).value.sequences, SequenceFault lines e

/-- A fault in what can be found from some roots is one in what can be found from more. -/
theorem ContentFault.mono {roots roots' : List SlotId} (hsub : roots ⊆ roots') {e : LinkError}
    (h : ContentFault heap roots e) : ContentFault heap roots' e := by
  obtain ⟨slot, hreach, hfault⟩ := h
  exact ⟨slot, hreach.mono hsub, hfault⟩

/-- How a step that links a piece of a program may end, given the slots that the piece names, the
reasons to refuse it, and its linked form. -/
def Linked (heap : Heap) (roots : List SlotId) (fault : LinkError → Prop)
    (placed : (SlotId → SlotRef) → α) (table : SlotTable) : Except LinkError (α × SlotTable) → Prop
  | .ok (a, table') =>
    SlotTable.Grown heap roots table table' ∧ table'.Distinct ∧ (∀ e, ¬ fault e) ∧
      ∀ place, table'.Places place → a = placed place
  | .error e => fault e ∨ ContentFault heap roots e

/-- The contract of a step that links a piece of a program. -/
def Links (heap : Heap) (depth : Nat) (roots : List SlotId) (fault : LinkError → Prop)
    (placed : (SlotId → SlotRef) → α) (step : LinkM α) : Prop :=
  ∀ table, table.Ready heap depth → Linked heap roots fault placed table (step.run table)

namespace Links

variable {roots roots' : List SlotId} {fault fault' : LinkError → Prop}
  {placed : (SlotId → SlotRef) → α}

/-- The same contract with other reasons to refuse: every reason stays one, and where there was none
there is none. -/
theorem weaken {step : LinkM α} (h : Links heap depth roots fault placed step)
    (hfault : ∀ e, fault e → fault' e) (hsound : (∀ e, ¬ fault e) → ∀ e, ¬ fault' e) :
    Links heap depth roots fault' placed step := by
  intro table hready
  have hstep := h table hready
  rcases hrun : step.run table with e | ⟨a, table'⟩
  · rw [hrun] at hstep
    exact hstep.imp_left (hfault e)
  · rw [hrun] at hstep
    obtain ⟨hgrown, hdistinct, hnone, hplaced⟩ := hstep
    exact ⟨hgrown, hdistinct, hsound hnone, hplaced⟩

/-- The same contract in other words. -/
theorem congr {step : LinkM α} (h : Links heap depth roots fault placed step)
    (hroots : roots = roots') (hfault : ∀ e, fault e ↔ fault' e)
    {placed' : (SlotId → SlotRef) → α} (hplaced : ∀ place, placed place = placed' place) :
    Links heap depth roots' fault' placed' step := by
  obtain rfl : fault = fault' := funext fun e => propext (hfault e)
  obtain rfl : placed = placed' := funext hplaced
  exact hroots ▸ h

/-- A step that has no reason to refuse and names no slot. -/
theorem pure_of_sound (a : α) (hfault : ∀ e, ¬ fault e) :
    Links heap depth [] fault (fun _ => a) (Pure.pure a : LinkM α) := by
  intro table hready
  exact ⟨.refl (List.nil_subset _), hready.distinct, hfault, fun _ _ => rfl⟩

/-- A step that does nothing. -/
theorem pure (a : α) :
    Links heap depth [] (fun _ => False) (fun _ => a) (Pure.pure a : LinkM α) :=
  pure_of_sound a fun _ => id

/-- A step that refuses. -/
theorem throw {e : LinkError} (hfault : fault e) :
    Links heap depth [] fault placed (MonadExcept.throw e : LinkM α) := by
  intro table _
  exact Or.inl hfault

/-- One step after another: the reasons of the second count where the first has none. -/
theorem bind_of_sound {step : LinkM α} {next : α → LinkM β}
    {placed' : α → (SlotId → SlotRef) → β} (h : Links heap depth roots fault placed step)
    (h' : ∀ a, Links heap depth roots' fault' (placed' a) (next a)) :
    Links heap depth (roots ++ roots') (fun e => fault e ∨ (∀ e', ¬ fault e') ∧ fault' e)
      (fun place => placed' (placed place) place) (step >>= next) := by
  intro table hready
  have hfirst := h table hready
  rw [StateT.run_bind]
  rcases hstep : step.run table with e | ⟨a, table'⟩
  · rw [hstep] at hfirst
    rcases hfirst with hfault | hcontent
    · exact Or.inl (Or.inl hfault)
    · exact Or.inr (hcontent.mono (List.subset_append_left _ _))
  · rw [hstep] at hfirst
    obtain ⟨hgrown, hdistinct, hsound, hplaced⟩ := hfirst
    -- The second step begins with the table that the first left, which has as much room.
    have hsecond := h' a table' (hready.grown hgrown hdistinct)
    change Linked heap _ _ _ table ((next a).run table')
    rcases hnext : (next a).run table' with e | ⟨b, table''⟩
    · rw [hnext] at hsecond
      rcases hsecond with hfault | hcontent
      · exact Or.inl (Or.inr ⟨hsound, hfault⟩)
      · exact Or.inr (hcontent.mono (List.subset_append_right _ _))
    · rw [hnext] at hsecond
      obtain ⟨hgrown', hdistinct', hsound', hplaced'⟩ := hsecond
      refine ⟨hgrown.trans hgrown', hdistinct', ?_, ?_⟩
      · rintro e (hfault | ⟨-, hfault⟩)
        · exact hsound e hfault
        · exact hsound' e hfault
      · -- The places in the last table are also those in the one before.
        intro place hplace
        rw [hplaced' place hplace, hplaced place (hgrown'.places hplace)]

/-- One step after another. -/
theorem bind {step : LinkM α} {next : α → LinkM β} {placed' : α → (SlotId → SlotRef) → β}
    (h : Links heap depth roots fault placed step)
    (h' : ∀ a, Links heap depth roots' fault' (placed' a) (next a)) :
    Links heap depth (roots ++ roots') (fun e => fault e ∨ fault' e)
      (fun place => placed' (placed place) place) (step >>= next) := by
  refine (bind_of_sound h h').weaken ?_ ?_
  · rintro e (hfault | ⟨-, hfault⟩)
    · exact Or.inl hfault
    · exact Or.inr hfault
  · rintro hnone e (hfault | hfault)
    · exact hnone e (Or.inl hfault)
    · exact hnone e (Or.inr ⟨fun e' hfault' => hnone e' (Or.inl hfault'), hfault⟩)

end Links

/-! ## Handles and jumps -/

/-- The first repeated handle is one that occurs among those seen before or twice. -/
theorem firstDuplicate?_eq_some {seen : List OpId} {lines : List OpLine} {id : OpId}
    (h : firstDuplicate? seen lines = some id) :
    id ∈ handles lines ∧ (id ∈ seen ∨ 2 ≤ (handles lines).count id) := by
  induction lines generalizing seen with
  | nil => simp [firstDuplicate?] at h
  | cons line rest ih =>
    obtain ⟨first, op⟩ := line
    simp only [firstDuplicate?] at h
    simp only [handles, List.map_cons, List.mem_cons, List.count_cons] at ih ⊢
    split_ifs at h with hseen
    · obtain rfl : first = id := by simpa using h
      exact ⟨Or.inl rfl, Or.inl (by simpa using hseen)⟩
    · obtain ⟨hmem, hor⟩ := ih h
      refine ⟨Or.inr hmem, ?_⟩
      rcases hor with hor | hor
      · rcases List.mem_cons.mp hor with rfl | hor
        · -- The handle is that of this op-line and occurs again behind it.
          have hpos := List.count_pos_iff.mpr hmem
          refine Or.inr ?_
          rw [if_pos (by simp)]
          omega
        · exact Or.inl hor
      · exact Or.inr (by omega)

/-- Where no handle is repeated, all are different, also from those seen before. -/
theorem firstDuplicate?_eq_none {seen : List OpId} {lines : List OpLine}
    (h : firstDuplicate? seen lines = none) :
    (handles lines).Nodup ∧ ∀ id ∈ handles lines, id ∉ seen := by
  induction lines generalizing seen with
  | nil => simp [handles]
  | cons line rest ih =>
    obtain ⟨first, op⟩ := line
    simp only [firstDuplicate?] at h
    split_ifs at h with hseen
    obtain ⟨hnodup, hdisjoint⟩ := ih h
    have hfirst : first ∉ seen := by simpa using hseen
    simp only [handles, List.map_cons, List.nodup_cons, List.mem_cons] at *
    refine ⟨⟨fun hmem => hdisjoint first hmem (Or.inl rfl), hnodup⟩, ?_⟩
    rintro id (rfl | hmem)
    · exact hfirst
    · exact fun hin => hdisjoint id hmem (Or.inr hin)

/-- The check of the handles refuses exactly a list with a repeated handle. -/
theorem checkDistinct_links (lines : List OpLine) :
    Links heap depth [] (fun e => ∃ id, e = .duplicateId id ∧ 2 ≤ (handles lines).count id)
      (fun _ => ()) (checkDistinct lines) := by
  unfold checkDistinct
  rcases hfirst : firstDuplicate? [] lines with _ | id
  · have hnodup := (firstDuplicate?_eq_none hfirst).1
    refine Links.pure_of_sound () ?_
    rintro e ⟨id, -, hcount⟩
    have hone := List.nodup_iff_count.mp hnodup id
    omega
  · obtain ⟨-, hseen | hcount⟩ := firstDuplicate?_eq_some hfirst
    · simp at hseen
    · exact Links.throw ⟨id, rfl, hcount⟩

/-- A jump is refused exactly when its handle does not occur, and else goes to its position. -/
theorem resolve_links (lines : List OpLine) (target : OpId) :
    Links heap depth [] (fun e => e = .unresolvedTarget target ∧ target ∉ handles lines)
      (fun _ => UInt32.ofNat (positionOf lines target)) (resolve lines target) := by
  unfold resolve
  split
  next position hfind =>
    -- The first op-line with the handle is there, so the handle is one of the list.
    obtain ⟨hlt, hposition⟩ := List.findIdx?_eq_some_iff_findIdx_eq.mp hfind
    obtain rfl : positionOf lines target = position := hposition
    refine Links.pure_of_sound _ ?_
    rintro e ⟨-, hmissing⟩
    apply hmissing
    have hid := List.findIdx_getElem (w := hlt)
    exact List.mem_map.mpr ⟨_, List.getElem_mem _, by simpa using hid⟩
  next hfind =>
    refine Links.throw ⟨rfl, ?_⟩
    intro hmem
    obtain ⟨line, hline, hid⟩ := List.mem_map.mp hmem
    simpa [hid] using List.findIdx?_eq_none_iff.mp hfind line hline

/-! ## Op-lines and values -/

/-- A reason to refuse an operation that stands in a given list. -/
def Op.Fault (lines : List OpLine) (op : Op) (e : LinkError) : Prop :=
  (∃ target, op.target? = some target ∧ e = .unresolvedTarget target ∧ target ∉ handles lines) ∨
    ∃ body ∈ op.bodies, SequenceFault body e

/-- A reason to refuse one of some op-lines that stand in a given list. -/
def LinesFault (lines part : List OpLine) (e : LinkError) : Prop :=
  ∃ line ∈ part, line.op.Fault lines e

/-- The faults of a list and of those inside it: a repeated handle, or else a fault of an op-line.
-/
theorem sequenceFault_iff (lines : List OpLine) :
    (∀ e, ((∃ id, e = .duplicateId id ∧ 2 ≤ (handles lines).count id) ∨
        (handles lines).Nodup ∧ LinesFault lines lines e) →
      ∃ body ∈ lines :: lineBodies lines, SequenceFault body e) ∧
    ∀ e, (∃ body ∈ lines :: lineBodies lines, SequenceFault body e) →
      (∃ id, e = .duplicateId id ∧ 2 ≤ (handles lines).count id) ∨ LinesFault lines lines e := by
  constructor
  · rintro e (⟨id, rfl, hcount⟩ | ⟨hnodup, line, hline, hfault⟩)
    · exact ⟨lines, List.mem_cons_self, .duplicate hcount⟩
    -- A fault in a line is a missing target of this list or a fault of its body.
    · rcases hfault with ⟨target, htarget, rfl, hmissing⟩ | ⟨body, hbody, hfault⟩
      · exact ⟨lines, List.mem_cons_self, .unresolved hnodup hline htarget hmissing⟩
      · exact ⟨body, List.mem_cons_of_mem _ (mem_lineBodies.mpr ⟨line, hline, hbody⟩), hfault⟩
  · rintro e ⟨body, hbody, hfault⟩
    rcases List.mem_cons.mp hbody with rfl | hbody
    · cases hfault with
      | duplicate hcount => exact Or.inl ⟨_, rfl, hcount⟩
      | unresolved _ hline htarget hmissing =>
        exact Or.inr ⟨_, hline, Or.inl ⟨_, htarget, rfl, hmissing⟩⟩
    · obtain ⟨line, hline, hbody⟩ := mem_lineBodies.mp hbody
      exact Or.inr ⟨line, hline, Or.inr ⟨body, hbody, hfault⟩⟩

/-- Op-lines behind the check of their handles make a sequence. -/
theorem sequence_links {lines : List OpLine} {roots : List SlotId} {next : LinkM α}
    {placed : (SlotId → SlotRef) → α}
    (h : Links heap depth roots (LinesFault lines lines) placed next) :
    Links heap depth roots (fun e => ∃ body ∈ lines :: lineBodies lines, SequenceFault body e)
      placed (do checkDistinct lines; next) := by
  obtain ⟨hto, hfrom⟩ := sequenceFault_iff lines
  refine (Links.bind_of_sound (checkDistinct_links lines) fun _ => h).weaken ?_ ?_
  · rintro e (hfault | ⟨hnone, hfault⟩)
    · exact hto e (Or.inl hfault)
    · -- The op-lines are looked at only where the check has passed.
      refine hto e (Or.inr ⟨List.nodup_iff_count.mpr fun id => ?_, hfault⟩)
      by_contra hcount
      exact hnone _ ⟨id, rfl, by omega⟩
  · intro hnone e hfault
    rcases hfrom e hfault with hfault | hfault
    · exact hnone e (Or.inl hfault)
    · exact hnone e (Or.inr ⟨fun e' hfault' => hnone e' (Or.inl hfault'), hfault⟩)

/-- Linking slots meets the contract: a slot gives no reason to refuse by itself. -/
def LinksSlots (heap : Heap) (depth : Nat) (slot : SlotId → LinkM SlotRef) : Prop :=
  ∀ id, Links heap depth [id] (fun _ => False) (fun place => place id) (slot id)

variable {slot : SlotId → LinkM SlotRef}

mutual

/-- Linking an operation meets the contract when linking slots does. -/
theorem Op.link_links (hslot : LinksSlots heap depth slot) (lines : List OpLine) :
    ∀ op : Op, Links heap depth op.slots (op.Fault lines) (fun place => op.placed place lines)
      (op.link slot lines)
  | .unary kind op1 result => by
    unfold Op.link
    refine ((hslot op1).bind fun _ => (hslot result).bind fun _ => .pure _).congr ?_ ?_ ?_ <;>
      simp [Op.slots, Op.Fault, Op.target?, Op.bodies, Op.placed]
  | .binary kind op1 op2 result => by
    unfold Op.link
    refine ((hslot op1).bind fun _ => (hslot op2).bind fun _ => (hslot result).bind fun _ =>
      .pure _).congr ?_ ?_ ?_ <;>
      simp [Op.slots, Op.Fault, Op.target?, Op.bodies, Op.placed]
  | .functionDef name body params => by
    unfold Op.link
    -- The check of the body stands between its name and everything else.
    have hbody : ∀ a, Links heap depth (lineSlots body ++ [params]) (LinesFault body body)
        (fun place => LinkedOp.functionDef a (placedLines place body body) (place params))
        (do
          let body ← linkLines slot body body
          let params ← slot params
          return .functionDef a body params) := by
      intro a
      refine ((linkLines_links hslot body body).bind fun _ => (hslot params).bind fun _ =>
        .pure _).congr ?_ ?_ ?_ <;> simp
    refine ((hslot name).bind fun a => sequence_links (hbody a)).congr ?_ ?_ ?_ <;>
      simp [Op.slots, Op.Fault, Op.target?, Op.bodies, Op.placed]
  | .jumpTo target => by
    unfold Op.link
    refine ((resolve_links lines target).bind fun _ => .pure _).congr ?_ ?_ ?_ <;>
      simp [Op.slots, Op.Fault, Op.target?, Op.bodies, Op.placed]
  | .jumpIf cond target => by
    unfold Op.link
    refine ((hslot cond).bind fun _ => (resolve_links lines target).bind fun _ =>
      .pure _).congr ?_ ?_ ?_ <;>
      simp [Op.slots, Op.Fault, Op.target?, Op.bodies, Op.placed]
  | .jumpIfNot cond target => by
    unfold Op.link
    refine ((hslot cond).bind fun _ => (resolve_links lines target).bind fun _ =>
      .pure _).congr ?_ ?_ ?_ <;>
      simp [Op.slots, Op.Fault, Op.target?, Op.bodies, Op.placed]
  | .noOp => by
    unfold Op.link
    refine (Links.pure LinkedOp.noOp).congr ?_ ?_ ?_ <;>
      simp [Op.slots, Op.Fault, Op.target?, Op.bodies, Op.placed]

/-- Linking op-lines meets the contract when linking slots does. -/
theorem linkLines_links (hslot : LinksSlots heap depth slot) (lines : List OpLine) :
    ∀ part : List OpLine, Links heap depth (lineSlots part) (LinesFault lines part)
      (fun place => placedLines place lines part) (linkLines slot lines part)
  | [] => by
    unfold linkLines
    refine (Links.pure []).congr ?_ ?_ ?_ <;> simp [lineSlots, LinesFault, placedLines]
  | ⟨id, op⟩ :: rest => by
    unfold linkLines
    refine ((Op.link_links hslot lines op).bind fun _ =>
      (linkLines_links hslot lines rest).bind fun _ => .pure _).congr ?_ ?_ ?_ <;> simp [LinesFault]

end

/-- Linking a list of op-lines meets the contract when linking slots does. -/
theorem linkSequence_links (hslot : LinksSlots heap depth slot) (lines : List OpLine) :
    Links heap depth (lineSlots lines)
      (fun e => ∃ body ∈ lines :: lineBodies lines, SequenceFault body e)
      (fun place => placedLines place lines lines) (linkSequence slot lines) :=
  sequence_links (linkLines_links hslot lines lines)

/-- A reason to refuse a value: a fault of a list of op-lines inside it. -/
def ValueFault (sequences : List (List OpLine)) (e : LinkError) : Prop :=
  ∃ lines ∈ sequences, SequenceFault lines e

mutual

/-- Linking a value meets the contract when linking slots does. -/
theorem Value.link_links (hslot : LinksSlots heap depth slot) : ∀ value : Value,
    Links heap depth value.slots (ValueFault value.sequences) value.placed (value.link slot)
  | .null | .bool _ | .long _ | .double _ | .string _ => by
    unfold Value.link
    refine (Links.pure _).congr ?_ ?_ ?_ <;>
      simp [Value.slots, ValueFault, Value.sequences, Value.placed]
  | .array items => by
    unfold Value.link
    refine ((linkValues_links hslot items).bind fun _ => .pure _).congr ?_ ?_ ?_ <;>
      simp [Value.slots, ValueFault, Value.sequences, Value.placed]
  | .slot id => by
    unfold Value.link
    refine ((hslot id).bind fun _ => .pure _).congr ?_ ?_ ?_ <;>
      simp [Value.slots, ValueFault, Value.sequences, Value.placed]
  | .param record => by
    unfold Value.link
    refine ((hslot record.default).bind fun _ => (linkSequence_links hslot record.ops).bind
      fun _ => .pure _).congr ?_ ?_ ?_ <;>
      simp [Value.slots, ValueFault, Value.sequences, Value.placed, ParamRecord.placed]

/-- Linking values meets the contract when linking slots does. -/
theorem linkValues_links (hslot : LinksSlots heap depth slot) : ∀ values : List Value,
    Links heap depth (valueSlots values) (ValueFault (valueSequences values))
      (fun place => placedValues place values) (linkValues slot values)
  | [] => by
    unfold linkValues
    refine (Links.pure []).congr ?_ ?_ ?_ <;>
      simp [valueSlots, ValueFault, valueSequences, placedValues]
  | value :: rest => by
    unfold linkValues
    refine ((Value.link_links hslot value).bind fun _ => (linkValues_links hslot rest).bind fun _ =>
      .pure _).congr ?_ ?_ ?_ <;>
      simp [valueSlots, ValueFault, valueSequences, placedValues, or_and_right, exists_or]

end

/-! ## Slots -/

/-- Linking a slot that a table has gives its place and changes nothing. -/
theorem linkSlotBy_of_find? {content : Value → LinkM ValueImage} {id : SlotId} {place : Nat}
    (h : table.find? id = some place) :
    (linkSlotBy heap content id).run table = .ok (.ofNat place, table) := by
  simp only [linkSlotBy, StateT.run_bind, StateT.run_get, pure_bind, h]
  rfl

/-- Linking a slot that a table does not have registers it, links its content and fills in the
value. -/
theorem linkSlotBy_of_find?_eq_none {content : Value → LinkM ValueImage} {id : SlotId}
    (h : table.find? id = none) :
    (linkSlotBy heap content id).run table =
      ((content (heap.get id).value).run (table.register id (heap.get id).type)).map
        fun result => (.ofNat table.size, result.2.fill (.ofNat table.size) result.1) := by
  simp only [linkSlotBy, StateT.run_bind, StateT.run_get, StateT.run_modify, pure_bind, h]
  rcases (content (heap.get id).value).run (table.register id (heap.get id).type) with
    e | ⟨value, table'⟩ <;> rfl

/-- Linking a slot meets the contract when linking its content does from a table that has it. -/
theorem linkSlotBy_links {content : Value → LinkM ValueImage} {id : SlotId}
    (hcontent : ∀ table : SlotTable, table.Ready heap (depth + 1) → id ∉ table.keys →
      Linked heap (heap.slotsOf id) (ValueFault (heap.get id).value.sequences)
        (heap.get id).value.placed (table.register id (heap.get id).type)
        ((content (heap.get id).value).run (table.register id (heap.get id).type))) :
    Links heap (depth + 1) [id] (fun _ => False) (fun place => place id)
      (linkSlotBy heap content id) := by
  intro table hready
  rcases hfind : table.find? id with _ | place
  · -- A slot that is met first: its content is linked in a table that has it already.
    have hnew := SlotTable.not_mem_of_find? hfind
    have hstep := hcontent table hready hnew
    rw [linkSlotBy_of_find?_eq_none hfind]
    rcases hrun : (content (heap.get id).value).run (table.register id (heap.get id).type) with
      e | ⟨value, table'⟩
    · rw [hrun] at hstep
      refine Or.inr ?_
      rcases hstep with ⟨lines, hlines, hfault⟩ | ⟨other, hreach, hfault⟩
      · exact ⟨id, .root (List.mem_singleton_self id), lines, hlines, hfault⟩
      · exact ⟨other, hreach.of_slotsOf, hfault⟩
    · rw [hrun] at hstep
      obtain ⟨hgrown, hdistinct, hsound, hvalue⟩ := hstep
      have hfilled := hgrown.fill
        (fun lines hlines e hfault => hsound e ⟨lines, hlines, hfault⟩) hvalue
      have hkeys := table'.keys_fill (.ofNat table.size) value
      refine ⟨hfilled, ?_, fun _ => False.elim, ?_⟩
      · unfold SlotTable.Distinct
        rw [hkeys]
        exact hdistinct
      · -- The place of the slot is the one that it got when it was registered.
        intro place hplace
        refine (hplace table.size id ?_).symm
        obtain ⟨added, hadded⟩ := hgrown.keys_eq
        rw [hkeys, hadded]
        simp
  · -- A slot that was met before: the table stays as it is.
    rw [linkSlotBy_of_find? hfind]
    have hat := SlotTable.getElem?_of_find? hfind
    have hmem : id ∈ table.keys := List.mem_of_getElem? hat
    exact ⟨.refl (by simpa using hmem), hready.distinct, fun _ => False.elim,
      fun place hplace => (hplace _ id hat).symm⟩

/-- Linking a slot meets the contract at every depth: where there is room to descend, the depth is
never used up. -/
theorem linkSlot_links (heap : Heap) : ∀ depth, LinksSlots heap depth (linkSlot heap depth)
  | 0 => by
    -- Room at depth zero would take more slots than the heap has.
    intro id table hready
    have hmet : table.met heap ≤ heap.size := hready.distinct.met_le
    have hroom := hready.room
    omega
  | depth + 1 => by
    intro id
    unfold linkSlot
    refine linkSlotBy_links fun table hready hnew => ?_
    by_cases hid : id.index < heap.size
    · exact Value.link_links (linkSlot_links heap depth) (heap.get id).value _
        (hready.register hnew hid (heap.get id).type)
    · -- A slot outside the heap has no content to descend into.
      have hcell : heap.get id = {} := Heap.get_of_size_le (Nat.le_of_not_lt hid)
      rw [Heap.slotsOf, hcell]
      refine ⟨.refl (List.nil_subset _), hready.distinct.register hnew _, ?_, ?_⟩
      · rintro e ⟨lines, hlines, -⟩
        simp [Value.sequences] at hlines
      · intro place _
        rfl

end Lowering
