import Mathlib.Data.Fintype.Card
import Mathlib.Data.List.Nodup
import Mathlib.Tactic.NormNum
import Lowering.Link

/-!
# What a program names

Op-lines and values name slots, and slots hold values, so a program is a graph over its heap.
`Op.slots` and `Value.slots` are the slots that a piece of a program names itself, and `Reach`
follows them through the heap. `Op.bodies` and `Value.sequences` are the lists of op-lines that
stand inside a piece.

`Op.placed` and `Value.placed` are the linked forms of a piece, given the place of each slot. They
read the program alone: neither a table nor an order of visits occurs in them. `SequenceFault` says
when linking has a reason to refuse a list of op-lines.
-/

namespace Lowering

/-! ## Slots -/

mutual

/-- The slots that an operation names, those of a body included. -/
def Op.slots : Op → List SlotId
  | .unary _ op1 result => [op1, result]
  | .binary _ op1 op2 result => [op1, op2, result]
  | .functionDef name body params => name :: (lineSlots body ++ [params])
  | .jumpIf cond _ | .jumpIfNot cond _ => [cond]
  | .jumpTo _ | .noOp => []

/-- The slots that op-lines name. -/
def lineSlots : List OpLine → List SlotId
  | [] => []
  | ⟨_, op⟩ :: rest => op.slots ++ lineSlots rest

end

mutual

/-- The slots that a value names, those of the op-lines of a record included. -/
def Value.slots : Value → List SlotId
  | .array items => valueSlots items
  | .slot id => [id]
  | .param record => record.default :: lineSlots record.ops
  | _ => []

/-- The slots that values name. -/
def valueSlots : List Value → List SlotId
  | [] => []
  | value :: rest => value.slots ++ valueSlots rest

end

/-- The slots of op-lines are those of the first and those of the others. -/
@[simp] theorem lineSlots_cons (line : OpLine) (rest : List OpLine) :
    lineSlots (line :: rest) = line.op.slots ++ lineSlots rest := by
  cases line; rfl

/-- The slots of op-lines one after another are those of both. -/
theorem lineSlots_append (lines more : List OpLine) :
    lineSlots (lines ++ more) = lineSlots lines ++ lineSlots more := by
  induction lines with
  | nil => rfl
  | cons line rest ih => simp [ih]

/-- The slots that the content of a slot names. -/
def Heap.slotsOf (heap : Heap) (slot : SlotId) : List SlotId :=
  (heap.get slot).value.slots

/-- The slots that can be found from given ones by following their content. -/
inductive Reach (heap : Heap) (roots : List SlotId) : SlotId → Prop where
  | root {slot : SlotId} : slot ∈ roots → Reach heap roots slot
  | content {slot next : SlotId} :
      Reach heap roots slot → next ∈ heap.slotsOf slot → Reach heap roots next

/-- More can be found from more slots. -/
theorem Reach.mono {heap : Heap} {roots roots' : List SlotId} (hsub : roots ⊆ roots')
    {slot : SlotId} (h : Reach heap roots slot) : Reach heap roots' slot := by
  induction h with
  | root hmem => exact .root (hsub hmem)
  | content _ hnext ih => exact .content ih hnext

/-- What can be found from the content of a slot can be found from the slot. -/
theorem Reach.of_slotsOf {heap : Heap} {slot found : SlotId}
    (h : Reach heap (heap.slotsOf slot) found) : Reach heap [slot] found := by
  induction h with
  | root hmem => exact .content (.root (List.mem_singleton_self slot)) hmem
  | content _ hnext ih => exact .content ih hnext

/-! ## Lists of op-lines -/

mutual

/-- The lists of op-lines that stand inside an operation: its body and those inside it. -/
def Op.bodies : Op → List (List OpLine)
  | .functionDef _ body _ => body :: lineBodies body
  | _ => []

/-- The lists of op-lines that stand inside op-lines. -/
def lineBodies : List OpLine → List (List OpLine)
  | [] => []
  | ⟨_, op⟩ :: rest => op.bodies ++ lineBodies rest

end

/-- The bodies inside op-lines are those of the first and those of the others. -/
@[simp] theorem lineBodies_cons (line : OpLine) (rest : List OpLine) :
    lineBodies (line :: rest) = line.op.bodies ++ lineBodies rest := by
  cases line; rfl

/-- The bodies inside op-lines one after another are those of both. -/
theorem lineBodies_append (lines more : List OpLine) :
    lineBodies (lines ++ more) = lineBodies lines ++ lineBodies more := by
  induction lines with
  | nil => rfl
  | cons line rest ih => simp [ih]

/-- A body inside op-lines is inside one of them. -/
theorem mem_lineBodies {lines body : List OpLine} :
    body ∈ lineBodies lines ↔ ∃ line ∈ lines, body ∈ line.op.bodies := by
  induction lines with
  | nil => simp [lineBodies]
  | cons line rest ih => simp [ih]

mutual

/-- The lists of op-lines that stand inside a value: those of its records and their bodies. -/
def Value.sequences : Value → List (List OpLine)
  | .array items => valueSequences items
  | .param record => record.ops :: lineBodies record.ops
  | _ => []

/-- The lists of op-lines that stand inside values. -/
def valueSequences : List Value → List (List OpLine)
  | [] => []
  | value :: rest => value.sequences ++ valueSequences rest

end

/-- The handles of op-lines. -/
def handles (lines : List OpLine) : List OpId :=
  lines.map OpLine.id

/-- The reasons to refuse a list of op-lines by itself: a handle that occurs twice or, where all
handles are different, a jump to a handle that does not occur. -/
inductive SequenceFault (lines : List OpLine) : LinkError → Prop where
  | duplicate {id : OpId} : 2 ≤ (handles lines).count id → SequenceFault lines (.duplicateId id)
  | unresolved {target : OpId} {line : OpLine} :
      (handles lines).Nodup → line ∈ lines → line.op.target? = some target →
        target ∉ handles lines → SequenceFault lines (.unresolvedTarget target)

/-- A list of op-lines whose handles are different and whose jumps stay inside it. -/
structure WellFormed (lines : List OpLine) : Prop where
  distinct : (handles lines).Nodup
  closed : ∀ line ∈ lines, ∀ target, line.op.target? = some target → target ∈ handles lines

/-- A list without faults is well-formed. -/
theorem wellFormed_of_no_fault {lines : List OpLine} (h : ∀ e, ¬ SequenceFault lines e) :
    WellFormed lines := by
  have hdistinct : (handles lines).Nodup := by
    refine List.nodup_iff_count.mpr fun id => ?_
    by_contra hcount
    exact h (.duplicateId id) (.duplicate (by omega))
  refine ⟨hdistinct, ?_⟩
  intro line hline target htarget
  by_contra hmissing
  exact h _ (.unresolved hdistinct hline htarget hmissing)

/-- A well-formed list has no fault. -/
theorem WellFormed.no_fault {lines : List OpLine} (h : WellFormed lines) (e : LinkError) :
    ¬ SequenceFault lines e := by
  intro hfault
  cases hfault with
  | @duplicate id hcount =>
    have hone := List.nodup_iff_count.mp h.distinct id
    omega
  | unresolved _ hline htarget hmissing => exact hmissing (h.closed _ hline _ htarget)

/-! ## Linked forms -/

/-- The position of the op-line with a handle. -/
def positionOf (lines : List OpLine) (target : OpId) : Nat :=
  lines.findIdx fun line => line.id == target

/-- There are no more different handles than words. -/
theorem length_le_of_nodup {lines : List OpLine} (h : (handles lines).Nodup) :
    lines.length ≤ 2 ^ 32 := by
  have hinj : Function.Injective fun id : OpId => id.number.toFin := by
    intro id id' heq
    cases id
    cases id'
    simpa [UInt32.toFin_inj] using heq
  have hcard := (h.map hinj).length_le_card
  simpa [handles] using hcard

/-- Where all handles are different, a handle is resolved to the position of its op-line. -/
theorem toNat_positionOf {lines : List OpLine} {position : Nat} {id : OpId}
    (h : (handles lines).Nodup) (hid : (handles lines)[position]? = some id) :
    (UInt32.ofNat (positionOf lines id)).toNat = position := by
  obtain ⟨hlt, rfl⟩ := List.getElem?_eq_some_iff.mp hid
  -- The first op-line with the handle is the only one.
  have hposition : positionOf lines (handles lines)[position] = position := by
    have hindex := h.idxOf_getElem position hlt
    unfold handles at hindex
    rwa [List.idxOf, List.findIdx_map] at hindex
  -- A position is a word, because there are no more op-lines than handles.
  have hlength := length_le_of_nodup h
  rw [hposition, UInt32.toNat_ofNat_of_lt']
  simp only [handles, List.length_map] at hlt
  exact Nat.lt_of_lt_of_le hlt hlength

mutual

/-- The linked form of an operation that stands in a given list. -/
def Op.placed (place : SlotId → SlotRef) (lines : List OpLine) : Op → LinkedOp
  | .unary kind op1 result => .unary kind (place op1) (place result)
  | .binary kind op1 op2 result => .binary kind (place op1) (place op2) (place result)
  | .functionDef name body params =>
    .functionDef (place name) (placedLines place body body) (place params)
  | .jumpTo target => .jumpTo (.ofNat (positionOf lines target))
  | .jumpIf cond target => .jumpIf (place cond) (.ofNat (positionOf lines target))
  | .jumpIfNot cond target => .jumpIfNot (place cond) (.ofNat (positionOf lines target))
  | .noOp => .noOp

/-- The linked forms of op-lines that stand in a given list. -/
def placedLines (place : SlotId → SlotRef) (lines : List OpLine) : List OpLine → List LinkedOp
  | [] => []
  | ⟨_, op⟩ :: rest => op.placed place lines :: placedLines place lines rest

end

/-- Op-lines are put in their linked form one by one. -/
@[simp] theorem placedLines_cons (place : SlotId → SlotRef) (lines : List OpLine) (line : OpLine)
    (rest : List OpLine) :
    placedLines place lines (line :: rest) =
      line.op.placed place lines :: placedLines place lines rest := by
  cases line; rfl

/-- Op-lines are put in their linked form one by one, all for jumps into the same list. -/
theorem placedLines_eq_map (place : SlotId → SlotRef) (lines part : List OpLine) :
    placedLines place lines part = part.map fun line => line.op.placed place lines := by
  induction part with
  | nil => rfl
  | cons line rest ih => simp [ih]

/-- The linked form of a parameter record. -/
def ParamRecord.placed (place : SlotId → SlotRef) (record : ParamRecord) : ParamImage :=
  ⟨record.name, place record.default, placedLines place record.ops record.ops, record.byRef,
    record.typeHint⟩

mutual

/-- The linked form of a value. -/
def Value.placed (place : SlotId → SlotRef) : Value → ValueImage
  | .null => .null
  | .bool b => .bool b
  | .long n => .long n
  | .double x => .double x
  | .string s => .string s
  | .array items => .array (placedValues place items)
  | .slot id => .slot (place id)
  | .param record => .param (record.placed place)

/-- The linked forms of values. -/
def placedValues (place : SlotId → SlotRef) : List Value → List ValueImage
  | [] => []
  | value :: rest => value.placed place :: placedValues place rest

end

/-- The entry of a slot: the linked form of its content under its type tag. -/
def Heap.entry (heap : Heap) (place : SlotId → SlotRef) (slot : SlotId) : SlotImage :=
  ⟨(heap.get slot).value.placed place, (heap.get slot).type⟩

end Lowering
