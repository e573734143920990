import Mathlib.Logic.Function.Basic
import Lowering.Proofs.Link.Identity

/-!
# New names for slots and handles

A `Renaming` gives new names to slots and handles, in op-lines, bodies, records, values and cells. The
slots that something under new names names are the new names of those that it named. New names given
twice are new names given once (`Renaming.andThen`), and only the new names of what is named matter.
-/

namespace Lowering

/-- New names for slots and handles. -/
structure Renaming where
  slot : SlotId → SlotId
  handle : OpId → OpId

/-! ## Renamed programs -/

section

variable (names : Renaming)

mutual

/-- An operation under new names, in its body as well. -/
def Op.renamed : Op → Op
  | .unary kind op1 result => .unary kind (names.slot op1) (names.slot result)
  | .binary kind op1 op2 result =>
    .binary kind (names.slot op1) (names.slot op2) (names.slot result)
  | .functionDef name body params =>
    .functionDef (names.slot name) (renamedLines body) (names.slot params)
  | .jumpTo target => .jumpTo (names.handle target)
  | .jumpIf cond target => .jumpIf (names.slot cond) (names.handle target)
  | .jumpIfNot cond target => .jumpIfNot (names.slot cond) (names.handle target)
  | .noOp => .noOp

/-- Op-lines under new names. -/
def renamedLines : List OpLine → List OpLine
  | [] => []
  | ⟨id, op⟩ :: rest => ⟨names.handle id, op.renamed⟩ :: renamedLines rest

end

/-- A parameter record under new names. -/
def ParamRecord.renamed (record : ParamRecord) : ParamRecord :=
  ⟨record.name, names.slot record.default, renamedLines names record.ops, record.byRef,
    record.typeHint⟩

mutual

/-- A value under new names. -/
def Value.renamed : Value → Value
  | .null => .null
  | .bool b => .bool b
  | .long n => .long n
  | .double x => .double x
  | .string s => .string s
  | .array items => .array (renamedValues items)
  | .slot id => .slot (names.slot id)
  | .param record => .param (record.renamed names)

/-- Values under new names. -/
def renamedValues : List Value → List Value
  | [] => []
  | value :: rest => value.renamed :: renamedValues rest

end

/-- A cell under new names. -/
def Cell.renamed (cell : Cell) : Cell :=
  ⟨cell.value.renamed names, cell.type⟩

/-- An op-line under new names. -/
def OpLine.renamed (line : OpLine) : OpLine :=
  ⟨names.handle line.id, line.op.renamed names⟩

end

variable {names : Renaming}

/-- Op-lines are renamed one by one. -/
theorem renamedLines_eq_map (lines : List OpLine) :
    renamedLines names lines = lines.map (OpLine.renamed names) := by
  induction lines with
  | nil => rfl
  | cons line rest ih =>
    cases line
    rw [renamedLines, ih]
    rfl

mutual

/-- The slots that a renamed operation names are the new names of those that it named. -/
theorem Op.slots_renamed : ∀ op : Op, (op.renamed names).slots = op.slots.map names.slot
  | .unary _ _ _ | .binary _ _ _ _ | .jumpTo _ | .jumpIf _ _ | .jumpIfNot _ _ | .noOp => by
    simp [Op.renamed, Op.slots]
  | .functionDef name body params => by
    simp [Op.renamed, Op.slots, lineSlots_renamedLines body]

/-- The slots that renamed op-lines name are the new names of those that they named. -/
theorem lineSlots_renamedLines : ∀ lines : List OpLine,
    lineSlots (renamedLines names lines) = (lineSlots lines).map names.slot
  | [] => by simp [renamedLines, lineSlots]
  | ⟨id, op⟩ :: rest => by
    simp [renamedLines, Op.slots_renamed op, lineSlots_renamedLines rest]

end

mutual

/-- The slots that a renamed value names are the new names of those that it named. -/
theorem Value.slots_renamed : ∀ value : Value,
    (value.renamed names).slots = value.slots.map names.slot
  | .null | .bool _ | .long _ | .double _ | .string _ | .slot _ => by
    simp [Value.renamed, Value.slots]
  | .array items => by simp [Value.renamed, Value.slots, valueSlots_renamedValues items]
  | .param record => by
    simp [Value.renamed, ParamRecord.renamed, Value.slots, lineSlots_renamedLines]

/-- The slots that renamed values name are the new names of those that they named. -/
theorem valueSlots_renamedValues : ∀ values : List Value,
    valueSlots (renamedValues names values) = (valueSlots values).map names.slot
  | [] => by simp [renamedValues, valueSlots]
  | value :: rest => by
    simp [renamedValues, valueSlots, Value.slots_renamed value, valueSlots_renamedValues rest]

end

/-! ## New names for some slots, and new names twice -/

namespace Renaming

/-- New names for slots; handles stay as they are. -/
def ofSlots (rename : SlotId → SlotId) : Renaming where
  slot := rename
  handle := id

/-- The new names of new names. -/
def andThen (names names' : Renaming) : Renaming where
  slot := fun slot => names'.slot (names.slot slot)
  handle := fun id => names'.handle (names.handle id)

end Renaming

section

variable (names names' : Renaming)

mutual

/-- Renaming an operation twice is renaming it once by both. -/
theorem Op.renamed_renamed : ∀ op : Op,
    (op.renamed names).renamed names' = op.renamed (names.andThen names')
  | .unary _ _ _ | .binary _ _ _ _ | .jumpTo _ | .jumpIf _ _ | .jumpIfNot _ _ | .noOp => by
    simp [Op.renamed, Renaming.andThen]
  | .functionDef _ body _ => by
    simp [Op.renamed, renamedLines_renamedLines body, Renaming.andThen]

/-- Renaming op-lines twice is renaming them once by both. -/
theorem renamedLines_renamedLines : ∀ lines : List OpLine,
    renamedLines names' (renamedLines names lines) = renamedLines (names.andThen names') lines
  | [] => by simp [renamedLines]
  | ⟨id, op⟩ :: rest => by
    simp [renamedLines, Op.renamed_renamed op, renamedLines_renamedLines rest, Renaming.andThen]

end

mutual

/-- Renaming a value twice is renaming it once by both. -/
theorem Value.renamed_renamed : ∀ value : Value,
    (value.renamed names).renamed names' = value.renamed (names.andThen names')
  | .null | .bool _ | .long _ | .double _ | .string _ | .slot _ => by
    simp [Value.renamed, Renaming.andThen]
  | .array items => by simp [Value.renamed, renamedValues_renamedValues items]
  | .param record => by
    simp [Value.renamed, ParamRecord.renamed, renamedLines_renamedLines, Renaming.andThen]

/-- Renaming values twice is renaming them once by both. -/
theorem renamedValues_renamedValues : ∀ values : List Value,
    renamedValues names' (renamedValues names values) =
      renamedValues (names.andThen names') values
  | [] => by simp [renamedValues]
  | value :: rest => by
    simp [renamedValues, Value.renamed_renamed value, renamedValues_renamedValues rest]

end

/-- Renaming a cell twice is renaming it once by both. -/
theorem Cell.renamed_renamed (cell : Cell) :
    (cell.renamed names).renamed names' = cell.renamed (names.andThen names') := by
  simp [Cell.renamed, Value.renamed_renamed]

end

section

variable {rename rename' : SlotId → SlotId}

mutual

/-- Only the new names of slots that are named matter. -/
theorem Op.renamed_congr : ∀ op : Op, (∀ slot ∈ op.slots, rename slot = rename' slot) →
    op.renamed (.ofSlots rename) = op.renamed (.ofSlots rename')
  | .unary _ _ _, h | .binary _ _ _ _, h | .jumpIf _ _, h | .jumpIfNot _ _, h
  | .jumpTo _, h | .noOp, h => by
    simp_all [Op.renamed, Op.slots, Renaming.ofSlots]
  | .functionDef name body params, h => by
    have hbody := renamedLines_congr body fun slot hslot => h slot (by simp [Op.slots, hslot])
    simp_all [Op.renamed, Op.slots, Renaming.ofSlots]

/-- The renamed form of op-lines depends on the new names of their slots, and on no others. -/
theorem renamedLines_congr : ∀ lines : List OpLine,
    (∀ slot ∈ lineSlots lines, rename slot = rename' slot) →
    renamedLines (.ofSlots rename) lines = renamedLines (.ofSlots rename') lines
  | [], _ => rfl
  | ⟨id, op⟩ :: rest, h => by
    rw [lineSlots_cons, List.forall_mem_append] at h
    rw [renamedLines, renamedLines, Op.renamed_congr op h.1, renamedLines_congr rest h.2]
    rfl

end

mutual

/-- Only the new names of slots that are named matter. -/
theorem Value.renamed_congr : ∀ value : Value, (∀ slot ∈ value.slots, rename slot = rename' slot) →
    value.renamed (.ofSlots rename) = value.renamed (.ofSlots rename')
  | .null, _ | .bool _, _ | .long _, _ | .double _, _ | .string _, _ => by simp [Value.renamed]
  | .slot _, h => by simp_all [Value.renamed, Value.slots, Renaming.ofSlots]
  | .array items, h => by
    rw [Value.slots] at h
    rw [Value.renamed, Value.renamed, renamedValues_congr items h]
  | .param record, h => by
    rw [Value.slots, List.forall_mem_cons] at h
    rw [Value.renamed, Value.renamed, ParamRecord.renamed, ParamRecord.renamed,
      renamedLines_congr record.ops h.2]
    simp [Renaming.ofSlots, h.1]

/-- The renamed form of values depends on the new names of their slots, and on no others. -/
theorem renamedValues_congr : ∀ values : List Value,
    (∀ slot ∈ valueSlots values, rename slot = rename' slot) →
    renamedValues (.ofSlots rename) values = renamedValues (.ofSlots rename') values
  | [], _ => rfl
  | value :: rest, h => by
    rw [valueSlots, List.forall_mem_append] at h
    rw [renamedValues, renamedValues, Value.renamed_congr value h.1, renamedValues_congr rest h.2]

end

/-- The renamed content of a slot depends on the new names of the slots that it names, and on no
others. -/
theorem Heap.renamed_congr (heap : Heap) (slot : SlotId)
    (h : ∀ next ∈ heap.slotsOf slot, rename next = rename' next) :
    (heap.get slot).renamed (.ofSlots rename) = (heap.get slot).renamed (.ofSlots rename') := by
  unfold Cell.renamed
  rw [Value.renamed_congr _ h]

end

end Lowering
