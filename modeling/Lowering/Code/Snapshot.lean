import Lowering.Code.Heap

/-!
# Snapshots of slots and op-lines

A snapshot shows op-lines or a slot together with the content of the slots that they lead to, as a
JSON value. Slots are numbered in the order in which they first appear, and their content is shown
there; later on, and inside its own content, a slot is only a number.
-/

namespace Lowering

/-- A step of taking a snapshot: the slots that have appeared, in order. -/
abbrev SnapshotM := StateM (Array SlotId)

/-- A numbered slot. -/
def snapshotNumber (number : Nat) : String × Json :=
  ("slot", .int number)

section

variable (slot : SlotId → SnapshotM Json)

/-- An op-line with given parts. -/
def snapshotLine (id : OpId) (op : Op) (parts : List (String × Json)) : Json :=
  .record (("id", .string id.text) :: ("op", .string op.mnemonic) :: parts)

/-- A jump's target. -/
def snapshotTarget (target : OpId) : String × Json :=
  ("target", .string target.text)

mutual

/-- The parts of an operation. -/
def Op.snapshot : Op → SnapshotM (List (String × Json))
  | .unary _ op1 result => do
    let op1 ← slot op1
    let result ← slot result
    return [("op1", op1), ("result", result)]
  | .binary _ op1 op2 result => do
    let op1 ← slot op1
    let op2 ← slot op2
    let result ← slot result
    return [("op1", op1), ("op2", op2), ("result", result)]
  | .functionDef name body params => do
    let name ← slot name
    let body ← snapshotLines body
    let params ← slot params
    return [("name", name), ("stmts", .list body), ("params", params)]
  | .jumpTo target => return [snapshotTarget target]
  | .jumpIf cond target | .jumpIfNot cond target => do
    let cond ← slot cond
    return [("cond", cond), snapshotTarget target]
  | .noOp => return []

/-- Op-lines one after another. -/
def snapshotLines : List OpLine → SnapshotM (List Json)
  | [] => return []
  | ⟨id, op⟩ :: rest => do
    let parts ← op.snapshot
    let lines ← snapshotLines rest
    return snapshotLine id op parts :: lines

end

mutual

/-- The content of a slot. -/
def Value.snapshot : Value → SnapshotM Json
  | .null => return .null
  | .bool b => return .record [("Bool", .bool b)]
  | .long n => return .record [("Long", .string n.toInt.repr)]
  | .double x => return .record [("Double", .string (x.text .plain))]
  | .string s => return .record [("String", .string s)]
  | .array items => do
    let items ← snapshotValues items
    return .record [("Array", .list items)]
  | .slot id => do
    let content ← slot id
    return .record [("Slot", content)]
  | .param record => do
    let default ← slot record.default
    let ops ← snapshotLines slot record.ops
    return .record [("Param", .record
      [("name", .string record.name), ("default", default), ("ops", .list ops),
        ("by_ref", .bool record.byRef), ("type_hint", (record.typeHint.map Json.string).getD .null)])]

/-- Contents one after another. -/
def snapshotValues : List Value → SnapshotM (List Json)
  | [] => return []
  | value :: rest => do
    let value ← value.snapshot
    let values ← snapshotValues rest
    return value :: values

end

end

/-- A slot: a number, and the first time also its content. -/
def snapshotSlotBy (heap : Heap) (content : Value → SnapshotM Json) (slot : SlotId) :
    SnapshotM Json := do
  match (← get).idxOf? slot with
  | some number => return .record [snapshotNumber number]
  | none =>
    let number := (← get).size
    let cell := heap.get slot
    modify (·.push slot)
    let value ← content cell.value
    return .record [snapshotNumber number, ("ty", .string cell.type.word), ("value", value)]

/-- A slot, with slots in slots followed down to a depth. -/
def snapshotSlot (heap : Heap) : Nat → SlotId → SnapshotM Json
  | 0 => snapshotSlotBy heap fun _ => return .null
  | depth + 1 => snapshotSlotBy heap fun value => value.snapshot (snapshotSlot heap depth)

namespace Heap

/-- The snapshot of a slot. -/
def snapshot (heap : Heap) (slot : SlotId) : Json :=
  ((snapshotSlot heap (heap.size + 1) slot).run #[]).1

/-- The snapshots of values, with one numbering for all of them. -/
def snapshotValues (heap : Heap) (values : List Value) : List Json :=
  ((Lowering.snapshotValues (snapshotSlot heap (heap.size + 1)) values).run #[]).1

/-- The snapshot of op-lines. -/
def snapshotLines (heap : Heap) (lines : List OpLine) : List Json :=
  ((Lowering.snapshotLines (snapshotSlot heap (heap.size + 1)) lines).run #[]).1

end Heap

end Lowering
