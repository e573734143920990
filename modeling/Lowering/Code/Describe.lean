import Lowering.Code.Heap
import Lowering.Text.Quoted

/-!
# Describing values in full

A description shows a value with the content of every slot that it names, wherever the slot appears.
It follows slots through the heap; since a chain of different slots is no longer than the heap, the
bound on the depth only matters to a slot that contains itself.
-/

namespace Lowering

/-- The description of a handle. -/
def OpId.describe (id : OpId) : String :=
  Text.wrapped "OpId" id.number.toNat.repr

mutual

/-- The description of an operation, given those of its slots. -/
def Op.describe (slot : SlotId → String) : Op → String
  | .unary kind op1 result =>
    Text.braced "Unary" [("kind", kind.name), ("op1", slot op1), ("result", slot result)]
  | .binary kind op1 op2 result =>
    Text.braced "Binary"
      [("kind", kind.name), ("op1", slot op1), ("op2", slot op2), ("result", slot result)]
  | .functionDef name body params =>
    Text.braced "FunctionDef"
      [("name", slot name), ("stmts", Text.bracketed (describeLines slot body)),
        ("params", slot params)]
  | .jumpTo target => Text.braced "JumpTo" [("target", target.describe)]
  | .jumpIf cond target =>
    Text.braced "JumpIf" [("cond", slot cond), ("target", target.describe)]
  | .jumpIfNot cond target =>
    Text.braced "JumpIfNot" [("cond", slot cond), ("target", target.describe)]
  | .noOp => "NoOp"

/-- The descriptions of op-lines. -/
def describeLines (slot : SlotId → String) : List OpLine → List String
  | [] => []
  | ⟨id, op⟩ :: rest =>
    Text.braced "OpLine" [("id", id.describe), ("op", op.describe slot)] :: describeLines slot rest

end

/-- The description of a parameter record. -/
def ParamRecord.describe (slot : SlotId → String) (record : ParamRecord) : String :=
  Text.braced "ParamRecord"
    [("name", Text.quoted record.name), ("default", slot record.default),
      ("ops", Text.bracketed (describeLines slot record.ops)),
      ("by_ref", Text.truth record.byRef),
      ("type_hint", Text.optional (record.typeHint.map Text.quoted))]

mutual

/-- The description of a value, given those of its slots. -/
def Value.describe (slot : SlotId → String) : Value → String
  | .null => "Null"
  | .bool b => Text.wrapped "Bool" (Text.truth b)
  | .long n => Text.wrapped "Long" n.toInt.repr
  | .double x => Text.wrapped "Double" (x.text .exponential)
  | .string s => Text.wrapped "String" (Text.quoted s)
  | .array items => Text.wrapped "Array" (Text.bracketed (describeValues slot items))
  | .slot id => Text.wrapped "Slot" (slot id)
  | .param record => Text.wrapped "Param" (record.describe slot)

/-- The descriptions of values. -/
def describeValues (slot : SlotId → String) : List Value → List String
  | [] => []
  | value :: rest => value.describe slot :: describeValues slot rest

end

namespace Heap

/-- The description of a slot, followed down to a depth. -/
def describeTo (heap : Heap) : Nat → SlotId → String
  | 0, _ => "ValueSlot"
  | depth + 1, slot =>
    let cell := heap.get slot
    Text.braced "ValueSlot"
      [("value", cell.value.describe (heap.describeTo depth)), ("ty", cell.type.name)]

/-- The description of a slot. -/
def describe (heap : Heap) (slot : SlotId) : String :=
  heap.describeTo (heap.size + 1) slot

/-- The description of a value whose slots are in the heap. -/
def describeValue (heap : Heap) (value : Value) : String :=
  value.describe heap.describe

end Heap

end Lowering
