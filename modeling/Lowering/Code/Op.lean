import Lowering.Code.Operation

/-!
# Op-lines

Compiled code is a list of op-lines. Each carries a handle, and jumps name the handle of the op-line
that they go to, never a position. Operands and results are slots, and an op-line only knows the
identity of a slot, not its content.
-/

namespace Lowering

/-- The identity of a slot: its place in the heap. -/
structure SlotId where
  index : Nat
  deriving DecidableEq

/-- The handle of an op-line. -/
structure OpId where
  number : UInt32
  deriving DecidableEq

/-- The text of a handle. -/
def OpId.text (id : OpId) : String :=
  "#" ++ id.number.toNat.repr

mutual

/-- What an op-line does. -/
inductive Op where
  | unary (kind : UnaryKind) (op1 result : SlotId)
  | binary (kind : BinaryKind) (op1 op2 result : SlotId)
  /-- Declares a function by the slot of its name, its body and the slot of its parameters. -/
  | functionDef (name : SlotId) (body : List OpLine) (params : SlotId)
  | jumpTo (target : OpId)
  /-- Jumps when the condition holds. -/
  | jumpIf (cond : SlotId) (target : OpId)
  /-- Jumps when the condition does not hold. -/
  | jumpIfNot (cond : SlotId) (target : OpId)
  /-- A place to jump to. -/
  | noOp

/-- An operation with its handle. -/
structure OpLine where
  id : OpId
  op : Op

end

/-- The short name of an operation. -/
def Op.mnemonic : Op → String
  | .unary kind _ _ => kind.mnemonic
  | .binary kind _ _ _ => kind.mnemonic
  | .functionDef _ _ _ => "FUNC"
  | .jumpTo _ => "JUMP"
  | .jumpIf _ _ => "JUMP_IF"
  | .jumpIfNot _ _ => "JUMP_IF_NOT"
  | .noOp => "NOP"

/-- The handle that a jump goes to. -/
def Op.target? : Op → Option OpId
  | .jumpTo target | .jumpIf _ target | .jumpIfNot _ target => some target
  | _ => none

/-- The slot that an operation writes. -/
def Op.result? : Op → Option SlotId
  | .unary _ _ result | .binary _ _ _ result => some result
  | _ => none

mutual

/-- Whether two operations are the same, down to the identities of their slots. -/
def Op.same : Op → Op → Bool
  | .unary k a r, .unary k' a' r' => k == k' && a == a' && r == r'
  | .binary k a b r, .binary k' a' b' r' => k == k' && a == a' && b == b' && r == r'
  | .functionDef n body p, .functionDef n' body' p' => n == n' && sameLines body body' && p == p'
  | .jumpTo t, .jumpTo t' => t == t'
  | .jumpIf c t, .jumpIf c' t' => c == c' && t == t'
  | .jumpIfNot c t, .jumpIfNot c' t' => c == c' && t == t'
  | .noOp, .noOp => true
  | _, _ => false

/-- Whether two lists of op-lines are the same. -/
def sameLines : List OpLine → List OpLine → Bool
  | [], [] => true
  | ⟨id, op⟩ :: rest, ⟨id', op'⟩ :: rest' => id == id' && op.same op' && sameLines rest rest'
  | _, _ => false

end

end Lowering
