import Lowering.Code.Value

/-!
# Images

A linked program. Jumps go to positions in the list of op-lines that they stand in, and slots are
places in one table. Positions and places are 32-bit words; an image may come from anywhere, so they
need not be in range.
-/

namespace Lowering

/-- A place in the slot table of an image. -/
structure SlotRef where
  number : UInt32
  deriving DecidableEq

/-- The text of a place in the slot table. -/
def SlotRef.text (slot : SlotRef) : String :=
  "$" ++ slot.number.toNat.repr

/-- An op-line of an image. -/
inductive LinkedOp where
  | unary (kind : UnaryKind) (op1 result : SlotRef)
  | binary (kind : BinaryKind) (op1 op2 result : SlotRef)
  /-- The jumps of the body go to positions in the body. -/
  | functionDef (name : SlotRef) (body : List LinkedOp) (params : SlotRef)
  | jumpTo (target : UInt32)
  | jumpIf (cond : SlotRef) (target : UInt32)
  | jumpIfNot (cond : SlotRef) (target : UInt32)
  | noOp

/-- The position that a jump goes to. -/
def LinkedOp.target? : LinkedOp → Option UInt32
  | .jumpTo target | .jumpIf _ target | .jumpIfNot _ target => some target
  | _ => none

/-- A parameter record with linked op-lines. -/
structure ParamImage where
  name : String
  default : SlotRef
  ops : List LinkedOp
  byRef : Bool
  typeHint : Option String

/-- The content of a slot, with the slots in it replaced by their places. -/
inductive ValueImage where
  | null
  | bool (b : Bool)
  | long (n : Int64)
  | double (x : Double)
  | string (s : String)
  | array (items : List ValueImage)
  | slot (ref : SlotRef)
  | param (record : ParamImage)

/-- An entry of the slot table. -/
structure SlotImage where
  value : ValueImage
  type : TypeTag

/-- A linked program: its op-lines and the table of its slots. -/
structure Image where
  ops : List LinkedOp
  slots : List SlotImage

/-- The entry of a slot. -/
def Image.slot? (image : Image) (slot : SlotRef) : Option SlotImage :=
  image.slots[slot.number.toNat]?

end Lowering
