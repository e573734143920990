import Lowering.Code.Op
import Lowering.Tree.Node

/-!
# Values

What a slot can hold. A value may name other slots, inside arrays and inside the records of function
parameters.
-/

namespace Lowering

/-- The type that a slot is tagged with. -/
inductive TypeTag where
  | null | bool | long | double | string | array | ref
  deriving DecidableEq

namespace TypeTag

/-- The tags in the order of their indices. -/
def all : List TypeTag :=
  [.null, .bool, .long, .double, .string, .array, .ref]

/-- The name of a tag. -/
def name : TypeTag → String
  | null => "Null"
  | bool => "Bool"
  | long => "Long"
  | double => "Double"
  | string => "String"
  | array => "Array"
  | ref => "Ref"

/-- The word for a tag in listings. -/
def word : TypeTag → String
  | null => "null"
  | bool => "bool"
  | long => "long"
  | double => "double"
  | string => "string"
  | array => "array"
  | ref => "ref"

/-- The place of a tag among all of them. -/
def index (tag : TypeTag) : Nat :=
  all.idxOf tag

/-- A tag is found at its index. -/
theorem getElem?_index (tag : TypeTag) : all[tag.index]? = some tag := by
  cases tag <;> decide

end TypeTag

/-- A parameter of a function: its name, the slot of its default value with the op-lines that compute
it, whether it is taken by reference, and its declared type. -/
structure ParamRecord where
  name : String
  default : SlotId
  ops : List OpLine
  byRef : Bool
  typeHint : Option String

/-- The content of a slot. -/
inductive Value where
  | null
  | bool (b : Bool)
  | long (n : Int64)
  | double (x : Double)
  | string (s : String)
  | array (items : List Value)
  | slot (id : SlotId)
  | param (record : ParamRecord)

/-- The value of a literal. -/
def Scalar.toValue : Scalar → Value
  | .bool b => .bool b
  | .long n => .long n
  | .double x => .double x
  | .string s => .string s

namespace Value

/-- The tag that a value calls for. -/
def typeTag : Value → TypeTag
  | null => .null
  | bool _ => .bool
  | long _ => .long
  | double _ => .double
  | string _ => .string
  | array _ | param _ => .array
  | slot _ => .ref

/-- The elements of an array; any other value has none. -/
def elements : Value → List Value
  | array items => items
  | _ => []

end Value

/-- Whether two parameter records are equal, slots by identity. -/
def ParamRecord.same (a b : ParamRecord) : Bool :=
  a.name == b.name && a.default == b.default && sameLines a.ops b.ops && a.byRef == b.byRef &&
    a.typeHint == b.typeHint

mutual

/-- Equality of values: doubles compare as numbers and slots by identity. -/
def Value.same : Value → Value → Bool
  | .null, .null => true
  | .bool a, .bool b => a == b
  | .long a, .long b => a == b
  | .double a, .double b => a.same b
  | .string a, .string b => a == b
  | .array as, .array bs => sameValues as bs
  | .slot a, .slot b => a == b
  | .param a, .param b => a.same b
  | _, _ => false

/-- Whether two lists of values are equal. -/
def sameValues : List Value → List Value → Bool
  | [], [] => true
  | a :: as, b :: bs => a.same b && sameValues as bs
  | _, _ => false

end

end Lowering
