/-!
# Operations

The operations of op-lines, by the number of operands that they take.
-/

namespace Lowering

/-- Operations that take one operand. -/
inductive UnaryKind where
  | issetOp | postInc | postDec | preInc | preDec | fetchVariable | fetchConstant | booleanNot
  | unaryMinus | echoOp | printOp | returnOp
  deriving DecidableEq

namespace UnaryKind

/-- The kinds in the order of their indices. -/
def all : List UnaryKind :=
  [.issetOp, .postInc, .postDec, .preInc, .preDec, .fetchVariable, .fetchConstant, .booleanNot,
   .unaryMinus, .echoOp, .printOp, .returnOp]

/-- The name of a kind. -/
def name : UnaryKind → String
  | issetOp => "IssetOp"
  | postInc => "PostInc"
  | postDec => "PostDec"
  | preInc => "PreInc"
  | preDec => "PreDec"
  | fetchVariable => "FetchVariable"
  | fetchConstant => "FetchConstant"
  | booleanNot => "BooleanNot"
  | unaryMinus => "UnaryMinus"
  | echoOp => "EchoOp"
  | printOp => "PrintOp"
  | returnOp => "ReturnOp"

/-- The short name of a kind in listings. -/
def mnemonic : UnaryKind → String
  | issetOp => "ISSET"
  | postInc => "POST_INC"
  | postDec => "POST_DEC"
  | preInc => "PRE_INC"
  | preDec => "PRE_DEC"
  | fetchVariable => "FETCH_VAR"
  | fetchConstant => "FETCH_CONST"
  | booleanNot => "BOOL_NOT"
  | unaryMinus => "NEG"
  | echoOp => "ECHO"
  | printOp => "PRINT"
  | returnOp => "RETURN"

/-- The place of a kind among all of them. -/
def index (kind : UnaryKind) : Nat :=
  all.idxOf kind

/-- A kind is found at its index. -/
theorem getElem?_index (kind : UnaryKind) : all[kind.index]? = some kind := by
  cases kind <;> decide

end UnaryKind

/-- Operations that take two operands: assignment, logic, comparison, arithmetic and calls. -/
inductive BinaryKind where
  | assign | assignConcat | assignAdd | assignSub | assignMul | booleanAnd | booleanOr | smaller
  | smallerOrEqual | equal | notEqual | identical | notIdentical | add | sub | multiply | div
  | mod | concat | functionCall | includeOp
  deriving DecidableEq

namespace BinaryKind

/-- The kinds in the order of their indices. -/
def all : List BinaryKind :=
  [.assign, .assignConcat, .assignAdd, .assignSub, .assignMul, .booleanAnd, .booleanOr, .smaller,
   .smallerOrEqual, .equal, .notEqual, .identical, .notIdentical, .add, .sub, .multiply, .div,
   .mod, .concat, .functionCall, .includeOp]

/-- The name of a kind. -/
def name : BinaryKind → String
  | assign => "Assign"
  | assignConcat => "AssignConcat"
  | assignAdd => "AssignAdd"
  | assignSub => "AssignSub"
  | assignMul => "AssignMul"
  | booleanAnd => "BooleanAnd"
  | booleanOr => "BooleanOr"
  | smaller => "Smaller"
  | smallerOrEqual => "SmallerOrEqual"
  | equal => "Equal"
  | notEqual => "NotEqual"
  | identical => "Identical"
  | notIdentical => "NotIdentical"
  | add => "Add"
  | sub => "Sub"
  | multiply => "Multiply"
  | div => "Div"
  | mod => "Mod"
  | concat => "Concat"
  | functionCall => "FunctionCall"
  | includeOp => "IncludeOp"

/-- The short name of a kind in listings. -/
def mnemonic : BinaryKind → String
  | assign => "ASSIGN"
  | assignConcat => "ASSIGN_CONCAT"
  | assignAdd => "ASSIGN_ADD"
  | assignSub => "ASSIGN_SUB"
  | assignMul => "ASSIGN_MUL"
  | booleanAnd => "BOOL_AND"
  | booleanOr => "BOOL_OR"
  | smaller => "LT"
  | smallerOrEqual => "LE"
  | equal => "EQ"
  | notEqual => "NE"
  | identical => "IDENTICAL"
  | notIdentical => "NOT_IDENTICAL"
  | add => "ADD"
  | sub => "SUB"
  | multiply => "MUL"
  | div => "DIV"
  | mod => "MOD"
  | concat => "CONCAT"
  | functionCall => "CALL"
  | includeOp => "INCLUDE"

/-- The place of a kind among all of them. -/
def index (kind : BinaryKind) : Nat :=
  all.idxOf kind

/-- A kind is found at its index. -/
theorem getElem?_index (kind : BinaryKind) : all[kind.index]? = some kind := by
  cases kind <;> decide

end BinaryKind

end Lowering
