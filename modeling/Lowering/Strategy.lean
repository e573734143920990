import Lowering.Code.Operation
import Lowering.Text.Layout
import Lowering.Tree.Kind

/-!
# How each kind of node compiles

Most kinds compile in one of four general ways, which a `Descriptor` selects together with the fields
to compile. A few have a `Routine` of their own. The rest cannot be compiled.
-/

namespace Lowering

/-- A general way to compile a node. -/
inductive Descriptor where
  /-- Compiles a field into a slot of its own and appends that slot to the result. -/
  | argument (field : String)
  /-- Writes the literal content of a field into the result, joining the parts of a list when there
  is a separator. -/
  | literal (field : String) (separator : Option String)
  /-- Applies an operation to one operand. -/
  | unary (kind : UnaryKind) (field : String)
  /-- Applies an operation to two operands. -/
  | binary (kind : BinaryKind) (left right : String)
  deriving DecidableEq

/-- The text of a descriptor. -/
def Descriptor.text : Descriptor → String
  | .argument field => Text.braced "ArrayOp" [("field", Text.quoted field)]
  | .literal field separator =>
    Text.braced "ScalarOp"
      [("field", Text.quoted field), ("separator", Text.optional (separator.map Text.quoted))]
  | .unary kind field =>
    Text.braced "UnaryOp" [("kind", kind.name), ("field", Text.quoted field)]
  | .binary kind left right =>
    Text.braced "BinaryOp"
      [("kind", kind.name), ("left", Text.quoted left), ("right", Text.quoted right)]

/-- A way to compile one particular kind of node. -/
inductive Routine where
  | param | function | conditional | whileLoop | doLoop | inlineHtml
  deriving DecidableEq

/-- The name of a routine. -/
def Routine.name : Routine → String
  | .param => "Param"
  | .function => "Function"
  | .conditional => "If"
  | .whileLoop => "While"
  | .doLoop => "Do"
  | .inlineHtml => "InlineHtml"

namespace NodeKind

/-- An operation on the fields `left` and `right`. -/
def onSides (kind : BinaryKind) : Descriptor :=
  .binary kind "left" "right"

/-- An operation on the fields `right` and `left`, which turns a comparison around. -/
def onSidesSwapped (kind : BinaryKind) : Descriptor :=
  .binary kind "right" "left"

/-- An operation that stores the field `expr` into the field `var`. -/
def onTarget (kind : BinaryKind) : Descriptor :=
  .binary kind "var" "expr"

/-- The general way to compile a kind, if it has one. -/
def descriptor? : NodeKind → Option Descriptor
  | arg => some (.argument "value")
  | name => some (.literal "parts" (some "\\"))
  | scalarDNumber | scalarLNumber | scalarString => some (.literal "value" none)
  | exprIsset => some (.unary .issetOp "vars")
  | exprPostInc => some (.unary .postInc "var")
  | exprPostDec => some (.unary .postDec "var")
  | exprPreInc => some (.unary .preInc "var")
  | exprPreDec => some (.unary .preDec "var")
  | exprVariable => some (.unary .fetchVariable "name")
  | exprConstFetch => some (.unary .fetchConstant "name")
  | exprBooleanNot => some (.unary .booleanNot "expr")
  | exprUnaryMinus => some (.unary .unaryMinus "expr")
  | exprPrint => some (.unary .printOp "expr")
  | stmtEcho => some (.unary .echoOp "exprs")
  | stmtReturn => some (.unary .returnOp "expr")
  | exprAssign => some (onTarget .assign)
  | exprAssignConcat => some (onTarget .assignConcat)
  | exprAssignPlus => some (onTarget .assignAdd)
  | exprAssignMinus => some (onTarget .assignSub)
  | exprAssignMul => some (onTarget .assignMul)
  | exprBooleanAnd => some (onSides .booleanAnd)
  | exprBooleanOr => some (onSides .booleanOr)
  | exprSmaller => some (onSides .smaller)
  | exprSmallerOrEqual => some (onSides .smallerOrEqual)
  | exprGreater => some (onSidesSwapped .smaller)
  | exprGreaterOrEqual => some (onSidesSwapped .smallerOrEqual)
  | exprEqual => some (onSides .equal)
  | exprNotEqual => some (onSides .notEqual)
  | exprIdentical => some (onSides .identical)
  | exprNotIdentical => some (onSides .notIdentical)
  | exprPlus => some (onSides .add)
  | exprMinus => some (onSides .sub)
  | exprMul => some (onSides .multiply)
  | exprDiv => some (onSides .div)
  | exprMod => some (onSides .mod)
  | exprConcat => some (onSides .concat)
  | exprFuncCall => some (.binary .functionCall "name" "args")
  | exprInclude => some (.binary .includeOp "type" "expr")
  | _ => none

/-- The routine of a kind that has no descriptor. -/
def routine? : NodeKind → Option Routine
  | param => some .param
  | stmtFunction => some .function
  | stmtIf => some .conditional
  | stmtWhile => some .whileLoop
  | stmtDo => some .doLoop
  | stmtInlineHtml => some .inlineHtml
  | _ => none

end NodeKind

end Lowering
