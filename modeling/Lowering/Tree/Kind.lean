import Lowering.Text.Quoted

/-!
# Kinds of syntax nodes

Every node of a syntax tree carries a tag that names its kind. The kinds that the compiler knows of
are constructors of `NodeKind`; any other tag is kept as it is.
-/

namespace Lowering

/-- The kind of a syntax node: literals, operations with one operand, operations with two operands,
statements and declarations, and whatever else a parser may produce. -/
inductive NodeKind where
  | arg | name | scalarDNumber | scalarLNumber | scalarString
  | exprIsset | exprPostInc | exprPostDec | exprPreInc | exprPreDec | exprVariable
  | exprConstFetch | exprBooleanNot | exprUnaryMinus | exprPrint | stmtEcho | stmtReturn
  | exprAssign | exprAssignConcat | exprAssignPlus | exprAssignMinus | exprAssignMul
  | exprBooleanAnd | exprBooleanOr | exprSmaller | exprSmallerOrEqual | exprGreater
  | exprGreaterOrEqual | exprEqual | exprNotEqual | exprIdentical | exprNotIdentical | exprPlus
  | exprMinus | exprMul | exprDiv | exprMod | exprConcat | exprFuncCall | exprInclude
  | param | stmtFunction | stmtIf | stmtElseIf | stmtElse | stmtWhile | stmtDo | stmtInlineHtml
  | other (tag : String)
  deriving DecidableEq

namespace NodeKind

/-- The tag of a kind in a syntax tree. -/
def tag : NodeKind → String
  | arg => "Arg"
  | name => "Name"
  | scalarDNumber => "Scalar_DNumber"
  | scalarLNumber => "Scalar_LNumber"
  | scalarString => "Scalar_String"
  | exprIsset => "Expr_Isset"
  | exprPostInc => "Expr_PostInc"
  | exprPostDec => "Expr_PostDec"
  | exprPreInc => "Expr_PreInc"
  | exprPreDec => "Expr_PreDec"
  | exprVariable => "Expr_Variable"
  | exprConstFetch => "Expr_ConstFetch"
  | exprBooleanNot => "Expr_BooleanNot"
  | exprUnaryMinus => "Expr_UnaryMinus"
  | exprPrint => "Expr_Print"
  | stmtEcho => "Stmt_Echo"
  | stmtReturn => "Stmt_Return"
  | exprAssign => "Expr_Assign"
  | exprAssignConcat => "Expr_AssignConcat"
  | exprAssignPlus => "Expr_AssignPlus"
  | exprAssignMinus => "Expr_AssignMinus"
  | exprAssignMul => "Expr_AssignMul"
  | exprBooleanAnd => "Expr_BooleanAnd"
  | exprBooleanOr => "Expr_BooleanOr"
  | exprSmaller => "Expr_Smaller"
  | exprSmallerOrEqual => "Expr_SmallerOrEqual"
  | exprGreater => "Expr_Greater"
  | exprGreaterOrEqual => "Expr_GreaterOrEqual"
  | exprEqual => "Expr_Equal"
  | exprNotEqual => "Expr_NotEqual"
  | exprIdentical => "Expr_Identical"
  | exprNotIdentical => "Expr_NotIdentical"
  | exprPlus => "Expr_Plus"
  | exprMinus => "Expr_Minus"
  | exprMul => "Expr_Mul"
  | exprDiv => "Expr_Div"
  | exprMod => "Expr_Mod"
  | exprConcat => "Expr_Concat"
  | exprFuncCall => "Expr_FuncCall"
  | exprInclude => "Expr_Include"
  | param => "Param"
  | stmtFunction => "Stmt_Function"
  | stmtIf => "Stmt_If"
  | stmtElseIf => "Stmt_ElseIf"
  | stmtElse => "Stmt_Else"
  | stmtWhile => "Stmt_While"
  | stmtDo => "Stmt_Do"
  | stmtInlineHtml => "Stmt_InlineHTML"
  | other tag => tag

/-- The name of a kind among the alternatives of `NodeKind`; an unknown kind shows its tag. -/
def label : NodeKind → String
  | arg => "Arg"
  | name => "Name"
  | scalarDNumber => "ScalarDNumber"
  | scalarLNumber => "ScalarLNumber"
  | scalarString => "ScalarString"
  | exprIsset => "ExprIsset"
  | exprPostInc => "ExprPostInc"
  | exprPostDec => "ExprPostDec"
  | exprPreInc => "ExprPreInc"
  | exprPreDec => "ExprPreDec"
  | exprVariable => "ExprVariable"
  | exprConstFetch => "ExprConstFetch"
  | exprBooleanNot => "ExprBooleanNot"
  | exprUnaryMinus => "ExprUnaryMinus"
  | exprPrint => "ExprPrint"
  | stmtEcho => "StmtEcho"
  | stmtReturn => "StmtReturn"
  | exprAssign => "ExprAssign"
  | exprAssignConcat => "ExprAssignConcat"
  | exprAssignPlus => "ExprAssignPlus"
  | exprAssignMinus => "ExprAssignMinus"
  | exprAssignMul => "ExprAssignMul"
  | exprBooleanAnd => "ExprBooleanAnd"
  | exprBooleanOr => "ExprBooleanOr"
  | exprSmaller => "ExprSmaller"
  | exprSmallerOrEqual => "ExprSmallerOrEqual"
  | exprGreater => "ExprGreater"
  | exprGreaterOrEqual => "ExprGreaterOrEqual"
  | exprEqual => "ExprEqual"
  | exprNotEqual => "ExprNotEqual"
  | exprIdentical => "ExprIdentical"
  | exprNotIdentical => "ExprNotIdentical"
  | exprPlus => "ExprPlus"
  | exprMinus => "ExprMinus"
  | exprMul => "ExprMul"
  | exprDiv => "ExprDiv"
  | exprMod => "ExprMod"
  | exprConcat => "ExprConcat"
  | exprFuncCall => "ExprFuncCall"
  | exprInclude => "ExprInclude"
  | param => "Param"
  | stmtFunction => "StmtFunction"
  | stmtIf => "StmtIf"
  | stmtElseIf => "StmtElseIf"
  | stmtElse => "StmtElse"
  | stmtWhile => "StmtWhile"
  | stmtDo => "StmtDo"
  | stmtInlineHtml => "StmtInlineHtml"
  | other tag => "Other(" ++ Text.quoted tag ++ ")"

/-- The known kinds, in the order in which they are declared. -/
def known : List NodeKind :=
  [.arg, .name, .scalarDNumber, .scalarLNumber, .scalarString, .exprIsset, .exprPostInc,
   .exprPostDec, .exprPreInc, .exprPreDec, .exprVariable, .exprConstFetch, .exprBooleanNot,
   .exprUnaryMinus, .exprPrint, .stmtEcho, .stmtReturn, .exprAssign, .exprAssignConcat,
   .exprAssignPlus, .exprAssignMinus, .exprAssignMul, .exprBooleanAnd, .exprBooleanOr,
   .exprSmaller, .exprSmallerOrEqual, .exprGreater, .exprGreaterOrEqual, .exprEqual,
   .exprNotEqual, .exprIdentical, .exprNotIdentical, .exprPlus, .exprMinus, .exprMul, .exprDiv,
   .exprMod, .exprConcat, .exprFuncCall, .exprInclude, .param, .stmtFunction, .stmtIf,
   .stmtElseIf, .stmtElse, .stmtWhile, .stmtDo, .stmtInlineHtml]

/-- The kind with a given tag. -/
def ofTag (tag : String) : NodeKind :=
  (known.find? fun kind => kind.tag == tag).getD (.other tag)

/-- Whether a kind is one of the known ones. -/
def isKnown : NodeKind → Bool
  | other _ => false
  | _ => true

/-- Every known kind is listed. -/
theorem mem_known {kind : NodeKind} (h : kind.isKnown) : kind ∈ known := by
  cases kind with
  | other => simp [isKnown] at h
  | _ => decide

/-- The tag of a known kind leads back to it. -/
theorem ofTag_tag {kind : NodeKind} (h : kind.isKnown) : ofTag kind.tag = kind := by
  cases kind with
  | other => simp [isKnown] at h
  | _ => decide

/-- The kind made from a tag carries that tag. -/
theorem tag_ofTag (t : String) : (ofTag t).tag = t := by
  unfold ofTag
  cases h : known.find? fun kind => kind.tag == t with
  | none => rfl
  | some kind => simpa using List.find?_some h

end NodeKind

end Lowering
