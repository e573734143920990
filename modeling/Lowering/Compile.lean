import Lowering.Compile.Emitter

/-!
# Compiling syntax trees

`compile` turns a statement list into op-lines. The compilation of a node is an `Emitter` built from
those of its fields by the strategy of its kind; what a field contributes is found by recursion on the
tree. Each field is looked up on the way down, by name and in the order that the strategy asks for, so
fields that no strategy names are never looked at.
-/

namespace Lowering

open Emitter (Branch Constant Declaration)

/-! ## Literal content -/

mutual

/-- The value of literal content; a node in it counts as null. -/
def Child.toValue : Child → Value
  | .null => .null
  | .scalar s => s.toValue
  | .list items => .array (childValues items)
  | .node _ => .null

/-- The values of literal contents. -/
def childValues : List Child → List Value
  | [] => []
  | child :: rest => child.toValue :: childValues rest

end

mutual

/-- The kinds of the nodes that stand in literal content. -/
def Child.misplaced : Child → List NodeKind
  | .node ⟨kind, _, _⟩ => [kind]
  | .list items => misplacedIn items
  | _ => []

/-- The kinds of the nodes that stand in literal contents. -/
def misplacedIn : List Child → List NodeKind
  | [] => []
  | child :: rest => child.misplaced ++ misplacedIn rest

end

/-- The texts of the literals that stand directly in a list. -/
def literalTexts (items : List Child) : List String :=
  items.filterMap fun
    | .scalar s => some s.text
    | _ => none

/-- What stands between the parts of a name. -/
def nameSeparator : String := "\\"

/-- Literal content as a constant. -/
def Child.constant (child : Child) : Constant :=
  ⟨child.toValue, child.misplaced⟩

/-- The constant in a field, the literals of a list joined when there is a separator. -/
def Node.constant (node : Node) (field : String) (separator : Option String) : Constant :=
  match node.field? field, separator with
  | some (.list items), some separator => ⟨.string (separator.intercalate (literalTexts items)), []⟩
  | some child, _ => child.constant
  | none, _ => ⟨.null, []⟩

/-- The type that a declaration names: a literal, or a node that is a name or else stands for its
kind. -/
def Child.typeHint? : Child → Option String
  | .scalar s => some s.text
  | .node n =>
    match n.field? "parts" with
    | some (.list items) => some (nameSeparator.intercalate (literalTexts items))
    | _ => some n.kind.tag
  | .null | .list _ => none

/-- What a parameter node declares. -/
def Node.declaration (node : Node) : Declaration where
  name := ((node.scalar? "name").map Scalar.text).getD ""
  byRef := node.flag "byRef"
  typeHint := (node.field? "type").bind Child.typeHint?

/-! ## Nodes and fields -/

mutual

/-- The compilation of a node. -/
def Node.emitter : Node → Emitter
  | ⟨kind, attributes, fields⟩ =>
    let node : Node := ⟨kind, attributes, fields⟩
    match kind.descriptor? with
    | some descriptor =>
      .noting (.dispatched kind descriptor) <|
        match descriptor with
        | .argument field => .argument (fieldEmitter field fields)
        | .literal field separator => .constant (node.constant field separator)
        | .unary operation field => .unary operation (fieldEmitter field fields)
        | .binary operation left right =>
          .binary operation (fieldEmitter left fields) (fieldEmitter right fields)
    | none =>
      match kind.routine? with
      | none => .unsupported kind
      | some routine =>
        .noting (.routed kind routine) <|
          match routine with
          | .param => .parameter node.declaration (fieldEmitter "default" fields)
          | .function =>
            .function (fieldEmitter "stmts" fields) (fieldEmitter "name" fields)
              (fieldEmitter "params" fields)
          | .conditional =>
            .conditional
              (⟨fieldEmitter "cond" fields, fieldEmitter "stmts" fields⟩ :: branches fields)
              (alternative fields)
          | .whileLoop =>
            .whileLoop ⟨fieldEmitter "cond" fields, fieldEmitter "stmts" fields⟩
          | .doLoop => .doLoop ⟨fieldEmitter "cond" fields, fieldEmitter "stmts" fields⟩
          | .inlineHtml => .inlineText (node.constant "value" none)

/-- The compilation of a field; a field that is missing has no code. -/
def fieldEmitter (name : String) : List (String × Child) → Emitter
  | [] => .skip
  | (other, child) :: rest =>
    if name == other then child.emitter else fieldEmitter name rest

/-- The compilation of the whole content of a field. A single literal is folded. -/
def Child.emitter : Child → Emitter
  | .null => .skip
  | .node n => n.emitter
  | .list [.scalar s] => .folded s
  | .list items => itemsEmitter items
  | .scalar s => .folded s

/-- The compilation of the items of a list, through nested lists. Literals have no effect here. -/
def itemsEmitter : List Child → Emitter
  | [] => .skip
  | .null :: rest => itemsEmitter rest
  | .node n :: rest => .append n.emitter (itemsEmitter rest)
  | .list items :: rest => .append (itemsEmitter items) (itemsEmitter rest)
  | .scalar s :: rest => .append (.dropped s) (itemsEmitter rest)

/-- A node taken as a condition with statements, whatever its kind. -/
def Node.branch : Node → Branch
  | ⟨_, _, fields⟩ => ⟨fieldEmitter "cond" fields, fieldEmitter "stmts" fields⟩

/-- The further branches of a conditional. -/
def branches : List (String × Child) → List Branch
  | [] => []
  | (name, child) :: rest => if "elseifs" == name then child.branches else branches rest

/-- The branches that stand directly in a content. -/
def Child.branches : Child → List Branch
  | .node n => [n.branch]
  | .list items => itemBranches items
  | _ => []

/-- The branches that stand directly in a list. -/
def itemBranches : List Child → List Branch
  | [] => []
  | .node n :: rest => n.branch :: itemBranches rest
  | _ :: rest => itemBranches rest

/-- The statements of a node, whatever its kind. -/
def Node.statements : Node → Emitter
  | ⟨_, _, fields⟩ => fieldEmitter "stmts" fields

/-- The statements behind all branches of a conditional. -/
def alternative : List (String × Child) → Emitter
  | [] => .skip
  | (name, child) :: rest => if "else" == name then child.alternative else alternative rest

/-- The statements of the nodes that stand directly in a content. -/
def Child.alternative : Child → Emitter
  | .node n => n.statements
  | .list items => itemAlternatives items
  | _ => .skip

/-- The statements of the nodes that stand directly in a list. -/
def itemAlternatives : List Child → Emitter
  | [] => .skip
  | .node n :: rest => .append n.statements (itemAlternatives rest)
  | _ :: rest => itemAlternatives rest

end

/-- The compilation of a statement list: every statement in the same context. -/
def compile : List Node → Emitter
  | [] => .skip
  | node :: rest => .append node.emitter (compile rest)

end Lowering
