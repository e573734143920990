import Lowering.Double.Text
import Lowering.Json
import Lowering.Text.Layout
import Lowering.Tree.Fields
import Lowering.Tree.Kind

/-!
# Syntax trees

A `Node` has a kind and named fields. A field holds nothing, a node, a list or a literal, and lists
may nest. Attributes are what a parser notes about a node beside its content (positions and such);
they have no bearing on the meaning of the tree.
-/

namespace Lowering

/-- A literal in a syntax tree. -/
inductive Scalar where
  | bool (b : Bool)
  | long (n : Int64)
  | double (x : Double)
  | string (s : String)
  deriving DecidableEq

/-- A literal as plain text. -/
def Scalar.text : Scalar → String
  | .bool b => Text.truth b
  | .long n => n.toInt.repr
  | .double x => x.text .plain
  | .string s => s

mutual

/-- The content of a field. -/
inductive Child where
  | null
  | node (n : Node)
  | list (items : List Child)
  | scalar (s : Scalar)

/-- A node of a syntax tree. -/
structure Node where
  kind : NodeKind
  attributes : List (String × Json)
  fields : List (String × Child)

end

namespace Node

/-- A node without fields. -/
def empty (kind : NodeKind) : Node :=
  ⟨kind, [], []⟩

/-- A node with one field set. -/
def set (node : Node) (name : String) (child : Child) : Node :=
  { node with fields := Fields.insert name child node.fields }

/-- The content of a field. -/
def field? (node : Node) (name : String) : Option Child :=
  node.fields.lookup name

/-- The literal in a field that holds just that. -/
def scalar? (node : Node) (name : String) : Option Scalar :=
  match node.field? name with
  | some (.scalar s) => some s
  | _ => none

/-- Whether a field holds the literal `true`. -/
def flag (node : Node) (name : String) : Bool :=
  match node.field? name with
  | some (.scalar (.bool true)) => true
  | _ => false

end Node

/-- The nodes that stand directly in a content: itself, or the items of a list. -/
def Child.nodes : Child → List Node
  | .node n => [n]
  | .list items => items.filterMap fun
    | .node n => some n
    | _ => none
  | _ => []

/-- The nodes that stand directly in a field. -/
def Node.nodes (node : Node) (name : String) : List Node :=
  ((node.field? name).map Child.nodes).getD []

end Lowering
