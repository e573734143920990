import Lowering.Json.Printer
import Lowering.Tree.Reader

/-!
# Writing syntax trees

The JSON form of a node is an object with the kind's tag as `nodeType`, followed by the fields in
order of their names. Attributes are not written.
-/

namespace Lowering

/-- A literal as a JSON value. -/
def Scalar.toJson : Scalar → Json
  | .bool b => .bool b
  | .long n => .int n.toInt
  | .double x => .number (.double x)
  | .string s => .string s

mutual

/-- The JSON form of the content of a field. -/
def Child.toJson : Child → Json
  | .null => .null
  | .node ⟨kind, _, fields⟩ =>
    .record ((Node.kindName, .string kind.tag) :: fieldsToJson fields)
  | .list items => .list (childrenToJson items)
  | .scalar s => s.toJson

/-- The JSON forms of the contents of a list. -/
def childrenToJson : List Child → List Json
  | [] => []
  | child :: rest => child.toJson :: childrenToJson rest

/-- The members that the fields of a node become. -/
def fieldsToJson : List (String × Child) → List (String × Json)
  | [] => []
  | (name, child) :: rest => (name, child.toJson) :: fieldsToJson rest

end

/-- The JSON form of a node. -/
def Node.toJson (node : Node) : Json :=
  .record ((Node.kindName, .string node.kind.tag) :: fieldsToJson node.fields)

/-- The text of a node, without blanks. -/
def Node.text (node : Node) : String :=
  node.toJson.compact

end Lowering
