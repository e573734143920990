import Lowering.Json.Error
import Lowering.Tree.Node

/-!
# Reading syntax trees

A node is a JSON object with a string `nodeType`, optionally an object `attributes`, and its fields as
the other members. A field holds `null`, a literal, a list or a node; of a repeated field the last one
counts, though all of them must be readable.

What a value stands for is found by trial: the contents, and among them the literals, are tried in a
fixed order, and the first that the value can be is taken.

`Node.ofJson?` says which values are nodes. `Node.read` finds the reason when one is not: faults and
the node's own members are met in the order of the text, and what stands in its fields is looked at
last.
-/

namespace Lowering

namespace Json

mutual

/-- A value with the members of its objects in order of their names, the last of equal ones kept. -/
def canonical : Json → Json
  | .array items _ => .list (canonicalItems items)
  | .object members _ => .record (Fields.ofList (canonicalMembers members))
  | scalar => scalar

/-- The items of an array in canonical form. -/
def canonicalItems : List Json → List Json
  | [] => []
  | item :: rest => canonical item :: canonicalItems rest

/-- The members of an object with their values in canonical form. -/
def canonicalMembers : List (String × Json) → List (String × Json)
  | [] => []
  | (name, value) :: rest => (name, canonical value) :: canonicalMembers rest

end

/-- The truth value that a value is. -/
def bool? : Json → Option Bool
  | .bool b => some b
  | _ => none

/-- The integer of 64 signed bits that a value is. -/
def long? : Json → Option Int64
  | .number (.int n) =>
    if -signedBound ≤ n ∧ n < signedBound then some (Int64.ofInt n) else none
  | _ => none

/-- The double that a value is; an integer is taken for the nearest one. -/
def double? : Json → Option Double
  | .number (.int n) => some (Double.ofInt n)
  | .number (.double x) => some x
  | _ => none

/-- The string that a value is. -/
def string? : Json → Option String
  | .string s => some s
  | _ => none

end Json

/-- The literal that a value is. What it may be is tried one after another, so that an integer is a
double only if it does not fit 64 signed bits. -/
def Scalar.ofJson? (value : Json) : Option Scalar :=
  value.bool?.map .bool <|> value.long?.map .long <|> value.double?.map .double <|>
    value.string?.map .string

/-- The member that names the kind of a node. -/
def Node.kindName : String := "nodeType"

/-- The member that holds the attributes of a node. -/
def Node.attributesName : String := "attributes"

/-- The parts of a node met so far in a JSON object. -/
structure Node.Draft where
  kind : Option NodeKind := none
  attributes : Option (List (String × Json)) := none
  fields : List (String × Child) := []

/-- A node from its parts, once its kind is known. -/
def Node.Draft.finish (draft : Node.Draft) : Option Node :=
  draft.kind.map fun kind => ⟨kind, draft.attributes.getD [], draft.fields⟩

mutual

/-- The content of a field, if a value is one: nothing, a node, a list or a literal, which are tried
one after another. -/
def Child.ofJson? (value : Json) : Option Child :=
  (match value with
    | .null => some .null
    | _ => none) <|>
  (match value with
    | .object members _ => ((draftOfJson? members {}).bind Node.Draft.finish).map .node
    | _ => none) <|>
  (match value with
    | .array items _ => (childrenOfJson? items).map .list
    | _ => none) <|>
  (Scalar.ofJson? value).map .scalar

/-- The contents of a list, if every item is one. -/
def childrenOfJson? : List Json → Option (List Child)
  | [] => some []
  | item :: rest =>
    match Child.ofJson? item, childrenOfJson? rest with
    | some child, some children => some (child :: children)
    | _, _ => none

/-- The parts of a node that the members of an object add to a draft. -/
def draftOfJson? : List (String × Json) → Node.Draft → Option Node.Draft
  | [], draft => some draft
  | (name, value) :: rest, draft =>
    if name = Node.kindName then
      match draft.kind, value with
      | none, .string tag => draftOfJson? rest { draft with kind := some (NodeKind.ofTag tag) }
      | _, _ => none
    else if name = Node.attributesName then
      match draft.attributes, value with
      | none, .object members _ =>
        let attributes := Fields.ofList (Json.canonicalMembers members)
        draftOfJson? rest { draft with attributes := some attributes }
      | _, _ => none
    else
      match Child.ofJson? value with
      | some child => draftOfJson? rest { draft with fields := Fields.insert name child draft.fields }
      | none => none

end

/-- The node that a value is, if it is one. -/
def Node.ofJson? : Json → Option Node
  | .object members _ => (draftOfJson? members {}).bind Node.Draft.finish
  | _ => none

open Json in
/-- Looks through the members of a node in the order of the text, with `depth` levels of containers
left; `hasKind` and `hasAttributes` tell which of its own members have been met. Returns whether there
is a kind. -/
def Node.checkMembers (depth : Nat) :
    List (String × Json) → (hasKind hasAttributes : Bool) → Except ReadError Bool
  | [], hasKind, _ => .ok hasKind
  | (name, value) :: rest, hasKind, hasAttributes =>
    if name = Node.kindName then
      if hasKind then .error (.data (.duplicateField name))
      else
        match value with
        | .string _ => checkMembers depth rest true hasAttributes
        | value => .error (refuse "a string" value)
    else if name = Node.attributesName then
      if hasAttributes then .error (.data (.duplicateField name))
      else
        match value with
        | .object _ _ => do
          proceed (readFault depth value)
          checkMembers depth rest hasKind true
        | value => .error (refuse "a map" value)
    else do
      proceed (readFault depth value)
      checkMembers depth rest hasKind hasAttributes

open Json in
/-- Reads a node, with `depth` levels of containers left. -/
def Node.read (depth : Nat) (value : Json) : Except ReadError Node :=
  match value with
  | .object members ending =>
    match depth with
    | 0 => .error (.text .malformed)
    | depth + 1 => do
      let hasKind ← Node.checkMembers depth members false false
      proceed ending.reading
      if !hasKind then .error (.data (.missingField Node.kindName))
      match Node.ofJson? value with
      | some node => .ok node
      | none => .error (.data .noSuchChild)
  | value => .error (refuse "struct Node" value)

open Json in
/-- Reads a list of nodes up to its end. -/
def Node.readAll (depth : Nat) (ending : Ending) : List Json → Except ReadError (List Node)
  | [] => (proceed ending.reading).map fun _ => []
  | item :: rest => do
    let node ← Node.read depth item
    let nodes ← Node.readAll depth ending rest
    return node :: nodes

open Json in
/-- Reads a statement list, with `depth` levels of containers left. -/
def Node.readStatements (depth : Nat) : Json → Except ReadError (List Node)
  | .array items ending =>
    match depth with
    | 0 => .error (.text .malformed)
    | depth + 1 => Node.readAll depth ending items
  | value => .error (refuse "a sequence" value)

/-- The node that a text holds. -/
def Node.ofText (text : String) : Except Json.ReadError Node :=
  Json.readText Node.read text

/-- The statement list that a text holds. -/
def statementsOfText (text : String) : Except Json.ReadError (List Node) :=
  Json.readText Node.readStatements text

end Lowering
