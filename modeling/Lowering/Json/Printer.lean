import Lowering.Json
import Lowering.Double.Text
import Lowering.Text.Quoted
import Lowering.Text.Layout

/-!
# Writing JSON texts

`Json.compact` writes a value without blanks and `Json.pretty` with one entry to a line, indented by
two spaces for each level. Strings escape what the grammar asks for and nothing else. A double that is
not finite has no JSON form and is written `null`; so is a value that was never completely read.
-/

namespace Lowering.Json

/-- One character of a JSON string. -/
def escapedChar (c : Char) : String :=
  match c with
  | '"' => "\\\""
  | '\\' => "\\\\"
  | '\x08' => "\\b"
  | '\x0c' => "\\f"
  | '\n' => "\\n"
  | '\r' => "\\r"
  | '\t' => "\\t"
  | c => if c.toNat < 0x20 then "\\u" ++ Text.padLeft '0' 4 (Text.hex c.toNat) else c.toString

/-- A JSON string. -/
def stringText (s : String) : String :=
  "\"" ++ String.join (s.toList.map escapedChar) ++ "\""

/-- A JSON number. -/
def Number.text : Number → String
  | .int n => n.repr
  | .double x => if x.isFinite then x.text .json else "null"

/-- A value that is no container. -/
def scalarText : Json → String
  | .bool b => Text.truth b
  | .number n => n.text
  | .string s => stringText s
  | _ => "null"

mutual

/-- The text of a value without blanks. -/
def compact : Json → String
  | .array items _ => "[" ++ ",".intercalate (compactItems items) ++ "]"
  | .object members _ => "\x7b" ++ ",".intercalate (compactMembers members) ++ "\x7d"
  | scalar => scalarText scalar

/-- The texts of the items of an array. -/
def compactItems : List Json → List String
  | [] => []
  | item :: rest => compact item :: compactItems rest

/-- The texts of the members of an object. -/
def compactMembers : List (String × Json) → List String
  | [] => []
  | (name, value) :: rest => (stringText name ++ ":" ++ compact value) :: compactMembers rest

end

/-- The blanks in front of a line at a level of nesting. -/
def indentation (level : Nat) : String :=
  String.ofList (List.replicate (2 * level) ' ')

/-- Entries of a container at a level of nesting, one to a line, between its brackets. -/
def block (level : Nat) (opening closing : String) (entries : List String) : String :=
  if entries.isEmpty then opening ++ closing
  else
    let lines := entries.map (indentation (level + 1) ++ ·)
    opening ++ "\n" ++ ",\n".intercalate lines ++ "\n" ++ indentation level ++ closing

mutual

/-- The text of a value at a level of nesting, one entry to a line. -/
def prettyAt (level : Nat) : Json → String
  | .array items _ => block level "[" "]" (prettyItems (level + 1) items)
  | .object members _ => block level "\x7b" "\x7d" (prettyMembers (level + 1) members)
  | scalar => scalarText scalar

/-- The texts of the items of an array. -/
def prettyItems (level : Nat) : List Json → List String
  | [] => []
  | item :: rest => prettyAt level item :: prettyItems level rest

/-- The texts of the members of an object. -/
def prettyMembers (level : Nat) : List (String × Json) → List String
  | [] => []
  | (name, value) :: rest =>
    (stringText name ++ ": " ++ prettyAt level value) :: prettyMembers level rest

end

/-- The text of a value, one entry to a line. -/
def pretty (j : Json) : String :=
  prettyAt 0 j

end Lowering.Json
