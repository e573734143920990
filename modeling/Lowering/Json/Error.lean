import Lowering.Json.Reader
import Lowering.Double.Text
import Lowering.Text.Layout
import Lowering.Text.Quoted

/-!
# What can be wrong with a JSON text

A text is refused because it is not JSON (`ReadError.text`) or because its values do not have the
shape that was asked for (`ReadError.data`). The second kind names what was found and what was
expected in its place.
-/

namespace Lowering.Json

/-- What was found in place of something else. -/
inductive Found where
  | integer (n : Int)
  | double (x : Double)
  | boolean (b : Bool)
  | string (s : String)
  | null
  | object
  | array
  /-- The bare name of an alternative that carries content. -/
  | bareVariant

/-- The wording of what was found; a double is worded as JSON writes it. -/
def Found.text : Found → String
  | .integer n => "integer `" ++ n.repr ++ "`"
  | .double x => "floating point `" ++ x.text .json ++ "`"
  | .boolean b => "boolean `" ++ Text.truth b ++ "`"
  | .string s => "string " ++ Text.quoted s
  | .null => "null"
  | .object => "map"
  | .array => "sequence"
  | .bareVariant => "unit variant"

/-- A way in which a value misses the shape that was asked for. -/
inductive Mismatch where
  | missingField (name : String)
  | duplicateField (name : String)
  | invalidType (found : Found) (expected : String)
  | invalidValue (found : Found) (expected : String)
  | invalidLength (length : Nat) (expected : String)
  | unknownVariant (name : String) (known : List String)
  /-- A field of a syntax node holds something that is no content of a field. -/
  | noSuchChild

/-- The wording of a mismatch. -/
def Mismatch.message : Mismatch → String
  | .missingField name => "missing field `" ++ name ++ "`"
  | .duplicateField name => "duplicate field `" ++ name ++ "`"
  | .invalidType found expected => "invalid type: " ++ found.text ++ ", expected " ++ expected
  | .invalidValue found expected => "invalid value: " ++ found.text ++ ", expected " ++ expected
  | .invalidLength length expected =>
    "invalid length " ++ length.repr ++ ", expected " ++ expected
  | .unknownVariant name known =>
    "unknown variant `" ++ name ++ "`, expected one of " ++
      ", ".intercalate (known.map fun v => "`" ++ v ++ "`")
  | .noSuchChild => "data did not match any variant of untagged enum Child"

/-- Why a text is refused. -/
inductive ReadError where
  | text (cause : Cause)
  | data (mismatch : Mismatch)

/-- Refuses a value that is not of the expected kind. Where the text itself goes wrong, that is the
reason. -/
def refuse (expected : String) : Json → ReadError
  | .null => .data (.invalidType .null expected)
  | .bool b => .data (.invalidType (.boolean b) expected)
  | .number (.int n) => .data (.invalidType (.integer n) expected)
  | .number (.double x) => .data (.invalidType (.double x) expected)
  | .string s => .data (.invalidType (.string s) expected)
  | .array _ _ => .data (.invalidType .array expected)
  | .object _ _ => .data (.invalidType .object expected)
  | .unreadable fault => .text fault.reading

/-- Goes on unless a fault of the text was met. -/
def proceed : Option Cause → Except ReadError Unit
  | none => .ok ()
  | some cause => .error (.text cause)

/-- Reads a whole text with a reader of values; nothing may follow the value. -/
def readText {α : Type} (reader : Nat → Json → Except ReadError α) (text : String) :
    Except ReadError α := do
  let document := read text
  let result ← reader nestingLimit document.root
  if document.surplus then .error (.text .malformed)
  return result

/-- A text is read if its value is and nothing but blanks follows. -/
theorem readText_eq_ok_iff {α : Type} {reader : Nat → Json → Except ReadError α} {text : String}
    {a : α} : readText reader text = .ok a ↔
      reader nestingLimit (read text).root = .ok a ∧ (read text).surplus = false := by
  unfold readText
  dsimp only
  rcases reader nestingLimit (read text).root with e | result
  · simp [bind, Except.bind]
  · rcases hsurplus : (read text).surplus <;> simp [bind, Except.bind, pure, Except.pure]

end Lowering.Json
