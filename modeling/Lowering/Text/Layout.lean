/-!
# Columns and braces

Padding to a width counts characters; a text that is already wide enough is left alone.
-/

namespace Lowering.Text

/-- Fills a text up to `width` characters from the left. -/
def padLeft (fill : Char) (width : Nat) (s : String) : String :=
  String.ofList (List.replicate (width - s.length) fill) ++ s

/-- Fills a text up to `width` characters with spaces on the right. -/
def padRight (width : Nat) (s : String) : String :=
  s ++ String.ofList (List.replicate (width - s.length) ' ')

/-- A decimal numeral of at least four digits. -/
def fourDigits (n : Nat) : String :=
  padLeft '0' 4 n.repr

/-- A name with labelled parts in braces behind it. -/
def braced (name : String) (parts : List (String × String)) : String :=
  let inner := ", ".intercalate (parts.map fun (label, text) => label ++ ": " ++ text)
  name ++ " \x7b " ++ inner ++ " \x7d"

/-- A name with one part in parentheses behind it. -/
def wrapped (name part : String) : String :=
  name ++ "(" ++ part ++ ")"

/-- Parts between square brackets. -/
def bracketed (parts : List String) : String :=
  "[" ++ ", ".intercalate parts ++ "]"

/-- A truth value. -/
def truth (b : Bool) : String :=
  if b then "true" else "false"

/-- Something that may be absent. -/
def optional : Option String → String
  | none => "None"
  | some text => wrapped "Some" text

end Lowering.Text
