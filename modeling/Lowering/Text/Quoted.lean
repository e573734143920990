import Lowering.Text.Hidden

/-!
# Quoted texts

A quoted text stands between double quotes. The quote, the backslash, the usual control characters
and every character without a visible form are written as escapes, so a quoted text never breaks a
line and shows all of its content.
-/

namespace Lowering.Text

/-- A hexadecimal numeral in lower case. -/
def hex (n : Nat) : String :=
  String.ofList (Nat.toDigits 16 n)

/-- One character of a quoted text. -/
def quotedChar (c : Char) : String :=
  match c with
  | '"' => "\\\""
  | '\\' => "\\\\"
  | '\n' => "\\n"
  | '\r' => "\\r"
  | '\t' => "\\t"
  | '\x00' => "\\0"
  | c => if isHidden c then "\\u\x7b" ++ hex c.toNat ++ "\x7d" else c.toString

/-- A text between double quotes with its escapes. -/
def quoted (s : String) : String :=
  "\"" ++ String.join (s.toList.map quotedChar) ++ "\""

end Lowering.Text
