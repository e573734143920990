import Lowering.Double.Shortest

/-!
# Texts of doubles

Three ways of writing a double share the shortest digits and differ in the decisions that a `Style`
records: which decimal exponents are written positionally, whether a whole number ends in `.0`, and
whether a positive exponent carries a sign. `ofText?` reads the usual spellings back.
-/

namespace Lowering.Double

/-- The decisions of a textual form of doubles. -/
structure Style where
  /-- The least and greatest decimal exponents written positionally; all of them when absent. -/
  positional : Option (Int × Int)
  /-- What follows a whole number in positional form. -/
  whole : String
  /-- What stands before a positive exponent. -/
  plus : String
  /-- The choice between two equally near shortest decimals. -/
  tie : Tie

/-- Always positional and without a fraction for whole numbers: `1`, `-0`, `0.0000001`. -/
def Style.plain : Style :=
  ⟨none, "", "", .up⟩

/-- Whole numbers end in `.0`, and numbers from `10^16` on or below `10^-4` carry an exponent. -/
def Style.exponential : Style :=
  ⟨some (-4, 15), ".0", "", .up⟩

/-- The form of a number in a JSON text: positional from `10^-5` up to `10^16`, always with a
fraction or an exponent, and with a sign before positive exponents. -/
def Style.json : Style :=
  ⟨some (-5, 15), ".0", "+", .even⟩

/-- Decimal digits with the point after `point` of them, filled up with zeros on either side. -/
def positionalText (whole : String) (digits : List Char) (point : Int) : String :=
  if point ≤ 0 then
    "0." ++ String.ofList (List.replicate (-point).toNat '0' ++ digits)
  else if digits.length ≤ point.toNat then
    String.ofList (digits ++ List.replicate (point.toNat - digits.length) '0') ++ whole
  else
    String.ofList (digits.take point.toNat) ++ "." ++ String.ofList (digits.drop point.toNat)

/-- Decimal digits with the point after the first of them and an exponent. -/
def exponentText (plus : String) (digits : List Char) (point : Int) : String :=
  let fraction := if digits.length ≤ 1 then "" else "." ++ String.ofList (digits.drop 1)
  let exponent := point - 1
  let sign := if exponent < 0 then "-" else plus
  String.ofList (digits.take 1) ++ fraction ++ "e" ++ sign ++ exponent.natAbs.repr

/-- The text of a positive or zero finite magnitude. -/
def magnitudeText (style : Style) (magnitude : Nat) : String :=
  if magnitude = 0 then positionalText style.whole ['0'] 1
  else
    let decimal := shortest style.tie magnitude
    let exponent := decimal.point - 1
    match style.positional with
    | none => positionalText style.whole decimal.text decimal.point
    | some (least, greatest) =>
      if least ≤ exponent ∧ exponent ≤ greatest then
        positionalText style.whole decimal.text decimal.point
      else exponentText style.plus decimal.text decimal.point

/-- The text of a double. -/
def text (style : Style) (x : Double) : String :=
  if x.isNaN then "NaN"
  else
    let sign := if x.negative then "-" else ""
    sign ++ if x.isFinite then magnitudeText style x.magnitude else "inf"

/-! ## Reading -/

/-- Splits digits off the front of a text. -/
def takeDigits (cs : List Char) : List Char × List Char :=
  (cs.takeWhile Char.isDigit, cs.dropWhile Char.isDigit)

/-- An exponent mark with an optionally signed number behind it, up to the end of the text; an empty
text is the exponent zero. -/
def exponent? : List Char → Option Int
  | [] => some 0
  | mark :: rest =>
    if mark = 'e' ∨ mark = 'E' then
      let (negative, digits) := match rest with
        | '-' :: ds => (true, ds)
        | '+' :: ds => (false, ds)
        | ds => (false, ds)
      if digits.isEmpty ∨ ¬ digits.all Char.isDigit then none
      else
        let n : Int := Nat.ofDigitChars 10 digits 0
        some (if negative then -n else n)
    else none

/-- The magnitude of an unsigned decimal text: digits with an optional point among them, at least
one digit, and an optional exponent. -/
def magnitudeOfText? (cs : List Char) : Option Nat :=
  let (whole, rest) := takeDigits cs
  let (fraction, rest) := match rest with
    | '.' :: ds => takeDigits ds
    | ds => ([], ds)
  if whole.isEmpty && fraction.isEmpty then none
  else
    (exponent? rest).map fun exponent =>
      ofDecimal (Nat.ofDigitChars 10 (whole ++ fraction) 0) (exponent - fraction.length)

/-- The double that a text spells: a decimal number, `inf`, `infinity` or `nan` in any case, with an
optional sign. -/
def ofText? (s : String) : Option Double :=
  let (negative, body) := match s.toList with
    | '-' :: cs => (true, cs)
    | '+' :: cs => (false, cs)
    | cs => (false, cs)
  let word := String.ofList (body.map Char.toLower)
  if word = "inf" ∨ word = "infinity" then some (ofMagnitude negative infinite)
  else if word = "nan" then some (ofMagnitude negative (infinite + fractions / 2))
  else (magnitudeOfText? body).map (ofMagnitude negative)

end Lowering.Double
