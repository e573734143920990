import Lowering.Json

/-!
# Decimal numbers in JSON texts

A number with a fraction or an exponent is not rounded from its exact value, as `Double.ofDecimal`
does it. Its digits are gathered into a word of 64 bits, the word is made a double, and the double is
multiplied or divided by a power of ten. Each of these steps rounds, so that the last place of the
result may be off. With few digits and a small exponent no step but the last has anything to round.
-/

namespace Lowering.Json

/-! ## Digits -/

/-- A number with another decimal digit behind its digits. -/
def appendDigit (word : Nat) (digit : Char) : Nat :=
  10 * word + (digit.toNat - '0'.toNat)

/-- Gathers digits behind those of a word until there is no room for one of them in 64 bits, and
returns the digits from that one on as well. -/
def gather (word : Nat) : List Char → Nat × List Char
  | [] => (word, [])
  | digit :: rest =>
    if appendDigit word digit < unsignedBound then gather (appendDigit word digit) rest
    else (word, digit :: rest)

/-! ## Powers of ten -/

/-- The exponent of the largest power of ten among the doubles. -/
def maxPower : Nat := 308

/-- The magnitude of a power of ten. -/
def powerOfTen (power : Nat) : Nat :=
  Double.ofRatio (Nat.pow 10 power) 1

/-- A magnitude divided by a power of ten. It is divided by the largest one again and again while the
power is still larger, unless nothing is left of it. -/
def divide (magnitude power : Nat) : Nat :=
  if power ≤ maxPower then Double.dividedBy magnitude (powerOfTen power)
  else if magnitude = 0 then 0
  else divide (Double.dividedBy magnitude (powerOfTen maxPower)) (power - maxPower)
termination_by power
decreasing_by simp only [maxPower] at *; omega

/-- A magnitude multiplied by a power of ten; one that is too large is none. -/
def multiply? (magnitude power : Nat) : Option Nat :=
  if power ≤ maxPower then
    let product := Double.times magnitude (powerOfTen power)
    if product < Double.infinite then some product else none
  else if magnitude = 0 then some 0
  else none

/-- A magnitude times a power of ten with any exponent. -/
def scale? (magnitude : Nat) : Int → Option Nat
  | .ofNat power => multiply? magnitude power
  | .negSucc power => some (divide magnitude (power + 1))

/-! ## Numbers -/

/-- The bound of the exponents that a text may spell out. -/
def exponentBound : Nat := 0x80000000

/-- The magnitude of a number from its digits in front of the point and behind it and its exponent.

There is one word for all digits. Those in front of the point for which there is no room count as
zeros, and those behind it are left out, which does not keep a digit behind the point from being
gathered where one in front of it was not. -/
def decimal? (whole fraction : List Char) (exponent : Option Int) : Option Nat :=
  let (word, zeros) := gather 0 whole
  let (word, ignored) := gather word fraction
  let point : Int := zeros.length - (fraction.length - ignored.length : Nat)
  match exponent with
  | none => scale? (Double.ofRatio word 1) point
  | some exponent =>
    if exponent.natAbs < exponentBound then scale? (Double.ofRatio word 1) (point + exponent)
    else if 0 < exponent ∧ word ≠ 0 then none
    else some 0

end Lowering.Json
