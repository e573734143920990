/-!
# Double-precision numbers

A `Double` is the bit pattern of an IEEE 754 binary64 number. The library writes, compares and encodes
doubles, and computes with them only where it reads them, so the pattern is all that is kept.

Apart from the sign a pattern is a number below `2^63`, its *magnitude*. Finite magnitudes count the
representable non-negative numbers in increasing order, and each stands for a whole number of the
least subnormal `2^-1074` (`units`). `ofRatio` rounds an exact fraction to a magnitude, to nearest
with ties to even, and `ofDecimal` does so for a decimal number. A product and a quotient of doubles
(`times`, `dividedBy`) are the exact ones, rounded.
-/

namespace Lowering

/-- A binary64 floating-point number, held as its 64-bit pattern. -/
structure Double where
  /-- The sign bit, eleven exponent bits and fifty-two fraction bits. -/
  bits : UInt64
  deriving DecidableEq

namespace Double

/-- The weight of the sign bit in a pattern. -/
def signWeight : Nat :=
  Nat.pow 2 63

/-- The number of patterns with the same sign and exponent bits. -/
def fractions : Nat :=
  Nat.pow 2 52

/-- How many times the least subnormal goes into one. -/
def unitsInOne : Nat :=
  Nat.pow 2 1074

/-- Whether the sign bit is set. -/
def negative (x : Double) : Bool :=
  decide (signWeight ≤ x.bits.toNat)

/-- The pattern without its sign bit. -/
def magnitude (x : Double) : Nat :=
  x.bits.toNat % signWeight

/-- The magnitude of the infinities; every larger one is a NaN. -/
def infinite : Nat :=
  2047 * fractions

/-- The double with the given sign and magnitude. -/
def ofMagnitude (negative : Bool) (magnitude : Nat) : Double :=
  ⟨UInt64.ofNat (if negative then signWeight + magnitude else magnitude)⟩

/-- Whether `x` is not a number. -/
def isNaN (x : Double) : Bool :=
  decide (infinite < x.magnitude)

/-- Whether `x` is neither infinite nor a NaN. -/
def isFinite (x : Double) : Bool :=
  decide (x.magnitude < infinite)

/-- Numeric equality: no NaN equals anything, and the two zeros are equal. -/
def same (x y : Double) : Bool :=
  !x.isNaN && (x == y || (x.magnitude == 0 && y.magnitude == 0))

/-- The binary places by which the significand of a magnitude is shifted above `2^-1074`. -/
def shift (magnitude : Nat) : Nat :=
  magnitude / fractions - 1

/-- The significand of a magnitude: below `2^53`, and at least `2^52` when `shift` is positive. -/
def significand (magnitude : Nat) : Nat :=
  magnitude - shift magnitude * fractions

/-- The number that a finite magnitude stands for, in multiples of `2^-1074`. -/
def units (magnitude : Nat) : Nat :=
  significand magnitude * Nat.pow 2 (shift magnitude)

/-- The quotient `n / d` rounded to the nearest natural number, a half to the even one. -/
def roundDiv (n d : Nat) : Nat :=
  let q := n / d
  let r := n % d
  if 2 * r < d then q
  else if d < 2 * r then q + 1
  else if q % 2 = 0 then q
  else q + 1

/-- The magnitude nearest to `n / d`, a half to the even one; what is too large is infinite.

The significand keeps fifty-three bits of the value in units of `2^-1074`. A significand that rounds
up to `2^53` carries into the next shift, since `shift * 2^52 + 2^53` is its pattern there. -/
def ofRatio (n d : Nat) : Nat :=
  let places := (n * unitsInOne / d).log2 - 52
  min infinite (places * fractions + roundDiv (n * unitsInOne) (d * Nat.pow 2 places))

/-- The magnitude nearest to `digits * 10^exponent`.

A number of at least `10^309` is infinite and one below `10^-324` is zero, which the number of
decimal digits settles without computing the power. -/
def ofDecimal (digits : Nat) (exponent : Int) : Nat :=
  let point : Int := (Nat.toDigits 10 digits).length + exponent
  if digits = 0 then 0
  else if 310 ≤ point then infinite
  else if point ≤ -324 then 0
  else ofRatio (digits * Nat.pow 10 exponent.toNat) (Nat.pow 10 (-exponent).toNat)

/-- The magnitude of the product of two finite magnitudes. -/
def times (a b : Nat) : Nat :=
  ofRatio (units a * units b) (unitsInOne * unitsInOne)

/-- The magnitude of the quotient of two finite magnitudes, the second of which is not zero. -/
def dividedBy (a b : Nat) : Nat :=
  ofRatio (units a) (units b)

/-- The double nearest to an integer. -/
def ofInt (n : Int) : Double :=
  ofMagnitude (decide (n < 0)) (ofRatio n.natAbs 1)

end Double

end Lowering
