import Lowering.Double

/-!
# The shortest decimal that reads back

The digits written for a double are the fewest that read back as the same double, and among those
the nearest to it. For each number of digits there are two candidates, the value's neighbours on the
grid of that many digits, and a candidate is taken when `Double.ofDecimal` returns the magnitude it
was made from. The first count of digits with a hit wins.

`Tie` settles the one freedom that is left: both neighbours read back and the value lies exactly
halfway between them.
-/

namespace Lowering.Double

/-- Which neighbour is taken when a value lies exactly between two shortest decimals. -/
inductive Tie where
  /-- The larger magnitude. -/
  | up
  /-- The one whose last digit is even. -/
  | even
  deriving DecidableEq

/-- A decimal number `digits * 10^exponent`. -/
structure Decimal where
  digits : Nat
  exponent : Int
  deriving DecidableEq

namespace Decimal

/-- The magnitude that a decimal number reads as. -/
def read (d : Decimal) : Nat :=
  ofDecimal d.digits d.exponent

/-- The digits without trailing zeros; a number without any other digit keeps none. -/
def text (d : Decimal) : List Char :=
  ((Nat.toDigits 10 d.digits).reverse.dropWhile (· == '0')).reverse

/-- The place of the decimal point, counted from before the first digit. -/
def point (d : Decimal) : Int :=
  (Nat.toDigits 10 d.digits).length + d.exponent

end Decimal

/-- The place of the decimal point in front of which the first digit of a positive finite magnitude
stands, counted as in `Decimal.point`. The least positive double exceeds `10^-330`. -/
def leadingPoint (magnitude : Nat) : Int :=
  (Nat.toDigits 10 (units magnitude * Nat.pow 10 330 / unitsInOne)).length - 330

/-- Of the two neighbours of a magnitude on a grid, the one that reads back as it; if both do,
`takeAbove` decides. -/
def readingBack? (magnitude : Nat) (takeAbove : Bool) (below above : Decimal) : Option Decimal :=
  match below.read == magnitude, above.read == magnitude with
  | true, true => some (if takeAbove then above else below)
  | true, false => some below
  | false, true => some above
  | false, false => none

/-- The neighbour of a magnitude on the grid of `count` significant digits that reads back as it;
of two, the nearer one. -/
def nearest? (tie : Tie) (magnitude count : Nat) : Option Decimal :=
  let exponent := leadingPoint magnitude - count
  let n := units magnitude * Nat.pow 10 (-exponent).toNat
  let d := unitsInOne * Nat.pow 10 exponent.toNat
  let below := n / d
  let rest := n % d
  let takeAbove := decide (d < 2 * rest) ||
    (decide (2 * rest = d) && (tie == .up || below % 2 == 1))
  readingBack? magnitude takeAbove ⟨below, exponent⟩ ⟨below + 1, exponent⟩

/-- The exact decimal value of a finite magnitude. -/
def exact (magnitude : Nat) : Decimal :=
  ⟨units magnitude * Nat.pow 5 1074, -1074⟩

/-- The shortest decimal that reads back as a positive finite magnitude. Seventeen digits always
suffice; the exact value stands behind them so that the result reads back by construction. -/
def shortest (tie : Tie) (magnitude : Nat) : Decimal :=
  ((List.range' 1 17).findSome? (nearest? tie magnitude)).getD (exact magnitude)

end Lowering.Double
