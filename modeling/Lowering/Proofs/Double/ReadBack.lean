import Mathlib.Data.Nat.Init
import Mathlib.Data.Nat.Log
import Mathlib.Algebra.Order.Ring.Nat
import Lowering.Double.Text

/-!
# Doubles read back

A decimal number is rounded to a double by its value alone: scaling both sides of a fraction does
not change it (`ofRatio_eq_of_mul_eq`), nor does moving zeros between the digits and the exponent
(`ofDecimal_mul_pow`). The value of a finite double is rounded to that double (`ofRatio_units`), so
the decimal that is written for it reads back (`read_shortest`): either it was tried, or it is the
exact value.

The text of a double is a `Numeral`, digits with a fraction or an exponent, and
`magnitudeText_numeral` says that it stands for the magnitude that it was made from.
-/

namespace Lowering.Double

/-! ## Rounding -/

/-- A significand has fifty-two bits behind its first. -/
theorem fractions_eq : fractions = 2 ^ 52 := rfl

/-- One is more than nothing. -/
theorem unitsInOne_pos : 0 < unitsInOne := by decide +kernel

/-- A fraction is rounded by its value. -/
theorem roundDiv_mul (n d : Nat) {k : Nat} (hk : 0 < k) :
    roundDiv (n * k) (d * k) = roundDiv n d := by
  have hhalf : ∀ {a b : Nat}, 2 * (a * k) < b * k ↔ 2 * a < b := by
    intro a b
    rw [← Nat.mul_assoc]
    exact Nat.mul_lt_mul_right hk
  have hhalf' : ∀ {a b : Nat}, b * k < 2 * (a * k) ↔ b < 2 * a := by
    intro a b
    rw [← Nat.mul_assoc]
    exact Nat.mul_lt_mul_right hk
  unfold roundDiv
  simp only [Nat.mul_div_mul_right n d hk, Nat.mul_mod_mul_right k n d, hhalf, hhalf']

/-- What is a whole number is not rounded. -/
theorem roundDiv_mul_self (q : Nat) {d : Nat} (hd : 0 < d) : roundDiv (q * d) d = q := by
  unfold roundDiv
  simp only [Nat.mul_div_cancel q hd, Nat.mul_mod_left, Nat.mul_zero, if_pos hd]

/-- A ratio may be extended. -/
theorem ofRatio_mul (n d : Nat) {k : Nat} (hk : 0 < k) : ofRatio (n * k) (d * k) = ofRatio n d := by
  unfold ofRatio
  dsimp only
  rw [Nat.mul_right_comm n k, Nat.mul_div_mul_right _ d hk, Nat.mul_right_comm d k,
    roundDiv_mul _ _ hk]

/-- Equal fractions are rounded to the same magnitude. -/
theorem ofRatio_eq_of_mul_eq {n d n' d' : Nat} (hd : 0 < d) (hd' : 0 < d')
    (h : n * d' = n' * d) : ofRatio n d = ofRatio n' d' :=
  calc ofRatio n d = ofRatio (n * d') (d * d') := (ofRatio_mul n d hd').symm
    _ = ofRatio (n' * d) (d' * d) := by rw [h, Nat.mul_comm d d']
    _ = ofRatio n' d' := ofRatio_mul n' d' hd

/-- Rounding goes at most one up. -/
theorem roundDiv_bounds (n d : Nat) : n / d ≤ roundDiv n d ∧ roundDiv n d ≤ n / d + 1 := by
  unfold roundDiv
  dsimp only
  split
  · omega
  · split
    · omega
    · split <;> omega

/-- A number with so few bits that there is a place for them is not rounded to infinity. -/
theorem ofRatio_lt_infinite {n d : Nat} (h : (n * unitsInOne / d).log2 ≤ 2096) :
    ofRatio n d < infinite := by
  unfold ofRatio
  dsimp only
  have hround := (roundDiv_bounds (n * unitsInOne) (d * Nat.pow 2 ((n * unitsInOne / d).log2 - 52))).2
  rw [← Nat.div_div_eq_div_mul] at hround
  generalize n * unitsInOne / d = value at h hround ⊢
  have hbits : value / Nat.pow 2 (value.log2 - 52) < 2 ^ 53 := by
    refine (Nat.div_lt_iff_lt_mul (Nat.pow_pos (by decide))).mpr ?_
    calc value < 2 ^ (value.log2 + 1) := Nat.lt_log2_self
      _ ≤ 2 ^ (53 + (value.log2 - 52)) := Nat.pow_le_pow_right (by decide) (by omega)
      _ = 2 ^ 53 * 2 ^ (value.log2 - 52) := Nat.pow_add ..
  unfold infinite
  rw [fractions_eq] at *
  omega

/-- The units in one are a power of two. -/
theorem exists_unitsInOne_eq : ∃ places, 52 ≤ places ∧ places ≤ 1074 ∧ unitsInOne = 2 ^ places :=
  ⟨1074, by decide, Nat.le_refl _, by decide +kernel⟩

/-- A whole number that is not too large is not rounded to infinity. -/
theorem ofRatio_one_lt_infinite {n bits : Nat} (hn : n < 2 ^ bits) (hbits : bits ≤ 1023) :
    ofRatio n 1 < infinite := by
  refine ofRatio_lt_infinite ?_
  obtain ⟨places, -, hplaces, hone⟩ := exists_unitsInOne_eq
  rcases Nat.eq_zero_or_pos n with rfl | hpos
  · simp
  · have hne : n * 2 ^ places ≠ 0 := (Nat.mul_pos hpos (Nat.pow_pos (by decide))).ne'
    have hlt : n * 2 ^ places < 2 ^ (bits + places) := by
      rw [Nat.pow_add]
      exact Nat.mul_lt_mul_of_pos_right hn (Nat.pow_pos (by decide))
    have hlog := (Nat.log2_lt hne).mpr hlt
    rw [Nat.div_one, hone]
    omega

/-! ## The value of a magnitude -/

/-- A magnitude is made up of its shift and its significand. -/
theorem shift_add_significand (magnitude : Nat) :
    shift magnitude * fractions + significand magnitude = magnitude := by
  have hdiv := Nat.div_mul_le_self magnitude fractions
  have hle : shift magnitude * fractions ≤ magnitude :=
    Nat.le_trans (Nat.mul_le_mul_right _ (Nat.sub_le _ 1)) hdiv
  unfold significand
  omega

/-- A significand has fifty-three bits at most. -/
theorem significand_lt (magnitude : Nat) : significand magnitude < 2 ^ 53 := by
  unfold significand shift
  rw [fractions_eq]
  omega

/-- A significand that is shifted has its leading bit. -/
theorem le_significand {magnitude : Nat} (h : 0 < shift magnitude) :
    2 ^ 52 ≤ significand magnitude := by
  unfold shift at h
  unfold significand shift
  rw [fractions_eq] at *
  omega

/-- A finite double is shifted by less than its exponent could say. -/
theorem shift_le {magnitude : Nat} (h : magnitude < infinite) : shift magnitude ≤ 2045 := by
  unfold infinite at h
  unfold shift
  rw [fractions_eq] at *
  omega

/-- A double other than zero has units. -/
theorem units_pos {magnitude : Nat} (h : 0 < magnitude) : 0 < units magnitude := by
  refine Nat.mul_pos ?_ (Nat.pow_pos (by decide))
  rcases Nat.eq_zero_or_pos (shift magnitude) with hzero | hpos
  · have hsum := shift_add_significand magnitude
    rw [hzero, Nat.zero_mul, Nat.zero_add] at hsum
    rwa [hsum]
  · exact Nat.lt_of_lt_of_le (by decide) (le_significand hpos)

/-- A magnitude that is shifted by some places has its leading bit above them. -/
theorem pow_le_units {places magnitude : Nat} (h : (places + 1) * fractions ≤ magnitude) :
    2 ^ (52 + places) ≤ units magnitude := by
  have hplaces : places ≤ shift magnitude := by
    unfold shift
    rw [fractions_eq] at *
    omega
  have hleading : 2 ^ 52 ≤ significand magnitude := by
    rcases Nat.eq_zero_or_pos (shift magnitude) with hzero | hpos
    · have hsum := shift_add_significand magnitude
      rw [hzero] at hsum hplaces
      rw [fractions_eq] at *
      omega
    · exact le_significand hpos
  rw [units, Nat.pow_add]
  exact Nat.mul_le_mul hleading (Nat.pow_le_pow_right (by decide) hplaces)

/-- A whole number is not rounded to less than a power of two below it. -/
theorem pow_le_units_ofRatio {n bits : Nat} (hn : 2 ^ bits ≤ n) (hbits : bits ≤ 1023) :
    2 ^ bits * unitsInOne ≤ units (ofRatio n 1) := by
  obtain ⟨point, hlow, hhigh, hone⟩ := exists_unitsInOne_eq
  have hvalue : 2 ^ (bits + point) ≤ n * unitsInOne := by
    rw [hone, Nat.pow_add]
    exact Nat.mul_le_mul_right _ hn
  have hne : n * unitsInOne ≠ 0 := (Nat.lt_of_lt_of_le (Nat.pow_pos (by decide)) hvalue).ne'
  have hlog : bits + point ≤ (n * unitsInOne).log2 := (Nat.le_log2 hne).mpr hvalue
  obtain ⟨places, hplaces⟩ : ∃ k, bits + point = 52 + k := ⟨bits + point - 52, by omega⟩
  -- The significand keeps the leading bit of the value and fifty-two more.
  have hsignificand : fractions ≤
      roundDiv (n * unitsInOne) (1 * Nat.pow 2 ((n * unitsInOne).log2 - 52)) := by
    refine Nat.le_trans ?_ (roundDiv_bounds _ _).1
    rw [Nat.one_mul]
    refine (Nat.le_div_iff_mul_le (Nat.pow_pos (by decide))).mpr ?_
    calc fractions * Nat.pow 2 ((n * unitsInOne).log2 - 52)
        = 2 ^ (52 + ((n * unitsInOne).log2 - 52)) := (Nat.pow_add ..).symm
      _ = 2 ^ (n * unitsInOne).log2 := by rw [Nat.add_sub_cancel' (by omega)]
      _ ≤ n * unitsInOne := Nat.log2_self_le hne
  have hshift : places * fractions ≤ ((n * unitsInOne).log2 - 52) * fractions :=
    Nat.mul_le_mul_right _ (by omega)
  rw [hone, ← Nat.pow_add, hplaces]
  refine pow_le_units (Nat.le_min.mpr ⟨Nat.mul_le_mul_right _ (by omega), ?_⟩)
  rw [Nat.div_one, Nat.add_mul, Nat.one_mul]
  exact Nat.add_le_add hshift hsignificand

/-- The places by which a number of units is shifted are those of its magnitude. -/
theorem log2_units {magnitude : Nat} (h : 0 < magnitude) :
    (units magnitude).log2 - 52 = shift magnitude := by
  have hne : units magnitude ≠ 0 := (units_pos h).ne'
  have hlt := significand_lt magnitude
  -- A significand that is not shifted may have fewer bits than the others.
  rcases Nat.eq_zero_or_pos (shift magnitude) with hzero | hpos
  · have hsmall : (units magnitude).log2 < 53 := by
      rw [Nat.log2_lt hne, units, hzero]
      simpa using hlt
    omega
  · have hlog : (units magnitude).log2 = 52 + shift magnitude := by
      rw [Nat.log2_eq_iff hne]
      constructor
      · rw [Nat.pow_add]
        exact Nat.mul_le_mul_right _ (le_significand hpos)
      · rw [Nat.add_right_comm, Nat.pow_add]
        exact Nat.mul_lt_mul_of_pos_right hlt (Nat.pow_pos (by decide))
    omega

/-- The value of a finite magnitude is rounded to it. -/
theorem ofRatio_units {magnitude : Nat} (hpos : 0 < magnitude) (h : magnitude < infinite) :
    ofRatio (units magnitude) unitsInOne = magnitude := by
  have hone := unitsInOne_pos
  have hround : roundDiv (units magnitude * unitsInOne)
      (unitsInOne * Nat.pow 2 (shift magnitude)) = significand magnitude := by
    rw [units, Nat.mul_assoc, Nat.mul_comm (Nat.pow 2 _) unitsInOne]
    exact roundDiv_mul_self _ (Nat.mul_pos hone (Nat.pow_pos (by decide)))
  unfold ofRatio
  dsimp only
  rw [Nat.mul_div_cancel _ hone, log2_units hpos, hround, shift_add_significand]
  exact Nat.min_eq_right (Nat.le_of_lt h)

/-! ## Decimal numbers -/

/-- Multiplying by a power of ten appends zeros. -/
theorem toDigits_mul_pow {n : Nat} (hn : 0 < n) (k : Nat) :
    Nat.toDigits 10 (n * 10 ^ k) = Nat.toDigits 10 n ++ List.replicate k '0' := by
  induction k with
  | zero => simp
  | succ k ih =>
    have hpos : 0 < n * 10 ^ k := Nat.mul_pos hn (Nat.pow_pos (by decide))
    have hnext : n * 10 ^ (k + 1) = 10 * (n * 10 ^ k) + 0 := by
      rw [Nat.pow_succ, Nat.add_zero, ← Nat.mul_assoc, Nat.mul_comm]
    rw [hnext, ← Nat.toDigits_append_toDigits (by decide) hpos (by decide), ih, List.append_assoc,
      List.replicate_succ']
    rfl

/-- A larger number has no fewer digits. -/
theorem length_toDigits_mono {n m : Nat} (h : n ≤ m) :
    (Nat.toDigits 10 n).length ≤ (Nat.toDigits 10 m).length := by
  have hpos : 0 < (Nat.toDigits 10 m).length := Nat.length_toDigits_pos
  have hlt := (Nat.length_toDigits_le_iff (by decide) hpos).mp (Nat.le_refl _)
  exact (Nat.length_toDigits_le_iff (by decide) hpos).mpr (Nat.lt_of_le_of_lt h hlt)

/-- Zeros at the end of the digits count as much as a larger exponent. -/
theorem ofDecimal_mul_pow (digits k : Nat) (exponent : Int) :
    ofDecimal (digits * 10 ^ k) exponent = ofDecimal digits (exponent + k) := by
  rcases Nat.eq_zero_or_pos digits with rfl | hpos
  · simp [ofDecimal]
  · have hne : digits * 10 ^ k ≠ 0 := (Nat.mul_pos hpos (Nat.pow_pos (by decide))).ne'
    have hpoint : ((Nat.toDigits 10 (digits * 10 ^ k)).length : Int) + exponent =
        (Nat.toDigits 10 digits).length + (exponent + k) := by
      rw [toDigits_mul_pow hpos, List.length_append, List.length_replicate]
      omega
    -- Both decimals are the same fraction, whichever part the powers of ten stand in.
    have hratio : ofRatio (digits * 10 ^ k * Nat.pow 10 exponent.toNat)
        (Nat.pow 10 (-exponent).toNat) = ofRatio (digits * Nat.pow 10 (exponent + k).toNat)
        (Nat.pow 10 (-(exponent + k)).toNat) := by
      refine ofRatio_eq_of_mul_eq (Nat.pow_pos (by decide)) (Nat.pow_pos (by decide)) ?_
      have hexponents : k + exponent.toNat + (-(exponent + k)).toNat =
          (exponent + k).toNat + (-exponent).toNat := by omega
      calc digits * 10 ^ k * 10 ^ exponent.toNat * 10 ^ (-(exponent + k)).toNat
          = digits * 10 ^ (k + exponent.toNat + (-(exponent + k)).toNat) := by
            rw [Nat.pow_add, Nat.pow_add, Nat.mul_assoc, Nat.mul_assoc, Nat.mul_assoc]
        _ = digits * 10 ^ (exponent + k).toNat * 10 ^ (-exponent).toNat := by
            rw [hexponents, Nat.pow_add, Nat.mul_assoc]
    unfold ofDecimal
    dsimp only
    rw [if_neg hne, if_neg hpos.ne', hpoint, hratio]

/-- What is chosen because it reads back reads back. -/
theorem read_readingBack? {magnitude : Nat} {takeAbove : Bool} {below above decimal : Decimal}
    (h : readingBack? magnitude takeAbove below above = some decimal) :
    decimal.read = magnitude := by
  unfold readingBack? at h
  split at h
  · next hbelow habove =>
    rw [← Option.some.inj h]
    split
    · exact eq_of_beq habove
    · exact eq_of_beq hbelow
  · next hbelow _ =>
    rw [← Option.some.inj h]
    exact eq_of_beq hbelow
  · next _ habove =>
    rw [← Option.some.inj h]
    exact eq_of_beq habove
  · cases h

/-- A decimal number that is taken for a magnitude reads back as it. -/
theorem read_nearest? {tie : Tie} {magnitude count : Nat} {decimal : Decimal}
    (h : nearest? tie magnitude count = some decimal) : decimal.read = magnitude :=
  read_readingBack? h

/-- A power of five is more than nothing. -/
theorem pow_five_pos : 0 < Nat.pow 5 1074 := by decide +kernel

/-- A finite double has a bounded number of units. -/
theorem units_lt {magnitude : Nat} (h : magnitude < infinite) :
    units magnitude < Nat.pow 2 2098 := by
  have hmono : ∀ {k k' : Nat}, k ≤ k' → Nat.pow 2 k ≤ Nat.pow 2 k' :=
    Nat.pow_le_pow_right (by decide)
  have hbound : ∀ {top bound : Nat}, Nat.pow 2 (shift magnitude) ≤ top →
      Nat.pow 2 53 * top = bound → units magnitude < bound := by
    rintro top _ htop rfl
    calc units magnitude < Nat.pow 2 53 * Nat.pow 2 (shift magnitude) :=
          Nat.mul_lt_mul_of_pos_right (significand_lt magnitude) (Nat.pow_pos (by decide))
      _ ≤ Nat.pow 2 53 * top := Nat.mul_le_mul_left _ htop
  exact hbound (hmono (shift_le h)) (by decide +kernel)

/-- A number of units, scaled so that it is a decimal number, is rounded as the fraction that it
is. -/
theorem ofDecimal_units {units scale : Nat} {exponent : Int} (hunits : 0 < units)
    (hscale : 0 < scale) (hnegative : exponent.toNat = 0)
    (hten : scale * unitsInOne = Nat.pow 10 (-exponent).toNat)
    (hlow : -324 < (Nat.toDigits 10 (units * scale)).length + exponent)
    (hhigh : (Nat.toDigits 10 (units * scale)).length + exponent < 310) :
    ofDecimal (units * scale) exponent = ofRatio units unitsInOne := by
  unfold ofDecimal
  dsimp only
  rw [if_neg (Nat.mul_pos hunits hscale).ne', if_neg (Int.not_le.mpr hhigh),
    if_neg (Int.not_le.mpr hlow)]
  refine ofRatio_eq_of_mul_eq (Nat.pow_pos (by decide)) unitsInOne_pos ?_
  rw [hnegative, ← hten, show Nat.pow 10 0 = 1 from rfl, Nat.mul_one, Nat.mul_assoc]

/-- The exact value of a magnitude reads back as it. -/
theorem read_exact {magnitude : Nat} (hpos : 0 < magnitude) (h : magnitude < infinite) :
    (exact magnitude).read = magnitude := by
  have hunits := units_pos hpos
  -- The digits are so many that the value is neither too large nor too small.
  have hlong : 751 ≤ (Nat.toDigits 10 (units magnitude * Nat.pow 5 1074)).length := by
    have hleast : (Nat.toDigits 10 (Nat.pow 5 1074)).length = 751 := by decide +kernel
    rw [← hleast]
    exact length_toDigits_mono (Nat.le_mul_of_pos_left _ hunits)
  have hshort : (Nat.toDigits 10 (units magnitude * Nat.pow 5 1074)).length ≤ 1383 := by
    have hmost : ∀ {top : Nat}, units magnitude < top →
        (Nat.toDigits 10 (top * Nat.pow 5 1074)).length = 1383 →
        (Nat.toDigits 10 (units magnitude * Nat.pow 5 1074)).length ≤ 1383 := by
      intro top htop hlength
      rw [← hlength]
      exact length_toDigits_mono (Nat.mul_le_mul_right _ (Nat.le_of_lt htop))
    exact hmost (units_lt h) (by decide +kernel)
  have hread : ofDecimal (units magnitude * Nat.pow 5 1074) (-1074) =
      ofRatio (units magnitude) unitsInOne :=
    ofDecimal_units hunits pow_five_pos rfl (by decide +kernel) (by omega) (by omega)
  exact hread.trans (ofRatio_units hpos h)

/-- The decimal that is written for a magnitude reads back as it. -/
theorem read_shortest (tie : Tie) {magnitude : Nat} (hpos : 0 < magnitude)
    (h : magnitude < infinite) : (shortest tie magnitude).read = magnitude := by
  unfold shortest
  rcases hfound : (List.range' 1 17).findSome? (nearest? tie magnitude) with _ | decimal
  · exact read_exact hpos h
  · obtain ⟨count, -, hcount⟩ := List.exists_of_findSome?_eq_some hfound
    exact read_nearest? hcount

/-! ## Digits of a decimal number -/

/-- A number has no zero in front. -/
theorem head?_toDigits {n : Nat} (h : 0 < n) : (Nat.toDigits 10 n).head? ≠ some '0' := by
  induction n using Nat.strongRecOn with
  | ind n ih =>
    rw [Nat.toDigits_eq_if (by decide)]
    split
    · next hlt =>
      have hdigit : ∀ d < 10, 0 < d → d.digitChar ≠ '0' := by decide
      simpa using hdigit n hlt h
    · next hle =>
      have hfirst := ih (n / 10) (by omega) (by omega)
      obtain ⟨c, rest, hcons⟩ :=
        List.exists_cons_of_ne_nil (Nat.toDigits_ne_nil (n := n / 10) (b := 10))
      rw [hcons] at hfirst ⊢
      exact hfirst

namespace Decimal

variable (decimal : Decimal)

/-- The digits that are written, with zeros behind them, are all digits. -/
theorem exists_toDigits_eq : ∃ zeros : Nat,
    Nat.toDigits 10 decimal.digits = decimal.text ++ List.replicate zeros '0' := by
  let reversed := (Nat.toDigits 10 decimal.digits).reverse
  let trailing := reversed.takeWhile (· == '0')
  have hzeros : trailing.reverse = List.replicate trailing.length '0' := by
    rw [List.eq_replicate_iff]
    refine ⟨List.length_reverse, fun c hc => ?_⟩
    exact eq_of_beq (List.all_eq_true.mp List.all_takeWhile c (List.mem_reverse.mp hc))
  refine ⟨trailing.length, ?_⟩
  calc Nat.toDigits 10 decimal.digits = reversed.reverse := (List.reverse_reverse _).symm
    _ = (trailing ++ reversed.dropWhile (· == '0')).reverse := by
        rw [List.takeWhile_append_dropWhile]
    _ = decimal.text ++ trailing.reverse := List.reverse_append
    _ = decimal.text ++ List.replicate trailing.length '0' := by rw [hzeros]

/-- The digits that are written stand for the same number, with the point behind as many of them. -/
theorem read_eq_ofDecimal_text : decimal.read =
    ofDecimal (Nat.ofDigitChars 10 decimal.text 0) (decimal.point - decimal.text.length) := by
  obtain ⟨zeros, hdigits⟩ := decimal.exists_toDigits_eq
  have hvalue : decimal.digits = Nat.ofDigitChars 10 decimal.text 0 * 10 ^ zeros := by
    rw [← Nat.ofDigitChars_ten_toDigits (n := decimal.digits), hdigits, Nat.ofDigitChars_append,
      Nat.ofDigitChars_replicate_zero, Nat.mul_comm]
  have hpoint : decimal.point - decimal.text.length = decimal.exponent + zeros := by
    rw [point, hdigits, List.length_append, List.length_replicate]
    omega
  rw [hpoint, ← ofDecimal_mul_pow, ← hvalue, read]

/-- The text of a decimal has nothing but digits. -/
theorem isDigit_of_mem_text {c : Char} (hc : c ∈ decimal.text) : c.isDigit := by
  obtain ⟨zeros, hdigits⟩ := decimal.exists_toDigits_eq
  refine Nat.isDigit_of_mem_toDigits (n := decimal.digits) (b := 10) (by decide) (by decide) ?_
  rw [hdigits]
  exact List.mem_append_left _ hc

variable {decimal}

/-- A number other than zero is written with a digit other than zero first. -/
theorem text_eq_cons (h : 0 < decimal.digits) : ∃ c rest, decimal.text = c :: rest ∧ c ≠ '0' := by
  obtain ⟨zeros, hdigits⟩ := decimal.exists_toDigits_eq
  have hhead := head?_toDigits h
  rw [hdigits] at hhead
  rcases htext : decimal.text with _ | ⟨c, rest⟩
  · rw [htext] at hdigits hhead
    cases zeros with
    | zero => exact absurd hdigits Nat.toDigits_ne_nil
    | succ zeros => exact absurd rfl hhead
  · rw [htext] at hhead
    exact ⟨c, rest, rfl, fun hc => hhead (by rw [hc]; rfl)⟩

end Decimal

/-! ## Texts -/

/-- The parts of a number in a text: the digits in front of the point, those behind it and the
exponent. -/
structure Numeral where
  whole : List Char
  fraction : Option (List Char)
  exponent : Option Int

namespace Numeral

/-- The magnitude that the parts of a number are read as. -/
def magnitude (numeral : Numeral) : Nat :=
  ofDecimal (Nat.ofDigitChars 10 (numeral.whole ++ numeral.fraction.getD []) 0)
    (numeral.exponent.getD 0 - (numeral.fraction.getD []).length)

/-- The characters of a fraction. -/
def fractionChars (fraction : Option (List Char)) : List Char :=
  fraction.elim [] ('.' :: ·)

/-- The characters of an exponent, which has a sign. -/
def exponentChars (exponent : Option Int) : List Char :=
  exponent.elim [] fun exponent =>
    'e' :: (if exponent < 0 then '-' else '+') :: Nat.toDigits 10 exponent.natAbs

/-- The characters of a number. -/
def chars (numeral : Numeral) : List Char :=
  numeral.whole ++ (fractionChars numeral.fraction ++ exponentChars numeral.exponent)

/-- A number with a fraction and no exponent is written with a point between its digits. -/
theorem chars_decimal (whole digits : List Char) :
    chars ⟨whole, some digits, none⟩ = whole ++ '.' :: digits := by
  simp [chars, fractionChars, exponentChars]

/-- There are digits in front of the point, no zero among them that could be left out, and digits
behind it. -/
structure WellFormed (numeral : Numeral) : Prop where
  whole_digits : ∀ c ∈ numeral.whole, c.isDigit
  whole_leading : numeral.whole = ['0'] ∨ ∃ c rest, numeral.whole = c :: rest ∧ c ≠ '0'
  fraction_digits : ∀ digits ∈ numeral.fraction, digits ≠ [] ∧ ∀ c ∈ digits, c.isDigit

/-- A number starts with a digit. -/
theorem WellFormed.chars_eq_cons {numeral : Numeral} (h : numeral.WellFormed) :
    ∃ c cs, numeral.chars = c :: cs ∧ c.isDigit := by
  obtain ⟨c, more, hwhole⟩ : ∃ c more, numeral.whole = c :: more := by
    rcases h.whole_leading with hzero | ⟨first, more, hwhole, -⟩
    · exact ⟨'0', [], hzero⟩
    · exact ⟨first, more, hwhole⟩
  have hdigit : c.isDigit := h.whole_digits c (by rw [hwhole]; exact List.mem_cons_self)
  exact ⟨c, _, by rw [chars, hwhole]; rfl, hdigit⟩

/-- The digits of a natural number are a number. -/
theorem wellFormed_toDigits (n : Nat) : WellFormed ⟨Nat.toDigits 10 n, none, none⟩ where
  whole_digits := fun c hc => Nat.isDigit_of_mem_toDigits (by decide) (by decide) hc
  whole_leading := by
    rcases Nat.eq_zero_or_pos n with rfl | hpos
    · exact Or.inl rfl
    · obtain ⟨c, rest, hcons⟩ :=
        List.exists_cons_of_ne_nil (Nat.toDigits_ne_nil (n := n) (b := 10))
      refine Or.inr ⟨c, rest, hcons, fun hc => head?_toDigits hpos ?_⟩
      rw [hcons, hc]
      rfl
  fraction_digits := nofun

/-- A number is a double in a JSON text if it has a fraction or an exponent. -/
def IsDouble (numeral : Numeral) : Prop :=
  numeral.fraction.isSome ∨ numeral.exponent.isSome

end Numeral

/-- A text spells a number of given digits, with the point behind a number of them. -/
def Spells (text : String) (digits : List Char) (point : Int) : Prop :=
  ∃ numeral : Numeral, numeral.WellFormed ∧ numeral.IsDouble ∧ text.toList = numeral.chars ∧
    numeral.magnitude = ofDecimal (Nat.ofDigitChars 10 digits 0) (point - digits.length)

section

variable {digits : List Char} (point : Int) (hdigits : ∀ c ∈ digits, c.isDigit)
  (hleading : ∃ c rest, digits = c :: rest ∧ c ≠ '0')

include hdigits hleading

/-- The positional text spells its digits, with the point where it belongs. -/
theorem positionalText_spells : Spells (positionalText ".0" digits point) digits point := by
  obtain ⟨first, rest, hfirst, hne⟩ := hleading
  have hzero : ∀ {k : Nat}, ∀ c ∈ List.replicate k '0', c.isDigit := fun c hc => by
    rw [List.eq_of_mem_replicate hc]
    decide
  unfold positionalText
  split
  · -- The point is in front of all digits, with zeros behind it.
    next hpoint =>
    refine ⟨⟨['0'], some (List.replicate (-point).toNat '0' ++ digits), none⟩,
      ⟨List.forall_mem_singleton.mpr rfl, Or.inl rfl, ?_⟩, Or.inl rfl,
      by simp [Numeral.chars_decimal], ?_⟩
    · rintro _ ⟨rfl⟩
      exact ⟨by simp [hfirst], List.forall_mem_append.mpr ⟨hzero, hdigits⟩⟩
    · simp only [Numeral.magnitude, Option.getD_some, Option.getD_none, List.length_append,
        List.length_replicate, List.singleton_append, Nat.ofDigitChars_cons,
        Nat.ofDigitChars_append, Nat.ofDigitChars_replicate_zero]
      congr 1
      omega
  · next hpoint =>
    split
    · -- The point is behind all digits, with zeros in front of it.
      next hlength =>
      refine ⟨⟨digits ++ List.replicate (point.toNat - digits.length) '0', some ['0'], none⟩,
        ⟨List.forall_mem_append.mpr ⟨hdigits, hzero⟩, Or.inr ⟨first, _, by rw [hfirst]; rfl, hne⟩,
          ?_⟩, Or.inl rfl, by simp [Numeral.chars_decimal], ?_⟩
      · rintro _ ⟨rfl⟩
        exact ⟨by simp, List.forall_mem_singleton.mpr rfl⟩
      · have hvalue : Nat.ofDigitChars 10
            (digits ++ List.replicate (point.toNat - digits.length) '0' ++ ['0']) 0 =
            Nat.ofDigitChars 10 digits 0 * 10 ^ (point.toNat - digits.length + 1) := by
          rw [List.append_assoc, ← List.replicate_succ', Nat.ofDigitChars_append,
            Nat.ofDigitChars_replicate_zero, Nat.mul_comm]
        simp only [Numeral.magnitude, Option.getD_some, Option.getD_none, hvalue, ofDecimal_mul_pow]
        congr 1
        simp only [List.length_singleton]
        omega
    · -- The point is among the digits.
      next hlength =>
      refine ⟨⟨digits.take point.toNat, some (digits.drop point.toNat), none⟩,
        ⟨fun c hc => hdigits c (List.mem_of_mem_take hc), Or.inr ?_, ?_⟩, Or.inl rfl,
        by simp [Numeral.chars_decimal], ?_⟩
      · obtain ⟨k, hk⟩ : ∃ k, point.toNat = k + 1 := ⟨point.toNat - 1, by omega⟩
        exact ⟨first, rest.take k, by rw [hk, hfirst]; rfl, hne⟩
      · rintro _ ⟨rfl⟩
        refine ⟨?_, fun c hc => hdigits c (List.mem_of_mem_drop hc)⟩
        rw [Ne, List.drop_eq_nil_iff]
        omega
      · simp only [Numeral.magnitude, Option.getD_some, Option.getD_none, List.take_append_drop,
          List.length_drop]
        congr 1
        omega

/-- The text with an exponent spells its digits, with the point where it belongs. -/
theorem exponentText_spells : Spells (exponentText "+" digits point) digits point := by
  obtain ⟨first, rest, rfl, hne⟩ := hleading
  obtain ⟨hfirst, hrest⟩ := List.forall_mem_cons.mp hdigits
  refine ⟨⟨[first], if rest = [] then none else some rest, some (point - 1)⟩,
    ⟨List.forall_mem_singleton.mpr hfirst, Or.inr ⟨first, [], rfl, hne⟩, ?_⟩, Or.inr rfl, ?_, ?_⟩
  · intro digits hdigits
    split at hdigits
    · cases hdigits
    · next hnil =>
      obtain rfl : rest = digits := Option.some.inj hdigits
      exact ⟨hnil, hrest⟩
  · unfold exponentText
    -- With a single digit there is no point, and the sign is written in any case.
    by_cases hnil : rest = []
    · by_cases hsign : point - 1 < 0 <;>
        simp [Numeral.chars, Numeral.fractionChars, Numeral.exponentChars, hnil, hsign,
          Nat.repr_eq_ofList_toDigits]
    · by_cases hsign : point - 1 < 0 <;>
        simp [Numeral.chars, Numeral.fractionChars, Numeral.exponentChars, hnil, hsign,
          Nat.repr_eq_ofList_toDigits]
  · by_cases hnil : rest = []
    · simp [Numeral.magnitude, hnil]
    · simp only [Numeral.magnitude, hnil, if_false, Option.getD_some, List.singleton_append,
        List.length_cons]
      congr 1
      omega

end

/-- The text of a finite magnitude in JSON stands for it. -/
theorem magnitudeText_numeral {magnitude : Nat} (h : magnitude < infinite) :
    ∃ numeral : Numeral, numeral.WellFormed ∧ numeral.IsDouble ∧
      (magnitudeText .json magnitude).toList = numeral.chars ∧ numeral.magnitude = magnitude := by
  by_cases hzero : magnitude = 0
  · subst hzero
    have hdigit : ∀ c ∈ ['0'], c.isDigit := List.forall_mem_singleton.mpr rfl
    refine ⟨⟨['0'], some ['0'], none⟩, ⟨hdigit, Or.inl rfl, ?_⟩, Or.inl rfl, ?_, ?_⟩
    · rintro _ ⟨rfl⟩
      exact ⟨List.cons_ne_nil _ _, hdigit⟩
    · decide
    · decide
  -- The shortest digits read back the magnitude; how they are spelled does not matter for that.
  · have hread := read_shortest .even (Nat.pos_of_ne_zero hzero) h
    have hpositive : 0 < (shortest .even magnitude).digits := by
      refine Nat.pos_of_ne_zero fun hnone => hzero ?_
      rw [← hread, Decimal.read, hnone]
      simp [ofDecimal]
    have hdigits : ∀ c ∈ (shortest .even magnitude).text, c.isDigit := fun c hc =>
      Decimal.isDigit_of_mem_text _ hc
    have hleading := Decimal.text_eq_cons hpositive
    rw [Decimal.read_eq_ofDecimal_text] at hread
    have htext : magnitudeText .json magnitude =
        if -5 ≤ (shortest .even magnitude).point - 1 ∧
            (shortest .even magnitude).point - 1 ≤ 15 then
          positionalText ".0" (shortest .even magnitude).text (shortest .even magnitude).point
        else exponentText "+" (shortest .even magnitude).text (shortest .even magnitude).point := by
      rw [magnitudeText, if_neg hzero]
      rfl
    have hspells : Spells (magnitudeText .json magnitude) (shortest .even magnitude).text
        (shortest .even magnitude).point := by
      rw [htext]
      split
      · exact positionalText_spells _ hdigits hleading
      · exact exponentText_spells _ hdigits hleading
    obtain ⟨numeral, hformed, hdouble, htext, hmagnitude⟩ := hspells
    exact ⟨numeral, hformed, hdouble, htext, hmagnitude.trans hread⟩

/-- A double is made up of its sign and its magnitude. -/
theorem ofMagnitude_magnitude (x : Double) : ofMagnitude x.negative x.magnitude = x := by
  have hlt := x.bits.toNat_lt
  have hweight : signWeight = 2 ^ 63 := rfl
  have hpattern : (if x.negative then signWeight + x.magnitude else x.magnitude) =
      x.bits.toNat := by
    simp only [negative, magnitude, hweight, decide_eq_true_eq]
    split <;> omega
  rw [ofMagnitude, hpattern, UInt64.ofNat_toNat]

/-- The magnitude of a double is the one that it is made of. -/
theorem magnitude_ofMagnitude (negative : Bool) {magnitude : Nat} (h : magnitude < signWeight) :
    (ofMagnitude negative magnitude).magnitude = magnitude := by
  have hweight : signWeight = 2 ^ 63 := rfl
  rw [hweight] at h
  cases negative
  · simp only [ofMagnitude, Double.magnitude, hweight, Bool.false_eq_true, if_false,
      UInt64.toNat_ofNat']
    omega
  · simp only [ofMagnitude, Double.magnitude, hweight, if_true, UInt64.toNat_ofNat']
    omega

/-- The magnitude of infinity leaves the bit of the sign free. -/
theorem infinite_lt : infinite < signWeight := by decide

/-- A finite magnitude belongs to finite doubles. -/
theorem isFinite_ofMagnitude (negative : Bool) {magnitude : Nat} (h : magnitude < infinite) :
    (ofMagnitude negative magnitude).isFinite := by
  rw [isFinite, magnitude_ofMagnitude negative (Nat.lt_trans h infinite_lt)]
  exact decide_eq_true h

/-- The double nearest to an integer of 64 bits is finite. -/
theorem isFinite_ofInt {n : Int} (h : n.natAbs ≤ 2 ^ 64) : (ofInt n).isFinite := by
  have hlt : n.natAbs < 2 ^ 65 := by omega
  exact isFinite_ofMagnitude _ (ofRatio_one_lt_infinite hlt (by decide))

end Lowering.Double
