import Lowering.Json.Decimal
import Lowering.Proofs.Double.ReadBack

/-!
# When a decimal number is read exactly

A whole number below `2^53`, times a power of two, is a double (`exists_units_eq`), and rounding
leaves it as it is (`units_ofRatio`). The powers of ten up to `10^22` are such numbers, so a number of
few digits and a small exponent is read with one step that rounds, the last one, and comes out as the
double nearest to its value (`decimal?_eq_ofDecimal`). In general it is only known to be finite
(`decimal?_lt_infinite`).
-/

namespace Lowering

namespace Double

/-! ## Doubles without rounding -/

/-- A number of at most fifty-three bits, shifted by a number of places, is the value of a double in
units, if there is such a shift. -/
theorem exists_units_eq {n places : Nat} (hn : n < 2 ^ 53) (hplaces : places ≤ 2045) :
    ∃ magnitude < infinite, units magnitude = n * 2 ^ places := by
  -- A place goes into the significand while it has room, and into the shift from then on.
  induction places generalizing n with
  | zero =>
    have hshift : shift n = 0 := by
      unfold shift
      rw [fractions_eq]
      omega
    refine ⟨n, ?_, ?_⟩
    · unfold infinite
      rw [fractions_eq]
      omega
    · simp [units, significand, hshift]
  | succ places ih =>
    by_cases hsmall : n < 2 ^ 52
    · -- There is a bit left, so one place of the shift goes into the significand.
      have hdouble : 2 * n < 2 ^ 53 := by omega
      obtain ⟨magnitude, hfinite, hunits⟩ := ih hdouble (by omega)
      refine ⟨magnitude, hfinite, hunits.trans ?_⟩
      rw [Nat.pow_succ, Nat.mul_comm 2 n, Nat.mul_assoc, Nat.mul_comm 2]
    · have hshift : shift ((places + 1) * fractions + n) = places + 1 := by
        unfold shift
        rw [fractions_eq]
        omega
      refine ⟨(places + 1) * fractions + n, ?_, ?_⟩
      · unfold infinite
        rw [fractions_eq]
        omega
      · rw [units, significand, hshift, Nat.add_sub_cancel_left]
        rfl

/-- A fraction that is the value of a finite double is rounded to that double. -/
theorem ofRatio_eq_of_units {magnitude n d : Nat} (hd : 0 < d) (hfinite : magnitude < infinite)
    (h : units magnitude * d = n * unitsInOne) : ofRatio n d = magnitude := by
  rw [ofRatio_eq_of_mul_eq hd unitsInOne_pos h.symm]
  rcases Nat.eq_zero_or_pos magnitude with rfl | hpos
  · decide +kernel
  · exact ofRatio_units hpos hfinite

/-- A whole number that needs no more than fifty-three bits is not rounded. -/
theorem units_ofRatio {n places : Nat} (hn : n < 2 ^ 53) (hplaces : places ≤ 971) :
    units (ofRatio (n * 2 ^ places) 1) = n * 2 ^ places * unitsInOne := by
  obtain ⟨point, -, hpoint, hone⟩ := exists_unitsInOne_eq
  have hsum : places + point ≤ 2045 := by omega
  obtain ⟨magnitude, hfinite, hunits⟩ := exists_units_eq hn hsum
  have hvalue : units magnitude = n * 2 ^ places * unitsInOne := by
    rw [hunits, hone, Nat.pow_add, Nat.mul_assoc]
  rw [ofRatio_eq_of_units Nat.one_pos hfinite (by rw [Nat.mul_one, hvalue]), hvalue]

/-- The product of two whole numbers that are doubles is their product, rounded. -/
theorem times_of_units {a b n k : Nat} (ha : units a = n * unitsInOne)
    (hb : units b = k * unitsInOne) : times a b = ofRatio (n * k) 1 := by
  have hone := Nat.mul_pos unitsInOne_pos unitsInOne_pos
  unfold times
  refine ofRatio_eq_of_mul_eq hone Nat.one_pos ?_
  rw [ha, hb, Nat.mul_one, Nat.mul_mul_mul_comm]

/-- The quotient of two whole numbers that are doubles is their quotient, rounded. -/
theorem dividedBy_of_units {a b n k : Nat} (ha : units a = n * unitsInOne)
    (hb : units b = k * unitsInOne) : dividedBy a b = ofRatio n k := by
  rw [dividedBy, ha, hb, ofRatio_mul n k unitsInOne_pos]

end Double

namespace Json

open Double (infinite units unitsInOne ofRatio ofDecimal)

/-! ## Digits -/

/-- What is gathered has room in the word. -/
theorem gather_lt {word : Nat} (h : word < unsignedBound) (digits : List Char) :
    (gather word digits).1 < unsignedBound := by
  induction digits generalizing word with
  | nil => exact h
  | cons digit rest ih =>
    rw [gather]
    split
    · next hroom => exact ih hroom
    · exact h

/-- Digits behind those of a word make it no smaller. -/
theorem le_ofDigitChars (digits : List Char) (word : Nat) :
    word ≤ Nat.ofDigitChars 10 digits word := by
  induction digits generalizing word with
  | nil => exact Nat.le_refl _
  | cons digit rest ih =>
    rw [Nat.ofDigitChars_cons]
    exact Nat.le_trans (by omega) (ih _)

/-- If there is room for all digits, all of them are gathered. -/
theorem gather_eq {digits : List Char} {word : Nat}
    (h : Nat.ofDigitChars 10 digits word < unsignedBound) :
    gather word digits = (Nat.ofDigitChars 10 digits word, []) := by
  induction digits generalizing word with
  | nil => rfl
  | cons digit rest ih =>
    rw [Nat.ofDigitChars_cons] at h ⊢
    have hroom := Nat.lt_of_le_of_lt (le_ofDigitChars rest _) h
    rw [gather, appendDigit, if_pos hroom]
    exact ih h

/-! ## Powers of ten -/

/-- The powers of ten up to the twenty-second are doubles. -/
theorem units_powerOfTen {power : Nat} (h : power ≤ 22) :
    units (powerOfTen power) = 10 ^ power * unitsInOne := by
  have hfive : 5 ^ power < 2 ^ 53 :=
    Nat.lt_of_le_of_lt (Nat.pow_le_pow_right (by decide) h) (by decide)
  have hten : 10 ^ power = 5 ^ power * 2 ^ power := Nat.mul_pow 5 2 power
  unfold powerOfTen
  rw [show Nat.pow 10 power = 5 ^ power * 2 ^ power from hten, hten]
  exact Double.units_ofRatio hfive (by omega)

/-- A decimal number that is neither large nor small is rounded as the fraction that it is. -/
theorem ofDecimal_of_short {word : Nat} {exponent : Int} (hword : word < 2 ^ 53)
    (hexponent : exponent.natAbs ≤ 22) : ofDecimal word exponent =
      ofRatio (word * 10 ^ exponent.toNat) (10 ^ (-exponent).toNat) := by
  rcases Nat.eq_zero_or_pos word with rfl | hpos
  · have hzero : ofRatio (0 * 10 ^ exponent.toNat) (10 ^ (-exponent).toNat) = 0 :=
      Double.ofRatio_eq_of_units (Nat.pow_pos (by decide)) (by decide)
        (by simp [units, Double.significand])
    rw [hzero]
    simp [ofDecimal]
  · have hlength : (Nat.toDigits 10 word).length ≤ 16 :=
      (Nat.length_toDigits_le_iff (by decide) (by decide)).mpr
        (Nat.lt_of_lt_of_le hword (by decide))
    unfold ofDecimal
    dsimp only
    rw [if_neg hpos.ne', if_neg (by omega), if_neg (by omega)]
    rfl

/-- A word that is a double, times a power of ten that is one or divided by it, is rounded once. -/
theorem scale?_eq_ofDecimal {word : Nat} {exponent : Int} (hword : word < 2 ^ 53)
    (hexponent : exponent.natAbs ≤ 22) :
    scale? (ofRatio word 1) exponent = some (ofDecimal word exponent) := by
  have hunits : units (ofRatio word 1) = word * unitsInOne := by
    simpa using Double.units_ofRatio hword (Nat.zero_le 971)
  rw [ofDecimal_of_short hword hexponent]
  -- Both factors are exact, so there is one rounding: that of the product or the quotient.
  cases exponent with
  | ofNat power =>
    have hpower : power ≤ 22 := hexponent
    have htable : power ≤ maxPower := Nat.le_trans hpower (by decide)
    have hproduct := Double.times_of_units hunits (units_powerOfTen hpower)
    have hfinite : ofRatio (word * 10 ^ power) 1 < infinite := by
      have hbits : word * 10 ^ power < 2 ^ 141 :=
        calc word * 10 ^ power ≤ word * 10 ^ 22 :=
              Nat.mul_le_mul_left _ (Nat.pow_le_pow_right (by decide) hpower)
          _ < 2 ^ 141 := by omega
      exact Double.ofRatio_one_lt_infinite hbits (by decide)
    have hnonneg : (-Int.ofNat power).toNat = 0 := by simp
    rw [scale?, multiply?, if_pos htable, hnonneg, Nat.pow_zero]
    simp only [hproduct, if_pos hfinite]
    rfl
  | negSucc power =>
    have hpower : power + 1 ≤ 22 := hexponent
    have htable : power + 1 ≤ maxPower := Nat.le_trans hpower (by decide)
    have hnonpos : (Int.negSucc power).toNat = 0 := rfl
    have hpositive : (-Int.negSucc power).toNat = power + 1 := rfl
    rw [scale?, divide, if_pos htable, Double.dividedBy_of_units hunits (units_powerOfTen hpower),
      hnonpos, hpositive, Nat.pow_zero, Nat.mul_one]

/-! ## Exact numbers -/

/-- A number whose digits make up less than `2^53`, with no more than twenty-two places in front of
its point or behind it, is read as the double nearest to its value. -/
theorem decimal?_eq_ofDecimal {whole fraction : List Char} {exponent : Option Int}
    (hdigits : Nat.ofDigitChars 10 (whole ++ fraction) 0 < 2 ^ 53)
    (hpoint : (exponent.getD 0 - fraction.length).natAbs ≤ 22)
    (hexponent : (exponent.getD 0).natAbs < exponentBound) :
    decimal? whole fraction exponent =
      some (ofDecimal (Nat.ofDigitChars 10 (whole ++ fraction) 0)
        (exponent.getD 0 - fraction.length)) := by
  have hfits : Nat.ofDigitChars 10 (whole ++ fraction) 0 < unsignedBound :=
    Nat.lt_trans hdigits (by decide)
  rw [← scale?_eq_ofDecimal hdigits hpoint]
  rw [Nat.ofDigitChars_append] at *
  -- The digits fit in a word, so none of them is dropped and only the fraction moves the point.
  have hwhole := gather_eq (Nat.lt_of_le_of_lt (le_ofDigitChars fraction _) hfits)
  cases exponent with
  | none => simp [decimal?, hwhole, gather_eq hfits]
  | some exponent =>
    have hbound : exponent.natAbs < exponentBound := hexponent
    simp only [decimal?, hwhole, gather_eq hfits, if_pos hbound]
    congr 1
    simp
    omega

/-! ## Finite numbers -/

/-- The powers of ten behind the first are at least two. -/
theorem two_mul_unitsInOne_le {power : Nat} (h : 0 < power) :
    2 ^ 1 * unitsInOne ≤ units (powerOfTen power) := by
  have htwo : 2 ^ 1 ≤ Nat.pow 10 power :=
    calc 2 ^ 1 ≤ 10 ^ 1 := by decide
      _ ≤ 10 ^ power := Nat.pow_le_pow_right (by decide) h
  exact Double.pow_le_units_ofRatio htwo (by decide)

/-- A finite magnitude divided by a power of ten is finite. -/
theorem dividedBy_powerOfTen_lt_infinite {magnitude power : Nat} (h : magnitude < infinite)
    (hpos : 0 < power) : Double.dividedBy magnitude (powerOfTen power) < infinite := by
  refine Double.ofRatio_lt_infinite ?_
  have hone : 0 < 2 ^ 1 * unitsInOne := Nat.mul_pos (by decide) Double.unitsInOne_pos
  -- The quotient is no more than half of what is divided.
  have hquotient : units magnitude * unitsInOne / units (powerOfTen power) ≤
      units magnitude / 2 ^ 1 :=
    calc units magnitude * unitsInOne / units (powerOfTen power)
        ≤ units magnitude * unitsInOne / (2 ^ 1 * unitsInOne) :=
          Nat.div_le_div_left (two_mul_unitsInOne_le hpos) hone
      _ = units magnitude / 2 ^ 1 := Nat.mul_div_mul_right _ _ Double.unitsInOne_pos
  have hlog : ∀ {half bits : Nat}, units magnitude < Nat.pow 2 bits →
      half ≤ units magnitude / 2 ^ 1 → 1 < bits → half.log2 + 1 < bits := by
    intro half bits hlt hhalf hbits
    rcases Nat.eq_zero_or_pos half with rfl | hne
    · simpa using hbits
    · obtain ⟨bits, rfl⟩ : ∃ k, bits = k + 1 := ⟨bits - 1, by omega⟩
      have hpow : Nat.pow 2 (bits + 1) = 2 ^ bits * 2 := Nat.pow_succ ..
      have hhalf' := (Nat.log2_lt hne.ne').mpr (by omega : half < 2 ^ bits)
      omega
  have hbits := hlog (Double.units_lt h) hquotient (by decide)
  omega

/-- Dividing a finite double by a power of ten gives a finite one. -/
theorem divide_lt_infinite {magnitude power : Nat} (h : magnitude < infinite) (hpos : 0 < power) :
    divide magnitude power < infinite := by
  induction magnitude, power using divide.induct with
  | case1 magnitude power hle =>
    rw [divide, if_pos hle]
    exact dividedBy_powerOfTen_lt_infinite h hpos
  | case2 power hlt =>
    rw [divide, if_neg hlt, if_pos rfl]
    decide
  | case3 magnitude power hlt hzero ih =>
    rw [divide, if_neg hlt, if_neg hzero]
    exact ih (dividedBy_powerOfTen_lt_infinite h (by decide)) (by omega)

/-- A product that is there is finite: the reader refuses one that is not. -/
theorem multiply?_lt_infinite {magnitude power product : Nat}
    (h : multiply? magnitude power = some product) : product < infinite := by
  unfold multiply? at h
  dsimp only at h
  split at h
  · split at h
    · next hfinite =>
      obtain rfl := Option.some.inj h
      exact hfinite
    · cases h
  · split at h
    · obtain rfl := Option.some.inj h
      decide
    · cases h

/-- A finite double that is moved by a power of ten is finite. -/
theorem scale?_lt_infinite {magnitude result : Nat} {exponent : Int} (hfinite : magnitude < infinite)
    (h : scale? magnitude exponent = some result) : result < infinite := by
  cases exponent with
  | ofNat power => exact multiply?_lt_infinite h
  | negSucc power =>
    obtain rfl := Option.some.inj h
    exact divide_lt_infinite hfinite (Nat.zero_lt_succ power)

/-- A number that is read is finite. -/
theorem decimal?_lt_infinite {whole fraction : List Char} {exponent : Option Int} {magnitude : Nat}
    (h : decimal? whole fraction exponent = some magnitude) : magnitude < infinite := by
  have hword : (gather (gather 0 whole).1 fraction).1 < 2 ^ 64 :=
    gather_lt (gather_lt (by decide) whole) fraction
  have hfinite : ofRatio (gather (gather 0 whole).1 fraction).1 1 < infinite :=
    Double.ofRatio_one_lt_infinite hword (by decide)
  unfold decimal? at h
  dsimp only at h
  split at h
  · exact scale?_lt_infinite hfinite h
  · split at h
    · exact scale?_lt_infinite hfinite h
    · split at h
      · cases h
      · obtain rfl := Option.some.inj h
        decide

end Json

end Lowering
