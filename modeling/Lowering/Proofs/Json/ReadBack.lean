import Mathlib.Data.List.Forall2
import Lowering.Json.Reader
import Lowering.Json.Printer
import Lowering.Proofs.Json.Decimal
import Lowering.Proofs.Json.Fuel

/-!
# JSON texts read back

A text that is written for a value is read as that value, if its doubles are. What follows a value in
a text matters for numbers only: they go on as long as there are characters for them, so it is asked
of the rest of the text that it does not start with one (`Stops`). `Reads` says that some characters
are read as a value in front of every such rest, with as much fuel as twice their number. It is proved
of strings and numbers from their parts, and of containers from their entries, with blanks wherever
they may stand.

A double is written with as many digits as tell it from its neighbours, and reading these rounds more
than once, so not every double is read from its own text. `Double.ReadsBack` says of one that it is;
those with few digits are (`Double.readsBack_of_short`). The values that a reader returns have numbers
within their bounds (`read_bounded`), so those without a fault whose doubles read back are read from
what is written for them (`read_compact`).
-/

namespace Lowering

/-- The text that is written for a double is read as that double. -/
def Double.ReadsBack (x : Double) : Prop :=
  Json.read (Json.number (.double x)).compact = ⟨.number (.double x), false⟩

namespace Json

open Double (Numeral)
open Double.Numeral (fractionChars exponentChars)

/-! ## Strings -/

/-- The four digits of an escape stand for the control character that they are written for. -/
theorem hexQuad?_of_lt {n : Nat} (h : n < 0x20) : ∃ a b c d,
    (Text.padLeft '0' 4 (Text.hex n)).toList = [a, b, c, d] ∧ hexQuad? a b c d = some n := by
  -- There are thirty-two of them, and the first two digits are always zero.
  have hdigits : ∀ n < 0x20, (Text.padLeft '0' 4 (Text.hex n)).toList =
      ['0', '0', Nat.digitChar (n / 16), Nat.digitChar (n % 16)] := by decide +kernel
  have hvalue : ∀ n < 0x20,
      hexQuad? '0' '0' (Nat.digitChar (n / 16)) (Nat.digitChar (n % 16)) = some n := by decide
  exact ⟨_, _, _, _, hdigits n h, hvalue n h⟩

/-- A control character is read from its code. -/
theorem scanString_code {a b c d : Char} {n : Nat} (hvalue : hexQuad? a b c d = some n)
    (h : n < 0x20) (rest : List Char) :
    scanString ('\\' :: 'u' :: a :: b :: c :: d :: rest) =
      (scanString rest).cons (Char.ofNat n) := by
  have hhigh : isHighSurrogate n = false := by
    simp [isHighSurrogate, Nat.not_le_of_lt (Nat.lt_trans h (by decide : 0x20 < 0xD800))]
  have hlow : isLowSurrogate n = false := by
    simp [isLowSurrogate, Nat.not_le_of_lt (Nat.lt_trans h (by decide : 0x20 < 0xDC00))]
  rw [scanString, hvalue]
  simp only [hhigh, hlow, Bool.false_eq_true, if_false]

/-- A character that needs no escape is read as it stands. -/
theorem scanString_plain {c : Char} (hquote : c ≠ '"') (hslash : c ≠ '\\') (h : ¬ c.toNat < 0x20)
    (rest : List Char) : scanString (c :: rest) = (scanString rest).cons c := by
  rw [scanString.eq_def]
  split
  case h_7 heq =>
    obtain ⟨rfl, rfl⟩ := List.cons.inj heq
    rw [if_neg h]
  all_goals simp_all

/-- What is written for a character is read as it. -/
theorem scanString_escapedChar (c : Char) (rest : List Char) :
    scanString ((escapedChar c).toList ++ rest) = (scanString rest).cons c := by
  unfold escapedChar
  split
  case h_8 hquote hslash _ _ _ _ _ =>
    split
    · next hcontrol =>
      obtain ⟨a, b, d, e, hdigits, hvalue⟩ := hexQuad?_of_lt hcontrol
      rw [String.toList_append, hdigits, ← Char.ofNat_toNat c]
      exact scanString_code hvalue hcontrol rest
    · next hplain =>
      rw [Char.toString_eq_singleton, String.toList_singleton]
      exact scanString_plain hquote hslash hplain rest
  -- The other characters have an escape of one letter.
  all_goals simp [scanString, escaped?]

/-- A string with its characters escaped is read as that string. -/
theorem scanString_escaped (content rest : List Char) :
    scanString (content.flatMap (fun c => (escapedChar c).toList) ++ '"' :: rest) =
      .text content rest := by
  induction content with
  | nil => simp [scanString]
  | cons c content ih =>
    rw [List.flatMap_cons, List.append_assoc, scanString_escapedChar, ih, StringScan.cons]

/-- The text of a string: its content is read behind the opening quote. -/
theorem toList_stringText (s : String) : ∃ body, (stringText s).toList = '"' :: body ∧
    ∀ rest, scanString (body ++ rest) = .text s.toList rest := by
  refine ⟨s.toList.flatMap (fun c => (escapedChar c).toList) ++ ['"'], ?_, fun rest => ?_⟩
  · simp [stringText, String.toList_join, List.flatMap_map]
  · rw [List.append_assoc]
    exact scanString_escaped s.toList rest

/-! ## Numbers -/

/-- Whether a number goes on with a character. -/
def continuesNumber (c : Char) : Bool :=
  c.isDigit || c == '.' || c == 'e' || c == 'E'

/-- The rest of a text is such that no number goes on with it. -/
def Stops (rest : List Char) : Prop :=
  ∀ c ∈ rest.head?, continuesNumber c = false

/-- No number goes on at the end of a text. -/
theorem stops_nil : Stops [] := nofun

/-- A number ends in front of a character that it does not go on with. -/
theorem stops_cons {c : Char} (h : continuesNumber c = false) (rest : List Char) :
    Stops (c :: rest) := by
  rintro _ ⟨rfl⟩
  exact h

/-- What a number does not go on with is no digit, no point and no mark of an exponent. -/
theorem Stops.head {rest : List Char} (h : Stops rest) :
    ∀ c ∈ rest.head?, c.isDigit = false ∧ c ≠ '.' ∧ c ≠ 'e' ∧ c ≠ 'E' := by
  intro c hc
  have hno := h c hc
  simp only [continuesNumber, Bool.or_eq_false_iff, beq_eq_false_iff_ne] at hno
  obtain ⟨⟨⟨hdigit, hpoint⟩, hlower⟩, hupper⟩ := hno
  exact ⟨hdigit, hpoint, hlower, hupper⟩

/-- Digits are read up to a character that is none. -/
theorem scanDigits_append {digits rest : List Char} (hne : digits ≠ [])
    (hdigits : ∀ c ∈ digits, c.isDigit) (hrest : ∀ c ∈ rest.head?, c.isDigit = false) :
    scanDigits (digits ++ rest) = .ok (digits, rest) := by
  have hnone : rest.takeWhile Char.isDigit = [] ∧ rest.dropWhile Char.isDigit = rest := by
    cases rest with
    | nil => exact ⟨rfl, rfl⟩
    | cons c rest => simp [hrest c rfl]
  unfold scanDigits
  rw [List.takeWhile_append_of_pos hdigits, List.dropWhile_append_of_pos hdigits, hnone.1, hnone.2,
    List.append_nil]
  obtain ⟨first, more, rfl⟩ := List.exists_cons_of_ne_nil hne
  rfl

section

variable {numeral : Numeral} (h : numeral.WellFormed) {rest : List Char}

include h

/-- The digits of a well-formed number in front of its point are read up to a character that is no
digit. -/
theorem scanWhole_append (hrest : ∀ c ∈ rest.head?, c.isDigit = false) :
    scanWhole (numeral.whole ++ rest) = .ok (numeral.whole, rest) := by
  rcases h.whole_leading with hzero | ⟨first, more, hwhole, hfirst⟩
  · rw [hzero]
    cases rest with
    | nil => rfl
    | cons c rest =>
      have hc : c.isDigit = false := hrest c rfl
      simp [scanWhole, hc]
  · have hscan := scanDigits_append (by simp [hwhole]) h.whole_digits hrest
    rw [hwhole] at hscan ⊢
    rw [← hscan, List.cons_append, scanWhole.eq_def]
    split
    · next heq => exact absurd (List.cons.inj heq).1 hfirst
    · rfl

/-- The fraction of a well-formed number is read up to a character that is neither a digit nor a
point. -/
theorem scanFraction_append (hrest : ∀ c ∈ rest.head?, c.isDigit = false ∧ c ≠ '.') :
    scanFraction (fractionChars numeral.fraction ++ rest) = .ok (numeral.fraction, rest) := by
  rcases hfraction : numeral.fraction with _ | digits
  · rw [fractionChars, Option.elim_none, List.nil_append, scanFraction.eq_def]
    split
    · exact absurd rfl (hrest _ rfl).2
    · rfl
  · obtain ⟨hne, hdigits⟩ := h.fraction_digits digits hfraction
    rw [fractionChars, Option.elim_some, List.cons_append, scanFraction,
      scanDigits_append hne hdigits fun c hc => (hrest c hc).1]
    rfl

end

/-- An exponent is read up to where no number goes on. -/
theorem scanExponent_append (exponent : Option Int) {rest : List Char} (hrest : Stops rest) :
    scanExponent (exponentChars exponent ++ rest) = .ok (exponent, rest) := by
  cases exponent with
  | none =>
    rw [exponentChars, Option.elim_none, List.nil_append]
    cases rest with
    | nil => rfl
    | cons c rest =>
      -- What follows does not start an exponent by itself.
      obtain ⟨-, -, hlower, hupper⟩ := hrest.head c rfl
      simp [scanExponent, hlower, hupper]
  | some exponent =>
    have hdigits : scanDigits (Nat.toDigits 10 exponent.natAbs ++ rest) =
        .ok (Nat.toDigits 10 exponent.natAbs, rest) :=
      scanDigits_append Nat.toDigits_ne_nil
        (fun c hc => Nat.isDigit_of_mem_toDigits (by decide) (by decide) hc)
        fun c hc => (hrest.head c hc).1
    have hvalue : Nat.ofDigitChars 10 (Nat.toDigits 10 exponent.natAbs) 0 = exponent.natAbs :=
      Nat.ofDigitChars_ten_toDigits
    by_cases hsign : exponent < 0
    · have hback : -(exponent.natAbs : Int) = exponent := by omega
      simp only [exponentChars, Option.elim_some, hsign, if_true, List.cons_append, scanExponent,
        true_or, hdigits, Except.map, hvalue, hback]
    · have hback : (exponent.natAbs : Int) = exponent := by omega
      simp only [exponentChars, Option.elim_some, hsign, if_false, List.cons_append, scanExponent,
        true_or, if_true, hdigits, Except.map, hvalue, hback, Bool.false_eq_true]

/-- An exponent or the rest does not go on with the digits in front of it, and has no point. -/
theorem head_exponentChars_append (exponent : Option Int) {rest : List Char} (hrest : Stops rest) :
    ∀ c ∈ (exponentChars exponent ++ rest).head?, c.isDigit = false ∧ c ≠ '.' := by
  cases exponent with
  | none => exact fun c hc => ⟨(hrest.head c hc).1, (hrest.head c hc).2.1⟩
  | some exponent =>
    rintro _ ⟨rfl⟩
    exact ⟨by decide, by decide⟩

/-- A fraction or what follows it does not go on with the digits in front of it. -/
theorem head_fractionChars_append (fraction : Option (List Char)) {rest : List Char}
    (hrest : ∀ c ∈ rest.head?, c.isDigit = false) :
    ∀ c ∈ (fractionChars fraction ++ rest).head?, c.isDigit = false := by
  cases fraction with
  | none => exact hrest
  | some digits =>
    rintro _ ⟨rfl⟩
    decide

/-- The characters of a number with its sign. -/
def signedChars (negative : Bool) (numeral : Numeral) : List Char :=
  if negative then '-' :: numeral.chars else numeral.chars

/-- The parts of a number are read from its characters. -/
theorem scanNumber_append {numeral : Numeral} (h : numeral.WellFormed) (negative : Bool)
    {rest : List Char} (hrest : Stops rest) :
    scanNumber (signedChars negative numeral ++ rest) =
      .ok (number? negative numeral.whole numeral.fraction numeral.exponent, rest) := by
  have hexponent := head_exponentChars_append numeral.exponent hrest
  have hfraction := head_fractionChars_append numeral.fraction fun c hc => (hexponent c hc).1
  have hwhole := scanWhole_append h hfraction
  have hparts : numeral.chars ++ rest = numeral.whole ++
      (fractionChars numeral.fraction ++ (exponentChars numeral.exponent ++ rest)) := by
    simp only [Numeral.chars, List.append_assoc]
  obtain ⟨c, cs, hchars, hdigit⟩ := h.chars_eq_cons
  unfold scanNumber
  split
  next sign unsigned hsplit =>
  -- Without a sign the number starts with a digit, which is not taken for one.
  obtain ⟨rfl, rfl⟩ : negative = sign ∧ numeral.chars ++ rest = unsigned := by
    cases negative with
    | true => exact Prod.mk.inj hsplit
    | false =>
      rw [signedChars, if_neg Bool.false_ne_true, hchars] at hsplit
      split at hsplit
      · next hminus =>
        obtain ⟨rfl, -⟩ := List.cons.inj hminus
        exact absurd hdigit (by decide)
      · rw [hchars]
        exact Prod.mk.inj hsplit
  simp only [hparts, bind, Except.bind, hwhole, scanFraction_append h hexponent,
    scanExponent_append _ hrest]
  rfl

/-- The value that a number in a text is read as; there is none for a number out of range. -/
def numberValue : Option Number → Json
  | some n => .number n
  | none => .unreadable ⟨.malformed, none⟩

/-- A number is read as a value if it is in range. -/
theorem numberValue_eq_number {result : Option Number} {n : Number} :
    numberValue result = .number n ↔ result = some n := by
  cases result <;> simp [numberValue]

/-- A number is read as a value where it starts. -/
theorem readScalar_signedChars {numeral : Numeral} (h : numeral.WellFormed) (negative : Bool)
    {rest : List Char} (hrest : Stops rest) :
    ∃ c cs, signedChars negative numeral = c :: cs ∧ (c = '-' ∨ c.isDigit) ∧
      readScalar (c :: cs ++ rest) = (numberValue
        (number? negative numeral.whole numeral.fraction numeral.exponent), some rest) := by
  have hscan := scanNumber_append h negative hrest
  obtain ⟨c, cs, hcons, hstart⟩ : ∃ c cs, signedChars negative numeral = c :: cs ∧
      (c = '-' ∨ c.isDigit) := by
    obtain ⟨c, cs, hchars, hdigit⟩ := h.chars_eq_cons
    cases negative with
    | true => exact ⟨'-', numeral.chars, rfl, Or.inl rfl⟩
    | false => exact ⟨c, cs, hchars, Or.inr hdigit⟩
  refine ⟨c, cs, hcons, hstart, ?_⟩
  rw [hcons] at hscan
  have hread : readNumber (c :: cs ++ rest) = (numberValue
      (number? negative numeral.whole numeral.fraction numeral.exponent), some rest) := by
    rw [readNumber, hscan]
    cases number? negative numeral.whole numeral.fraction numeral.exponent <;> rfl
  -- A sign or a digit starts no word and no text, so only the case of numbers is left.
  rw [← hread, List.cons_append, readScalar.eq_def]
  split
  case h_6 heq =>
    obtain ⟨rfl, rfl⟩ := List.cons.inj heq
    rw [if_pos hstart]
  case h_1 heq => cases heq
  all_goals
    next heq =>
    obtain ⟨rfl, -⟩ := List.cons.inj heq
    exact absurd hstart (by decide)

/-! ## Values -/

/-- Some characters start with one that is neither blank nor the end of a container. -/
def Starts (cs : List Char) : Prop :=
  ∃ c rest, cs = c :: rest ∧ isBlank c = false ∧ c ≠ ']' ∧ c ≠ '\x7d'

/-- What starts with a given character still does so when more follows. -/
theorem Starts.append {cs : List Char} (h : Starts cs) (more : List Char) :
    Starts (cs ++ more) := by
  obtain ⟨c, rest, rfl, hstart⟩ := h
  exact ⟨c, rest ++ more, rfl, hstart⟩

/-- Some characters are read as a value in front of everything that no number goes on with. -/
structure Reads (cs : List Char) (value : Json) : Prop where
  start : Starts cs
  read : ∀ fuel rest, 2 * cs.length ≤ fuel → Stops rest →
    readValue fuel (cs ++ rest) = (value, some rest)

/-- A text that is read as a value holds that value and nothing else. -/
theorem Reads.document {text : String} {value : Json} (h : Reads text.toList value) :
    Json.read text = ⟨value, false⟩ := by
  have hread := h.read (2 * text.toList.length + 2) [] (by omega) stops_nil
  rw [List.append_nil] at hread
  rw [Json.read, hread]
  rfl

/-- The characters that no scalar starts with: blanks and brackets. -/
def outerChars : List Char :=
  [' ', '\t', '\n', '\r', '[', ']', '\x7b', '\x7d']

/-- A value that is no container is read as its reader says, since blanks and brackets start none.
-/
theorem reads_scalar {c : Char} {cs : List Char} {value : Json} (hc : c ∉ outerChars)
    (h : ∀ rest, Stops rest → readScalar (c :: cs ++ rest) = (value, some rest)) :
    Reads (c :: cs) value := by
  simp only [outerChars, List.mem_cons, List.not_mem_nil, or_false, not_or] at hc
  obtain ⟨hspace, htab, hline, hreturn, harray, harrayEnd, hobject, hobjectEnd⟩ := hc
  have hblank : isBlank c = false := by simp [isBlank, hspace, htab, hline, hreturn]
  refine ⟨⟨c, cs, rfl, hblank, harrayEnd, hobjectEnd⟩, fun fuel rest hfuel hrest => ?_⟩
  rw [← h rest hrest]
  cases fuel with
  | zero => simp at hfuel
  | succ fuel =>
    have hskip : skipBlank (c :: cs ++ rest) = c :: cs ++ rest := by
      simp [skipBlank, hblank]
    rw [readValue, hskip, List.cons_append]
    split
    · next heq => exact absurd (List.cons.inj heq).1 harray
    · next heq => exact absurd (List.cons.inj heq).1 hobject
    · rfl

/-- The word for null is read as null. -/
theorem reads_null : Reads "null".toList .null :=
  reads_scalar (by decide) fun _ _ => rfl

/-- The words for truth values are read as these. -/
theorem reads_bool (b : Bool) : Reads (Text.truth b).toList (.bool b) := by
  cases b with
  | true => exact reads_scalar (by decide) fun _ _ => rfl
  | false => exact reads_scalar (by decide) fun _ _ => rfl

/-- The text of a string is read as that string. -/
theorem reads_string (s : String) : Reads (stringText s).toList (.string s) := by
  obtain ⟨body, hbody, hscan⟩ := toList_stringText s
  rw [hbody]
  refine reads_scalar (by decide) fun rest _ => ?_
  simp only [List.cons_append, readScalar, hscan, String.ofList_toList]

/-- The characters of a number are read as what it stands for. -/
theorem reads_signedChars {numeral : Numeral} (h : numeral.WellFormed) (negative : Bool) :
    Reads (signedChars negative numeral)
      (numberValue (number? negative numeral.whole numeral.fraction numeral.exponent)) := by
  obtain ⟨c, cs, htext, hstart, -⟩ := readScalar_signedChars h negative stops_nil
  have hc : c ∉ outerChars := fun hmem => by
    have houter : ∀ d ∈ outerChars, ¬ (d = '-' ∨ d.isDigit) := by simp [outerChars]
    exact houter c hmem hstart
  rw [htext]
  refine reads_scalar hc fun rest hrest => ?_
  obtain ⟨c', cs', htext', -, hread⟩ := readScalar_signedChars h negative hrest
  obtain ⟨rfl, rfl⟩ := List.cons.inj (htext.symm.trans htext')
  exact hread

/-! ## Texts of numbers -/

/-- The text of an integer has its sign and its digits. -/
theorem toList_text_int (n : Int) : (Number.int n).text.toList =
    signedChars (decide (n < 0)) ⟨Nat.toDigits 10 n.natAbs, none, none⟩ := by
  have hchars : Numeral.chars ⟨Nat.toDigits 10 n.natAbs, none, none⟩ =
      Nat.toDigits 10 n.natAbs := List.append_nil _
  rw [Number.text, Int.repr_eq_if, signedChars, hchars]
  by_cases hsign : n < 0
  · have habs : (-n).toNat = n.natAbs := by omega
    simp [hsign, Int.not_le.mpr hsign, habs, Nat.repr_eq_ofList_toDigits]
  · have habs : n.toNat = n.natAbs := by omega
    simp [hsign, Int.not_lt.mp hsign, habs, Nat.repr_eq_ofList_toDigits]

/-- The text of a finite double has its sign and a number whose nearest double it is. -/
theorem toList_text_double {x : Double} (h : x.isFinite) : ∃ numeral : Numeral,
    numeral.WellFormed ∧ numeral.IsDouble ∧
      (Number.double x).text.toList = signedChars x.negative numeral ∧
        numeral.magnitude = x.magnitude := by
  have hfinite : x.magnitude < Double.infinite := of_decide_eq_true h
  have hnan : x.isNaN = false := decide_eq_false (Nat.not_lt_of_lt hfinite)
  obtain ⟨numeral, hformed, hdouble, htext, hmagnitude⟩ := Double.magnitudeText_numeral hfinite
  refine ⟨numeral, hformed, hdouble, ?_, hmagnitude⟩
  rw [Number.text, if_pos h, Double.text, hnan, if_neg Bool.false_ne_true, if_pos h,
    String.toList_append, htext, signedChars]
  cases x.negative <;> rfl

/-- An integer of 64 bits, signed or unsigned, is read from its sign and its digits. -/
theorem number?_int {n : Int} (hlow : -signedBound ≤ n) (hhigh : n < unsignedBound) :
    number? (decide (n < 0)) (Nat.toDigits 10 n.natAbs) none none = some (.int n) := by
  have hvalue : Nat.ofDigitChars 10 (Nat.toDigits 10 n.natAbs) 0 = n.natAbs :=
    Nat.ofDigitChars_ten_toDigits
  unfold number?
  simp only [hvalue]
  -- A zero with a sign would be a double, but the sign here is that of the integer.
  by_cases hsign : n < 0
  · have hpos : 0 < n.natAbs := by omega
    have hle : n.natAbs ≤ signedBound := by omega
    have hback : -(n.natAbs : Int) = n := by omega
    simp only [hsign, hpos, hle, hback, Option.isNone_none, decide_true, Bool.not_true,
      Bool.and_true, Bool.and_false, Bool.false_and, Bool.false_eq_true, if_false, if_true]
  · have hlt : n.natAbs < unsignedBound := by omega
    have hback : (n.natAbs : Int) = n := by omega
    simp only [hsign, hlt, hback, Option.isNone_none, decide_true, decide_false, Bool.not_false,
      Bool.and_true, if_true]

/-- A number with a fraction or an exponent is a double. -/
theorem number?_numeral {numeral : Numeral} (h : numeral.IsDouble) (negative : Bool) :
    number? negative numeral.whole numeral.fraction numeral.exponent =
      (decimal? numeral.whole (numeral.fraction.getD []) numeral.exponent).map fun magnitude =>
        .double (.ofMagnitude negative magnitude) := by
  have hparts : (numeral.fraction.isNone && numeral.exponent.isNone) = false := by
    rcases h with h | h
    · rw [Option.isNone_eq_false_iff.mpr h, Bool.false_and]
    · rw [Option.isNone_eq_false_iff.mpr h, Bool.and_false]
  unfold number?
  simp only [hparts, Bool.false_and, Bool.false_eq_true, if_false]

/-- A double with a sign is the one with the magnitude that its digits are read as. -/
theorem number?_eq_double {numeral : Numeral} (h : numeral.IsDouble) (x : Double) :
    number? x.negative numeral.whole numeral.fraction numeral.exponent = some (.double x) ↔
      decimal? numeral.whole (numeral.fraction.getD []) numeral.exponent = some x.magnitude := by
  rw [number?_numeral h, Option.map_eq_some_iff]
  constructor
  · rintro ⟨magnitude, hread, hdouble⟩
    have hlt := Nat.lt_trans (decimal?_lt_infinite hread) Double.infinite_lt
    injection hdouble with hx
    rw [hread, ← hx, Double.magnitude_ofMagnitude _ hlt]
  · exact fun hread => ⟨x.magnitude, hread, by rw [Double.ofMagnitude_magnitude]⟩

/-- A double reads back exactly if the number that is written for it is read as its magnitude. -/
theorem readsBack_iff {x : Double} {numeral : Numeral} (hformed : numeral.WellFormed)
    (hdouble : numeral.IsDouble)
    (htext : (Number.double x).text.toList = signedChars x.negative numeral) :
    x.ReadsBack ↔
      decimal? numeral.whole (numeral.fraction.getD []) numeral.exponent = some x.magnitude := by
  have hreads := reads_signedChars hformed x.negative
  rw [← htext] at hreads
  have hread : Json.read (Json.number (.double x)).compact = ⟨_, false⟩ := hreads.document
  rw [Double.ReadsBack, hread, Document.mk.injEq, and_iff_left rfl, numberValue_eq_number,
    number?_eq_double hdouble]

/-- The parts of a number are found again one after another. -/
theorem scan_parts {numeral : Numeral} (h : numeral.WellFormed) :
    scanWhole numeral.chars = .ok (numeral.whole,
      fractionChars numeral.fraction ++ exponentChars numeral.exponent) ∧
    scanFraction (fractionChars numeral.fraction ++ exponentChars numeral.exponent) =
      .ok (numeral.fraction, exponentChars numeral.exponent) ∧
    scanExponent (exponentChars numeral.exponent) = .ok (numeral.exponent, []) := by
  have hexponent := head_exponentChars_append numeral.exponent stops_nil
  have hscan := scanExponent_append numeral.exponent stops_nil
  rw [List.append_nil] at hexponent hscan
  have hfraction := head_fractionChars_append numeral.fraction fun c hc => (hexponent c hc).1
  exact ⟨scanWhole_append h hfraction, scanFraction_append h hexponent, hscan⟩

/-- A number is determined by its characters. -/
theorem numeral_eq_of_chars {numeral numeral' : Numeral} (h : numeral.WellFormed)
    (h' : numeral'.WellFormed) (heq : numeral.chars = numeral'.chars) : numeral = numeral' := by
  obtain ⟨hwhole, hfraction, hexponent⟩ := scan_parts h
  obtain ⟨hwhole', hfraction', hexponent'⟩ := scan_parts h'
  rw [heq, hwhole'] at hwhole
  obtain ⟨hwholes, hrest⟩ := Prod.mk.inj (Except.ok.inj hwhole)
  rw [← hrest, hfraction'] at hfraction
  obtain ⟨hfractions, hrest⟩ := Prod.mk.inj (Except.ok.inj hfraction)
  rw [← hrest, hexponent'] at hexponent
  obtain ⟨hexponents, -⟩ := Prod.mk.inj (Except.ok.inj hexponent)
  cases numeral
  cases numeral'
  exact Numeral.mk.injEq .. ▸ ⟨hwholes.symm, hfractions.symm, hexponents.symm⟩

/-- A number has few digits and a small exponent: no step but the last rounds in reading it. -/
def Short (numeral : Numeral) : Prop :=
  Nat.ofDigitChars 10 (numeral.whole ++ numeral.fraction.getD []) 0 < 2 ^ 53 ∧
    (numeral.exponent.getD 0 - (numeral.fraction.getD []).length).natAbs ≤ 22 ∧
    (numeral.exponent.getD 0).natAbs < exponentBound

instance (numeral : Numeral) : Decidable (Short numeral) :=
  inferInstanceAs (Decidable (_ ∧ _ ∧ _))

/-- A finite double that is written with few digits and a small exponent reads back. -/
theorem readsBack_of_short {x : Double} (hfinite : x.isFinite) {numeral : Numeral}
    (hformed : numeral.WellFormed) (hshort : Short numeral)
    (htext : (Number.double x).text.toList = signedChars x.negative numeral) : x.ReadsBack := by
  obtain ⟨numeral', hformed', hdouble, htext', hmagnitude⟩ := toList_text_double hfinite
  obtain rfl : numeral' = numeral := by
    refine numeral_eq_of_chars hformed' hformed ?_
    rw [htext', signedChars, signedChars] at htext
    split at htext
    · exact (List.cons.inj htext).2
    · exact htext
  rw [readsBack_iff hformed hdouble htext, decimal?_eq_ofDecimal hshort.1 hshort.2.1 hshort.2.2,
    ← hmagnitude, Numeral.magnitude]

/-- What is written for the double nearest to `3e25` is read as another one. -/
example : ¬ Double.ReadsBack ⟨0x4538D0BF423C03D9⟩ := by
  let numeral : Numeral := ⟨['3'], none, some 25⟩
  have hformed : numeral.WellFormed :=
    ⟨by simp [numeral], Or.inr ⟨'3', [], rfl, by simp⟩, nofun⟩
  rw [readsBack_iff hformed (Or.inr rfl) (by decide +kernel)]
  decide +kernel

/-- A number is read from its text: it is an integer of 64 bits or a double that reads back. -/
def Number.Readable : Number → Prop
  | .int n => -signedBound ≤ n ∧ n < unsignedBound
  | .double x => x.isFinite ∧ x.ReadsBack

/-- A number is read from its text if it is readable. -/
theorem reads_number {n : Number} (h : n.Readable) : Reads n.text.toList (.number n) := by
  cases n with
  | int n =>
    have hreads := reads_signedChars (Numeral.wellFormed_toDigits n.natAbs) (decide (n < 0))
    rwa [number?_int h.1 h.2, ← toList_text_int] at hreads
  | double x =>
    obtain ⟨numeral, hformed, hdouble, htext, -⟩ := toList_text_double h.1
    have hreads := reads_signedChars hformed x.negative
    have hread := (readsBack_iff hformed hdouble htext).mp h.2
    rwa [(number?_eq_double hdouble x).mpr hread, ← htext] at hreads

/-! ## Containers -/

/-- Characters between the parts of a text. -/
def Blank (gap : List Char) : Prop :=
  ∀ c ∈ gap, isBlank c

/-- No characters are blank. -/
theorem blank_nil : Blank [] := nofun

/-- Blanks in front of a text are passed over. -/
theorem skipBlank_append {gap : List Char} (h : Blank gap) (cs : List Char) :
    skipBlank (gap ++ cs) = skipBlank cs :=
  List.dropWhile_append_of_pos h

/-- A text that does not begin with a blank is not changed by passing over blanks. -/
theorem skipBlank_cons {c : Char} (h : isBlank c = false) (cs : List Char) :
    skipBlank (c :: cs) = c :: cs := by
  simp [skipBlank, h]

/-- No number goes on with blanks. -/
theorem stops_append {gap : List Char} (h : Blank gap) {rest : List Char} (hrest : Stops rest) :
    Stops (gap ++ rest) := by
  cases gap with
  | nil => exact hrest
  | cons c gap =>
    refine stops_cons ?_ _
    have hc : isBlank c = true := h c List.mem_cons_self
    simp only [isBlank, Bool.or_eq_true, beq_iff_eq] at hc
    rcases hc with ((rfl | rfl) | rfl) | rfl <;> decide

/-- Some characters are read as items of an array up to its end. -/
structure ReadsItems (cs : List Char) (items : List Json) : Prop where
  start : Starts cs
  read : ∀ fuel rest, 2 * cs.length + 1 ≤ fuel →
    readItems fuel (cs ++ rest) = (items, .closed, some rest)

section

variable {gap tail : List Char} (hgap : Blank gap) (htail : Blank tail)

include htail in
/-- The last item of an array is read up to the bracket. -/
theorem readsItems_last {cs : List Char} {item : Json} (h : Reads cs item) :
    ReadsItems (cs ++ (tail ++ [']'])) [item] where
  start := h.start.append _
  read := by
    intro fuel rest hfuel
    simp only [List.length_append, List.length_singleton] at hfuel
    cases fuel with
    | zero => simp at hfuel
    | succ fuel =>
      have hitem := h.read fuel (tail ++ ']' :: rest) (by omega)
        (stops_append htail (stops_cons (by decide) rest))
      have hskip : skipBlank (tail ++ ']' :: rest) = ']' :: rest := by
        rw [skipBlank_append htail, skipBlank_cons (by decide)]
      simp only [List.append_assoc, List.singleton_append]
      rw [readItems, hitem]
      simp only [hskip]

include hgap in
/-- An item of an array is read up to the comma, and then the others. -/
theorem readsItems_cons {cs more : List Char} {item : Json} {items : List Json} (h : Reads cs item)
    (hmore : ReadsItems more items) : ReadsItems (cs ++ ',' :: (gap ++ more)) (item :: items) where
  start := h.start.append _
  read := by
    intro fuel rest hfuel
    simp only [List.length_append, List.length_cons] at hfuel
    cases fuel with
    | zero => simp at hfuel
    | succ fuel =>
      -- The item ends in front of the comma; what follows starts an item and does not end the list.
      have hitem := h.read fuel (',' :: (gap ++ (more ++ rest))) (by omega)
        (stops_cons (by decide) _)
      have hitems := hmore.read fuel rest (by omega)
      have hcomma : skipBlank (',' :: (gap ++ (more ++ rest))) = ',' :: (gap ++ (more ++ rest)) :=
        skipBlank_cons (by decide) _
      obtain ⟨c, cs', hcons, hblank, hbracket, -⟩ := hmore.start.append rest
      have hskip : skipBlank (gap ++ (more ++ rest)) = c :: cs' := by
        rw [skipBlank_append hgap, hcons, skipBlank_cons hblank]
      simp only [List.append_assoc, List.cons_append]
      rw [readItems, hitem]
      simp only [hcomma, hskip]
      split
      · next heq => cases heq
      · next heq => exact absurd (List.cons.inj heq).1 hbracket
      · rw [← hcons, hitems]

include hgap htail in
/-- Items are read that are separated by commas. -/
theorem readsItems_intercalate {cs : List Char} {item : Json} (h : Reads cs item)
    {texts : List (List Char)} {items : List Json} (hrest : List.Forall₂ Reads texts items) :
    ReadsItems ((',' :: gap).intercalate (cs :: texts) ++ (tail ++ [']'])) (item :: items) := by
  induction hrest generalizing cs item with
  | nil =>
    rw [List.intercalate_singleton]
    exact readsItems_last htail h
  | cons hhead _ ih =>
    have hmore := readsItems_cons hgap h (ih hhead)
    simpa only [List.intercalate_cons_cons, List.append_assoc, List.cons_append] using hmore

include hgap htail in
/-- An array is read from its items, with blanks after the bracket and the commas and at the end. -/
theorem reads_array {texts : List (List Char)} {items : List Json}
    (h : List.Forall₂ Reads texts items) :
    Reads ('[' :: (gap ++ ((',' :: gap).intercalate texts ++ (tail ++ [']'])))) (.list items) where
  start := ⟨'[', _, rfl, by decide, by decide, by decide⟩
  read := by
    intro fuel rest hfuel _
    cases fuel with
    | zero => simp at hfuel
    | succ fuel =>
      have hbracket : isBlank '[' = false := by decide
      simp only [List.cons_append, List.append_assoc gap, readValue, skipBlank_cons hbracket,
        skipBlank_append hgap]
      -- Without items the two gaps meet, and the bracket is looked for behind both.
      cases h with
      | nil =>
        rw [List.intercalate_nil, List.nil_append, List.append_assoc, skipBlank_append htail,
          List.singleton_append, skipBlank_cons (by decide)]
        rfl
      | cons hhead hrest =>
        have hitems := readsItems_intercalate hgap htail hhead hrest
        obtain ⟨c, cs, hcons, hblank, hbracket, -⟩ := hitems.start.append rest
        rw [hcons, skipBlank_cons hblank, ← hcons]
        have hread := hitems.read fuel rest (by
          simp only [List.length_append, List.length_cons] at hfuel ⊢
          omega)
        split
        · next heq => exact absurd (List.cons.inj (hcons.symm.trans heq)).1 hbracket
        · next heq => exact absurd (hcons.symm.trans heq) (List.cons_ne_nil _ _)
        · rw [hread]
          rfl

end

/-- A value is read behind blanks as it is without them. -/
theorem Reads.read_append {cs : List Char} {value : Json} (h : Reads cs value) {gap : List Char}
    (hgap : Blank gap) {fuel : Nat} {rest : List Char} (hfuel : 2 * cs.length ≤ fuel)
    (hrest : Stops rest) : readValue fuel (gap ++ (cs ++ rest)) = (value, some rest) := by
  rw [← h.read fuel rest hfuel hrest]
  cases fuel with
  | zero => rfl
  | succ fuel => simp only [readValue, skipBlank_append hgap]

/-- Members are read behind blanks as they are without them. -/
theorem readMembers_append {gap : List Char} (hgap : Blank gap) (fuel : Nat)
    (breaking : Fault → Ending) (cs : List Char) :
    readMembers fuel breaking (gap ++ cs) = readMembers fuel breaking cs := by
  cases fuel with
  | zero => rfl
  | succ fuel => simp only [readMembers, skipBlank_append hgap]

/-- Some characters are read as a member of an object: a name, a colon and a value. -/
def ReadsMember (cs : List Char) (member : String × Json) : Prop :=
  ∃ gap value, Blank gap ∧ cs = (stringText member.1).toList ++ ':' :: (gap ++ value) ∧
    Reads value member.2

/-- Some characters are read as members of an object up to its end. -/
structure ReadsMembers (cs : List Char) (members : List (String × Json)) : Prop where
  start : Starts cs
  read : ∀ fuel breaking rest, 2 * cs.length + 1 ≤ fuel →
    readMembers fuel breaking (cs ++ rest) = (members, .closed, some rest)

/-- A member starts with the quote of its name. -/
theorem ReadsMember.start {cs : List Char} {member : String × Json} (h : ReadsMember cs member) :
    Starts cs := by
  obtain ⟨gap, value, -, rfl, -⟩ := h
  exact (reads_string member.1).start.append _

/-- A member is read behind its name. -/
theorem readMembers_name (fuel : Nat) (breaking : Fault → Ending) (name : String)
    (rest : List Char) :
    readMembers (fuel + 1) breaking ((stringText name).toList ++ rest) =
      readMember fuel name rest := by
  obtain ⟨body, hbody, hscan⟩ := toList_stringText name
  have hquote : isBlank '"' = false := by decide
  simp only [hbody, List.cons_append, readMembers, skipBlank_cons hquote, hscan,
    String.ofList_toList]

/-- The text of a string has a character at least, the quote. -/
theorem length_stringText (s : String) : 0 < (stringText s).toList.length := by
  obtain ⟨body, hbody, -⟩ := toList_stringText s
  rw [hbody]
  exact Nat.zero_lt_succ _

section

variable {gap tail : List Char} (hgap : Blank gap) (htail : Blank tail)

include htail in
/-- The last member of an object is read up to the bracket. -/
theorem readsMembers_last {cs : List Char} {member : String × Json} (h : ReadsMember cs member) :
    ReadsMembers (cs ++ (tail ++ ['\x7d'])) [member] := by
  refine ⟨h.start.append _, fun fuel breaking rest hfuel => ?_⟩
  obtain ⟨lead, value, hlead, rfl, hvalue⟩ := h
  have hname := length_stringText member.1
  simp only [List.length_append, List.length_cons] at hfuel
  -- One unit of fuel goes to the name and one to the value, which are longer than that.
  obtain ⟨fuel, rfl⟩ : ∃ k, fuel = k + 2 := ⟨fuel - 2, by omega⟩
  have hread : readValue fuel (lead ++ (value ++ (tail ++ '\x7d' :: rest))) =
      (member.2, some (tail ++ '\x7d' :: rest)) :=
    hvalue.read_append hlead (by omega) (stops_append htail (stops_cons (by decide) rest))
  have hcolon : isBlank ':' = false := by decide
  have hbrace : isBlank '\x7d' = false := by decide
  simp only [List.append_assoc, List.cons_append, List.nil_append]
  simp only [readMembers_name, readMember, skipBlank_cons hcolon, hread, skipBlank_append htail,
    skipBlank_cons hbrace]

include hgap in
/-- A member of an object is read up to the comma, and then the others. -/
theorem readsMembers_cons {cs more : List Char} {member : String × Json}
    {members : List (String × Json)} (h : ReadsMember cs member)
    (hmore : ReadsMembers more members) :
    ReadsMembers (cs ++ ',' :: (gap ++ more)) (member :: members) := by
  refine ⟨h.start.append _, fun fuel breaking rest hfuel => ?_⟩
  obtain ⟨lead, value, hlead, rfl, hvalue⟩ := h
  have hname := length_stringText member.1
  simp only [List.length_append, List.length_cons] at hfuel
  obtain ⟨fuel, rfl⟩ : ∃ k, fuel = k + 2 := ⟨fuel - 2, by omega⟩
  have hread : readValue fuel (lead ++ (value ++ ',' :: (gap ++ (more ++ rest)))) =
      (member.2, some (',' :: (gap ++ (more ++ rest)))) :=
    hvalue.read_append hlead (by omega) (stops_cons (by decide) _)
  -- Behind a comma the members are read with another fault at hand, which does not come up.
  have hmembers := hmore.read fuel .brokenAfterComma rest (by omega)
  rw [← readMembers_append hgap] at hmembers
  have hcolon : isBlank ':' = false := by decide
  have hcomma : isBlank ',' = false := by decide
  simp only [List.append_assoc, List.cons_append]
  simp only [readMembers_name, readMember, skipBlank_cons hcolon, hread, skipBlank_cons hcomma,
    hmembers]

include hgap htail in
/-- Members are read that are separated by commas. -/
theorem readsMembers_intercalate {cs : List Char} {member : String × Json}
    (h : ReadsMember cs member) {texts : List (List Char)} {members : List (String × Json)}
    (hrest : List.Forall₂ ReadsMember texts members) :
    ReadsMembers ((',' :: gap).intercalate (cs :: texts) ++ (tail ++ ['\x7d']))
      (member :: members) := by
  induction hrest generalizing cs member with
  | nil =>
    rw [List.intercalate_singleton]
    exact readsMembers_last htail h
  | cons hhead _ ih =>
    have hmore := readsMembers_cons hgap h (ih hhead)
    simpa only [List.intercalate_cons_cons, List.append_assoc, List.cons_append] using hmore

include hgap htail in
/-- An object is read from its members, with blanks after the brace and the commas and at the
end. -/
theorem reads_object {texts : List (List Char)} {members : List (String × Json)}
    (h : List.Forall₂ ReadsMember texts members) :
    Reads ('\x7b' :: (gap ++ ((',' :: gap).intercalate texts ++ (tail ++ ['\x7d']))))
      (.record members) where
  start := ⟨'\x7b', _, rfl, by decide, by decide, by decide⟩
  read := by
    intro fuel rest hfuel _
    cases fuel with
    | zero => simp at hfuel
    | succ fuel =>
      have hbrace : isBlank '\x7b' = false := by decide
      simp only [List.cons_append, List.append_assoc gap, readValue, skipBlank_cons hbrace,
        skipBlank_append hgap]
      -- Without members the two gaps meet, and the brace is looked for behind both.
      cases h with
      | nil =>
        rw [List.intercalate_nil, List.nil_append, List.append_assoc, skipBlank_append htail,
          List.singleton_append, skipBlank_cons (by decide)]
        rfl
      | cons hhead hrest =>
        have hmembers := readsMembers_intercalate hgap htail hhead hrest
        obtain ⟨c, cs, hcons, hblank, -, hend⟩ := hmembers.start.append rest
        rw [hcons, skipBlank_cons hblank, ← hcons]
        have hread := hmembers.read fuel .broken rest (by
          simp only [List.length_append, List.length_cons] at hfuel ⊢
          omega)
        split
        · next heq => exact absurd (List.cons.inj (hcons.symm.trans heq)).1 hend
        · rw [hread]
          rfl

end

/-! ## Whole texts -/

/-- A property of all numbers in a value. -/
inductive AllNumbers (p : Number → Prop) : Json → Prop where
  | null : AllNumbers p .null
  | bool (b : Bool) : AllNumbers p (.bool b)
  | number {n : Number} : p n → AllNumbers p (.number n)
  | string (s : String) : AllNumbers p (.string s)
  | array {items : List Json} {ending : Ending} :
      (∀ item ∈ items, AllNumbers p item) → AllNumbers p (.array items ending)
  | object {members : List (String × Json)} {ending : Ending} :
      (∀ member ∈ members, AllNumbers p member.2) → AllNumbers p (.object members ending)
  | unreadable (fault : Fault) : AllNumbers p (.unreadable fault)

/-- A number is one that a reader returns: an integer of 64 bits or a finite double. -/
def Number.Bounded : Number → Prop
  | .int n => -signedBound ≤ n ∧ n < unsignedBound
  | .double x => x.isFinite

/-- All numbers in a value are ones that a reader returns. -/
abbrev Bounded : Json → Prop :=
  AllNumbers Number.Bounded

mutual

/-- The doubles in a value. -/
def doubles : Json → List Double
  | .number (.double x) => [x]
  | .array items _ => itemDoubles items
  | .object members _ => memberDoubles members
  | _ => []

/-- The doubles in the items of an array. -/
def itemDoubles : List Json → List Double
  | [] => []
  | item :: rest => item.doubles ++ itemDoubles rest

/-- The doubles in the members of an object. -/
def memberDoubles : List (String × Json) → List Double
  | [] => []
  | (_, value) :: rest => value.doubles ++ memberDoubles rest

end

/-- A double in an item of an array is in its items. -/
theorem mem_itemDoubles {x : Double} {item : Json} (hx : x ∈ item.doubles) {items : List Json}
    (h : item ∈ items) : x ∈ itemDoubles items := by
  induction items with
  | nil => cases h
  | cons first rest ih =>
    rw [itemDoubles, List.mem_append]
    rcases List.mem_cons.mp h with rfl | h
    · exact Or.inl hx
    · exact Or.inr (ih h)

/-- A double in a member of an object is in its members. -/
theorem mem_memberDoubles {x : Double} {member : String × Json} (hx : x ∈ member.2.doubles)
    {members : List (String × Json)} (h : member ∈ members) : x ∈ memberDoubles members := by
  induction members with
  | nil => cases h
  | cons first rest ih =>
    rw [memberDoubles, List.mem_append]
    rcases List.mem_cons.mp h with rfl | h
    · exact Or.inl hx
    · exact Or.inr (ih h)

/-- Numbers that a reader returns are read from their texts if the doubles among them read back. -/
theorem Bounded.readable {value : Json} (h : value.Bounded)
    (hback : ∀ x ∈ value.doubles, x.isFinite → x.ReadsBack) :
    value.AllNumbers Number.Readable := by
  induction h with
  | null => exact .null
  | bool b => exact .bool b
  | string s => exact .string s
  | unreadable fault => exact .unreadable fault
  | @number n hn =>
    cases n with
    | int n => exact .number hn
    | double x => exact .number ⟨hn, hback x (by simp [doubles]) hn⟩
  | array _ ih =>
    rw [doubles] at hback
    exact .array fun item hitem => ih item hitem fun x hx => hback x (mem_itemDoubles hx hitem)
  | object _ ih =>
    rw [doubles] at hback
    exact .object fun member hmember => ih member hmember fun x hx =>
      hback x (mem_memberDoubles hx hmember)

/-- Items are written one by one. -/
theorem compactItems_eq_map (items : List Json) : compactItems items = items.map compact := by
  induction items with
  | nil => rfl
  | cons item rest ih => rw [compactItems, ih, List.map_cons]

/-- Members are written one by one, each behind its name. -/
theorem compactMembers_eq_map (members : List (String × Json)) :
    compactMembers members =
      members.map fun member => stringText member.1 ++ ":" ++ compact member.2 := by
  induction members with
  | nil => rfl
  | cons member rest ih => rw [compactMembers, ih, List.map_cons]

/-- A value without faults whose numbers are read from their texts is read from its own. -/
theorem reads_compact {value : Json} {depth : Nat} (hreadable : value.AllNumbers Number.Readable)
    (hfault : value.readFault depth = none) : Reads value.compact.toList value := by
  induction value using Json.induction generalizing depth with
  | null => exact reads_null
  | bool b => exact reads_bool b
  | number n =>
    obtain ⟨⟩ | ⟨⟩ | hn := hreadable
    exact reads_number hn
  | string s => exact reads_string s
  | array items ending ih =>
    cases hreadable with
    | array hitems =>
    obtain ⟨inner, rfl, hfaults, rfl⟩ := readFault_array.mp hfault
    have hreads : List.Forall₂ Reads (items.map fun item => item.compact.toList) items := by
      rw [List.forall₂_map_left_iff, List.forall₂_same]
      exact fun item hitem => ih item hitem (hitems item hitem) (hfaults item hitem)
    -- No blanks are written, so all gaps are empty.
    have harray := reads_array blank_nil blank_nil hreads
    simpa [compact, list, compactItems_eq_map, String.toList_intercalate, Function.comp_def] using
      harray
  | object members ending ih =>
    cases hreadable with
    | object hmembers =>
    obtain ⟨inner, rfl, hfaults, rfl⟩ := readFault_object.mp hfault
    have hreads : List.Forall₂ ReadsMember (members.map fun member =>
        (stringText member.1).toList ++ ':' :: ([] ++ member.2.compact.toList)) members := by
      rw [List.forall₂_map_left_iff, List.forall₂_same]
      intro member hmember
      have hread := ih member hmember (hmembers member hmember) (hfaults member hmember)
      exact ⟨[], _, blank_nil, rfl, hread⟩
    have hobject := reads_object blank_nil blank_nil hreads
    simpa [compact, record, compactMembers_eq_map, String.toList_intercalate,
      Function.comp_def] using hobject
  | unreadable fault => simp [readFault] at hfault

/-- A number that is made of its parts is an integer of 64 bits or a finite double. -/
theorem number?_bounded {negative : Bool} {whole : List Char} {fraction : Option (List Char)}
    {exponent : Option Int} {n : Number} (h : number? negative whole fraction exponent = some n) :
    n.Bounded := by
  unfold number? at h
  dsimp only at h
  split at h
  · next hint =>
    obtain rfl := Option.some.inj h
    simp only [Bool.and_eq_true, decide_eq_true_eq] at hint
    exact ⟨by omega, by omega⟩
  · split at h
    · next hint =>
      obtain rfl := Option.some.inj h
      simp only [Bool.and_eq_true, decide_eq_true_eq] at hint
      exact ⟨by omega, by omega⟩
    · obtain ⟨magnitude, hread, rfl⟩ := Option.map_eq_some_iff.mp h
      exact Double.isFinite_ofMagnitude negative (decimal?_lt_infinite hread)

/-- A number that is read from characters is one that can be written. -/
theorem scanNumber_bounded {cs rest : List Char} {n : Number}
    (h : scanNumber cs = .ok (some n, rest)) : n.Bounded := by
  obtain ⟨_, _, _, _, _, _, _, -, -, -, -, hn⟩ := scanNumber_cases h
  exact number?_bounded hn.symm

/-- The value of a number that is read has nothing but numbers that can be written. -/
theorem readNumber_bounded (cs : List Char) : (readNumber cs).1.Bounded := by
  unfold readNumber
  split
  · next hscan => exact .number (scanNumber_bounded hscan)
  · exact .unreadable _
  · exact .unreadable _

/-- A word has no numbers beside those in the value that it stands for. -/
theorem readWord_bounded (word : String) {value : Json} (h : value.Bounded) (cs : List Char) :
    (readWord word value cs).1.Bounded := by
  unfold readWord
  split
  · exact h
  · exact .unreadable _

/-- A value that is no container has nothing but numbers that can be written. -/
theorem readScalar_bounded (cs : List Char) : (readScalar cs).1.Bounded := by
  unfold readScalar
  split
  · exact .unreadable _
  · split
    · exact .string _
    · exact .unreadable _
  · exact readWord_bounded _ .null _
  · exact readWord_bounded _ (.bool true) _
  · exact readWord_bounded _ (.bool false) _
  · split
    · exact readNumber_bounded _
    · exact .unreadable _

/-- The readers of values, items and members return numbers that can be written. -/
theorem readers_bounded (fuel : Nat) :
    (∀ cs, (readValue fuel cs).1.Bounded) ∧
      (∀ cs, ∀ item ∈ (readItems fuel cs).1, item.Bounded) ∧
      (∀ breaking cs, ∀ member ∈ (readMembers fuel breaking cs).1, member.2.Bounded) ∧
      ∀ name cs, ∀ member ∈ (readMember fuel name cs).1, member.2.Bounded := by
  induction fuel with
  | zero =>
    refine ⟨fun cs => .unreadable _, fun _ => List.forall_mem_nil _, fun _ _ => List.forall_mem_nil _,
      fun name cs => ?_⟩
    exact List.forall_mem_singleton.mpr (.unreadable _)
  | succ fuel ih =>
    -- Each reader passes on what others have read with less fuel; only scalars are new.
    obtain ⟨hvalue, hitems, hmembers, hmember⟩ := ih
    refine ⟨fun cs => ?_, fun cs => ?_, fun breaking cs => ?_, fun name cs => ?_⟩
    · rw [readValue]
      split
      · split
        · exact .array (List.forall_mem_nil _)
        · exact .array (List.forall_mem_nil _)
        · exact .array (hitems _)
      · split
        · exact .object (List.forall_mem_nil _)
        · exact .object (hmembers _ _)
      · exact readScalar_bounded _
    · have hcs := hvalue cs
      rw [readItems]
      split
      · next item hread =>
        rw [hread] at hcs
        exact List.forall_mem_singleton.mpr hcs
      · next item rest hread =>
        rw [hread] at hcs
        have hone : ∀ other ∈ [item], other.Bounded := List.forall_mem_singleton.mpr hcs
        split
        · exact hone
        · exact hone
        · split
          · exact hone
          · exact hone
          · exact List.forall_mem_cons.mpr ⟨hcs, hitems _⟩
        · exact hone
    · rw [readMembers]
      split
      · split
        · exact hmember _ _
        · exact List.forall_mem_nil _
        · exact List.forall_mem_nil _
      · exact List.forall_mem_nil _
      · exact List.forall_mem_nil _
    · rw [readMember]
      split
      · next rest _ =>
        have hrest := hvalue rest
        split
        · next value hread =>
          rw [hread] at hrest
          exact List.forall_mem_singleton.mpr hrest
        · next value rest' hread =>
          rw [hread] at hrest
          have hone : ∀ member ∈ [(name, value)], member.2.Bounded :=
            List.forall_mem_singleton.mpr hrest
          split
          · exact hone
          · exact hone
          · exact List.forall_mem_cons.mpr ⟨hrest, hmembers _ _⟩
          · exact hone
      · exact List.forall_mem_singleton.mpr (.unreadable _)
      · exact List.forall_mem_singleton.mpr (.unreadable _)

/-- A reader of a text returns numbers that can be written. -/
theorem read_bounded (text : String) : (read text).root.Bounded := by
  rw [read, Document.root_ofValue]
  exact (readers_bounded (2 * text.toList.length + 2)).1 text.toList

/-- The text that is written for a value without faults holds that value and nothing else, if its
numbers are read from their texts. -/
theorem read_compact {value : Json} {depth : Nat} (hreadable : value.AllNumbers Number.Readable)
    (hfault : value.readFault depth = none) : read value.compact = ⟨value, false⟩ :=
  (reads_compact hreadable hfault).document

end Json

end Lowering
