import Lowering.Json.Reader

/-!
# The fuel of a reader of texts

Values nest, and the readers of values recurse on a fuel. A reader that runs out of it finds what it
finds at the end of the text, so it matters that this never happens. Whatever is left of a text is
an end of it (`Leaves`, `readers_leave`), and a reader that goes deeper without having taken a
character, from the items of an array into the first of them, does so once before the next
character. So two units for each character are enough, and with any more fuel than `Json.read` has,
the same is found (`Json.read_eq`).
-/

namespace Lowering.Json

/-! ## What is left of a text -/

/-- The text behind a string, if someone gets past it. -/
def StringScan.rest? : StringScan → Option (List Char)
  | .text _ rest => some rest
  | .fault _ rest => rest

namespace StringScan

/-- Someone who has read a string gets past it. -/
@[simp] theorem rest?_text (content rest : List Char) : (text content rest).rest? = some rest :=
  rfl

/-- A fault says itself what can be passed over. -/
@[simp] theorem rest?_fault (fault : Fault) (rest : Option (List Char)) :
    (StringScan.fault fault rest).rest? = rest :=
  rfl

/-- Nobody gets past what is wrong altogether. -/
@[simp] theorem rest?_fatal (cause : Cause) : (fatal cause).rest? = none :=
  rfl

/-- The content of a string says nothing about what stands behind it. -/
@[simp] theorem rest?_cons (c : Char) (scan : StringScan) : (scan.cons c).rest? = scan.rest? := by
  cases scan <;> rfl

/-- An escape for half a character can be passed over. -/
@[simp] theorem rest?_spoil (scan : StringScan) : scan.spoil.rest? = scan.rest? := by
  cases scan <;> rfl

end StringScan

/-- What is left of a text is an end of it. -/
def Leaves (cs : List Char) (left : Option (List Char)) : Prop :=
  ∀ rest ∈ left, rest <:+ cs

namespace Leaves

variable {cs : List Char} {left : Option (List Char)}

/-- Nothing is left. -/
@[simp] theorem none : Leaves cs none :=
  nofun

/-- Something is left. -/
@[simp] theorem some_iff {rest : List Char} : Leaves cs (some rest) ↔ rest <:+ cs := by
  simp [Leaves]

/-- An end of an end is an end. -/
theorem trans {more : List Char} (h : Leaves more left) (hmore : more <:+ cs) : Leaves cs left :=
  fun rest hrest => (h rest hrest).trans hmore

/-- What is left of a text is left of a longer one. -/
theorem append (h : Leaves cs left) (front : List Char) : Leaves (front ++ cs) left :=
  h.trans (List.suffix_append front cs)

end Leaves

/-- Blanks that are passed over stand in front. -/
theorem skipBlank_suffix (cs : List Char) : skipBlank cs <:+ cs :=
  List.dropWhile_suffix _

/-- What stands behind the first character that is not blank. -/
theorem suffix_of_skipBlank {cs rest : List Char} {c : Char} (h : skipBlank cs = c :: rest) :
    rest <:+ cs :=
  (List.suffix_cons c rest).trans (h ▸ skipBlank_suffix cs)

/-- The first character that is not blank is a character. -/
theorem length_lt_of_skipBlank {cs rest : List Char} {c : Char} (h : skipBlank cs = c :: rest) :
    rest.length < cs.length := by
  have hlength := (skipBlank_suffix cs).length_le
  rw [h, List.length_cons] at hlength
  omega

/-- Behind a string stands an end of the text. -/
theorem scanString_leaves (cs : List Char) : Leaves cs (scanString cs).rest? := by
  fun_induction scanString cs
  all_goals simp +zetaDelta only [StringScan.rest?_text, StringScan.rest?_fatal,
    StringScan.rest?_cons, StringScan.rest?_spoil, Leaves.none, Leaves.some_iff]
  case case2 => exact List.suffix_cons _ _
  case case5 _ ih => exact ih.append ['\\', 'u', _, _, _, _, '\\', 'u', _, _, _, _]
  case case6 ih => exact ih.append ['\\', 'u', _, _, _, _]
  case case9 ih => exact ih.append ['\\', 'u', _, _, _, _]
  case case10 ih => exact ih.append ['\\', 'u', _, _, _, _]
  case case11 ih => exact ih.append ['\\', 'u', _, _, _, _]
  case case13 ih => exact ih.append ['\\', _]
  case case16 ih => exact ih.append [_]

/-- Behind digits stands an end of the text. -/
theorem scanDigits_suffix {cs digits rest : List Char} (h : scanDigits cs = .ok (digits, rest)) :
    rest <:+ cs := by
  unfold scanDigits at h
  split at h
  · cases h
  · cases h
  · cases h
    exact List.dropWhile_suffix _

/-- Behind the digits before a point stands an end of the text. -/
theorem scanWhole_suffix {cs digits rest : List Char} (h : scanWhole cs = .ok (digits, rest)) :
    rest <:+ cs := by
  unfold scanWhole at h
  split at h
  · split at h
    · cases h
    · cases h
      exact List.suffix_cons _ _
  · exact scanDigits_suffix h

/-- What is made of digits and keeps the text behind them. -/
theorem map_scanDigits_suffix {α : Type} {cs rest : List Char} {a : α}
    {f : List Char × List Char → α × List Char} (h : (scanDigits cs).map f = .ok (a, rest))
    (hf : ∀ found, (f found).2 = found.2) : rest <:+ cs := by
  rcases hdigits : scanDigits cs with cause | found
  · rw [hdigits] at h
    cases h
  · rw [hdigits] at h
    obtain rfl : found.2 = rest := (hf found).symm.trans (congrArg Prod.snd (Except.ok.inj h))
    exact scanDigits_suffix hdigits

/-- Behind a fraction stands an end of the text. -/
theorem scanFraction_suffix {cs rest : List Char} {fraction : Option (List Char)}
    (h : scanFraction cs = .ok (fraction, rest)) : rest <:+ cs := by
  unfold scanFraction at h
  split at h
  · exact (map_scanDigits_suffix h fun _ => rfl).trans (List.suffix_cons _ _)
  · cases h
    exact List.suffix_rfl

/-- Behind an exponent stands an end of the text. -/
theorem scanExponent_suffix {cs rest : List Char} {exponent : Option Int}
    (h : scanExponent cs = .ok (exponent, rest)) : rest <:+ cs := by
  unfold scanExponent at h
  split at h
  · split at h
    · split at h
      next digits hsign =>
      refine (map_scanDigits_suffix h fun _ => rfl).trans ?_
      split at hsign <;> cases hsign
      · exact List.suffix_append [_, _] _
      · exact List.suffix_append [_, _] _
      · exact List.suffix_cons _ _
    · cases h
      exact List.suffix_rfl
  · cases h
    exact List.suffix_rfl

/-- The parts of a number that has been read. -/
theorem scanNumber_cases {cs rest : List Char} {n : Option Number}
    (h : scanNumber cs = .ok (n, rest)) :
    ∃ negative unsigned whole behindWhole fraction behindFraction exponent, unsigned <:+ cs ∧
      scanWhole unsigned = .ok (whole, behindWhole) ∧
      scanFraction behindWhole = .ok (fraction, behindFraction) ∧
      scanExponent behindFraction = .ok (exponent, rest) ∧
      n = number? negative whole fraction exponent := by
  unfold scanNumber at h
  split at h
  next negative unsigned hsign =>
  have hunsigned : unsigned <:+ cs := by
    split at hsign <;> cases hsign
    · exact List.suffix_cons _ _
    · exact List.suffix_rfl
  rcases hwhole : scanWhole unsigned with _ | ⟨whole, behindWhole⟩
  · rw [hwhole] at h
    cases h
  · rcases hfraction : scanFraction behindWhole with _ | ⟨fraction, behindFraction⟩
    · simp only [hwhole, bind, Except.bind, hfraction] at h
      cases h
    · rcases hexponent : scanExponent behindFraction with _ | ⟨exponent, behind⟩
      · simp only [hwhole, bind, Except.bind, hfraction, hexponent] at h
        cases h
      · simp only [hwhole, bind, Except.bind, hfraction, hexponent] at h
        cases h
        exact ⟨negative, unsigned, whole, behindWhole, fraction, behindFraction, exponent,
          hunsigned, hwhole, hfraction, hexponent, rfl⟩

/-- Behind a number stands an end of the text. -/
theorem scanNumber_suffix {cs rest : List Char} {n : Option Number}
    (h : scanNumber cs = .ok (n, rest)) : rest <:+ cs := by
  obtain ⟨_, unsigned, _, behindWhole, _, behindFraction, _, hunsigned, hwhole, hfraction, hexponent,
    -⟩ := scanNumber_cases h
  have hbehind : rest <:+ behindWhole :=
    (scanExponent_suffix hexponent).trans (scanFraction_suffix hfraction)
  exact hbehind.trans ((scanWhole_suffix hwhole).trans hunsigned)

/-- What a number leaves is an end of the text. -/
theorem readNumber_leaves (cs : List Char) : Leaves cs (readNumber cs).2 := by
  unfold readNumber
  split
  · next hscan => exact Leaves.some_iff.mpr (scanNumber_suffix hscan)
  · next hscan => exact Leaves.some_iff.mpr (scanNumber_suffix hscan)
  · exact .none

/-- Behind a word stands an end of the text. -/
theorem scanWord_suffix {word cs rest : List Char} (h : scanWord word cs = .ok rest) :
    rest <:+ cs := by
  induction word generalizing cs with
  | nil =>
    cases h
    exact List.suffix_rfl
  | cons expected word ih =>
    cases cs with
    | nil => cases h
    | cons c cs =>
      rw [scanWord] at h
      split at h
      · exact (ih h).trans (List.suffix_cons c cs)
      · cases h

/-- What a word leaves is an end of the text. -/
theorem readWord_leaves (word : String) (value : Json) (cs : List Char) :
    Leaves cs (readWord word value cs).2 := by
  unfold readWord
  split
  · next hscan => exact Leaves.some_iff.mpr (scanWord_suffix hscan)
  · exact .none

/-- What a value that is no container leaves is an end of the text. -/
theorem readScalar_leaves (cs : List Char) : Leaves cs (readScalar cs).2 := by
  unfold readScalar
  split
  · exact .none
  · next rest =>
    have hscan := scanString_leaves rest
    split
    · next heq =>
      rw [heq] at hscan
      exact hscan.append [_]
    · next heq =>
      rw [heq] at hscan
      exact hscan.append [_]
  · exact (readWord_leaves _ _ _).append [_]
  · exact (readWord_leaves _ _ _).append [_]
  · exact (readWord_leaves _ _ _).append [_]
  · split
    · exact readNumber_leaves _
    · exact .none

/-- What is left behind values, items and members that are read with some fuel is an end of the
text. -/
structure ReadersLeave (fuel : Nat) : Prop where
  value : ∀ cs, Leaves cs (readValue fuel cs).2
  items : ∀ cs, Leaves cs (readItems fuel cs).2.2
  members : ∀ breaking cs, Leaves cs (readMembers fuel breaking cs).2.2
  member : ∀ name cs, Leaves cs (readMember fuel name cs).2.2

namespace ReadersLeave

variable {fuel : Nat}

/-- A value leaves what its items or members leave, or what stands behind its bracket. -/
theorem value_succ (h : ReadersLeave fuel) (cs : List Char) :
    Leaves cs (readValue (fuel + 1) cs).2 := by
  rw [readValue]
  split
  · next rest hbracket =>
    have hrest := suffix_of_skipBlank hbracket
    split
    · next hend => exact Leaves.some_iff.mpr ((suffix_of_skipBlank hend).trans hrest)
    · exact .none
    · exact (h.items _).trans ((skipBlank_suffix rest).trans hrest)
  · next rest hbrace =>
    have hrest := suffix_of_skipBlank hbrace
    split
    · next hend => exact Leaves.some_iff.mpr ((suffix_of_skipBlank hend).trans hrest)
    · exact (h.members _ _).trans ((skipBlank_suffix rest).trans hrest)
  · exact (readScalar_leaves _).trans (skipBlank_suffix cs)

/-- Items leave what stands behind the bracket, or what the others leave behind the comma. -/
theorem items_succ (h : ReadersLeave fuel) (cs : List Char) :
    Leaves cs (readItems (fuel + 1) cs).2.2 := by
  have hcs := h.value cs
  rw [readItems]
  split
  · exact .none
  · next item rest hread =>
    rw [hread] at hcs
    -- Behind the item stands an end of the text, and so behind what follows it.
    have hrest := Leaves.some_iff.mp hcs
    split
    · exact .none
    · next hend => exact Leaves.some_iff.mpr ((suffix_of_skipBlank hend).trans hrest)
    · next hcomma =>
      have hbehind := (suffix_of_skipBlank hcomma).trans hrest
      split
      · exact .none
      · exact .none
      · exact (h.items _).trans ((skipBlank_suffix _).trans hbehind)
    · exact .none

/-- Members leave what the first of them leaves behind its name, also where the name is at fault. -/
theorem members_succ (h : ReadersLeave fuel) (breaking : Fault → Ending) (cs : List Char) :
    Leaves cs (readMembers (fuel + 1) breaking cs).2.2 := by
  rw [readMembers]
  split
  · next rest hquote =>
    have hrest := suffix_of_skipBlank hquote
    have hscan := scanString_leaves rest
    split
    · next name rest' heq =>
      rw [heq, StringScan.rest?_text, Leaves.some_iff] at hscan
      exact (h.member _ _).trans (hscan.trans hrest)
    · exact .none
    · next fault rest' heq =>
      rw [heq, StringScan.rest?_fault, Leaves.some_iff] at hscan
      exact (h.member _ _).trans (hscan.trans hrest)
  · exact .none
  · exact .none

/-- A member leaves what stands behind the bracket, or what the others leave behind the comma. -/
theorem member_succ (h : ReadersLeave fuel) (name : String) (cs : List Char) :
    Leaves cs (readMember (fuel + 1) name cs).2.2 := by
  rw [readMember]
  split
  · next rest hcolon =>
    have hvalue := h.value rest
    split
    · exact .none
    · next value rest' hread =>
      rw [hread] at hvalue
      have hrest := (Leaves.some_iff.mp hvalue).trans (suffix_of_skipBlank hcolon)
      split
      · exact .none
      · next hend => exact Leaves.some_iff.mpr ((suffix_of_skipBlank hend).trans hrest)
      · next hcomma => exact (h.members _ _).trans ((suffix_of_skipBlank hcomma).trans hrest)
      · exact .none
  · exact .none
  · exact .none

end ReadersLeave

/-- What is left behind values, items and members is an end of the text, with any fuel. -/
theorem readers_leave : ∀ fuel, ReadersLeave fuel
  | 0 => ⟨fun _ => .none, fun _ => .none, fun _ _ => .none, fun _ _ => .none⟩
  | fuel + 1 =>
    have h := readers_leave fuel
    ⟨h.value_succ, h.items_succ, h.members_succ, h.member_succ⟩

/-! ## Fuel -/

/-- The value of a document is the one that has been read. -/
@[simp] theorem Document.root_ofValue (found : Json × Option (List Char)) :
    (Document.ofValue found).root = found.1 := by
  obtain ⟨root, _ | rest⟩ := found <;> rfl

/-- Some fuel is enough for texts of which it is twice the length, with one or two units more: with
another unit the same is read. -/
structure Suffices (fuel : Nat) : Prop where
  value : ∀ cs, 2 * cs.length + 1 ≤ fuel → readValue (fuel + 1) cs = readValue fuel cs
  items : ∀ cs, 2 * cs.length + 2 ≤ fuel → readItems (fuel + 1) cs = readItems fuel cs
  members : ∀ breaking cs, 2 * cs.length + 2 ≤ fuel →
    readMembers (fuel + 1) breaking cs = readMembers fuel breaking cs
  member : ∀ name cs, 2 * cs.length + 1 ≤ fuel →
    readMember (fuel + 1) name cs = readMember fuel name cs

namespace Suffices

variable {fuel : Nat}

/-- A value takes its bracket before its items or members are read. -/
theorem value_succ (h : Suffices fuel) (cs : List Char) (hfuel : 2 * cs.length + 1 ≤ fuel + 1) :
    readValue (fuel + 2) cs = readValue (fuel + 1) cs := by
  rw [readValue, readValue]
  -- An opening bracket is used up, which pays for the call below.
  split
  · next rest hbracket =>
    have hrest := length_lt_of_skipBlank hbracket
    split
    · rfl
    · rfl
    · have hblank := (skipBlank_suffix rest).length_le
      rw [h.items _ (by omega)]
  · next rest hbrace =>
    have hrest := length_lt_of_skipBlank hbrace
    split
    · rfl
    · have hblank := (skipBlank_suffix rest).length_le
      rw [h.members _ _ (by omega)]
  · rfl

/-- The first of some items is read from the same text, and the others from behind a comma. -/
theorem items_succ (h : Suffices fuel) (cs : List Char) (hfuel : 2 * cs.length + 2 ≤ fuel + 1) :
    readItems (fuel + 2) cs = readItems (fuel + 1) cs := by
  -- The item is read with less fuel as well; what it leaves is no longer than what it was given.
  have hcs := (readers_leave fuel).value cs
  rw [readItems, readItems, h.value cs (by omega)]
  split
  · rfl
  · next item rest hread =>
    rw [hread] at hcs
    have hrest := (Leaves.some_iff.mp hcs).length_le
    split
    · rfl
    · rfl
    · next rest' hcomma =>
      have hbehind := length_lt_of_skipBlank hcomma
      split
      · rfl
      · rfl
      · have hblank := (skipBlank_suffix rest').length_le
        rw [h.items _ (by omega)]
    · rfl

/-- Members take the quote of a name before the first of them is read. -/
theorem members_succ (h : Suffices fuel) (breaking : Fault → Ending) (cs : List Char)
    (hfuel : 2 * cs.length + 2 ≤ fuel + 1) :
    readMembers (fuel + 2) breaking cs = readMembers (fuel + 1) breaking cs := by
  rw [readMembers, readMembers]
  split
  · next rest hquote =>
    have hrest := length_lt_of_skipBlank hquote
    have hscan := scanString_leaves rest
    split
    · next name rest' heq =>
      rw [heq, StringScan.rest?_text, Leaves.some_iff] at hscan
      have hbehind := hscan.length_le
      rw [h.member _ _ (by omega)]
    · rfl
    · next fault rest' heq =>
      rw [heq, StringScan.rest?_fault, Leaves.some_iff] at hscan
      have hbehind := hscan.length_le
      rw [h.member _ _ (by omega)]
  · rfl
  · rfl

/-- A member takes a colon before its value is read, and a comma before the others are. -/
theorem member_succ (h : Suffices fuel) (name : String) (cs : List Char)
    (hfuel : 2 * cs.length + 1 ≤ fuel + 1) :
    readMember (fuel + 2) name cs = readMember (fuel + 1) name cs := by
  rw [readMember, readMember]
  split
  · next rest hcolon =>
    have hrest := length_lt_of_skipBlank hcolon
    have hvalue := (readers_leave fuel).value rest
    rw [h.value rest (by omega)]
    split
    · rfl
    · next value rest' hread =>
      rw [hread] at hvalue
      have hbehind := (Leaves.some_iff.mp hvalue).length_le
      split
      · rfl
      · rfl
      · next hcomma =>
        -- The colon and the comma are used up, which pays for the members that follow.
        have hlast := length_lt_of_skipBlank hcomma
        rw [h.members _ _ (by omega)]
      · rfl
  · rfl
  · rfl

end Suffices

/-- Two units of fuel for each character are enough, with one more in front of items or members. -/
theorem suffices_fuel : ∀ fuel, Suffices fuel
  | 0 => by constructor <;> intros <;> omega
  | fuel + 1 =>
    have h := suffices_fuel fuel
    ⟨h.value_succ, h.items_succ, h.members_succ, h.member_succ⟩

/-- With all fuel that covers a text, the same value is read. -/
theorem readValue_eq_of_le {fuel : Nat} {cs : List Char} (hfuel : 2 * cs.length + 1 ≤ fuel) :
    readValue fuel cs = readValue (2 * cs.length + 1) cs := by
  obtain ⟨more, rfl⟩ := Nat.exists_eq_add_of_le hfuel
  clear hfuel
  induction more with
  | zero => rfl
  | succ more ih => rw [← Nat.add_assoc, (suffices_fuel _).value cs (by omega), ih]

/-- A text is read alike with all fuel that covers it, so that running out of fuel never decides
what it holds. -/
theorem read_eq {text : String} {fuel : Nat} (hfuel : 2 * text.toList.length + 1 ≤ fuel) :
    read text = .ofValue (readValue fuel text.toList) := by
  rw [read, readValue_eq_of_le hfuel, readValue_eq_of_le (by omega)]

end Lowering.Json
