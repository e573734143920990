import Lowering.Proofs.Image.Bytes

/-!
# Bytes that end too early

The bytes of an image, cut off anywhere, are refused for the reason that they end too early, and for
no other. `Wire.Takes` says of a reader what becomes of the bytes that are written for a value:
given all of them it finds the value, and given only some of them it misses the end. One reader
behind another takes the bytes of both (`Takes.bind`), wherever the cut falls, so the readers of
data inherit it from those of numbers and texts by the schema.

A reader without fuel misses the end of everything, so nothing here depends on how much there is. That
it is always enough, and the end is missed only where bytes are missing, is `Wire.read_eq_decode`.
-/

namespace Lowering.Wire

variable {α β : Type}

/-- A reader takes bytes for a value: given all of them it finds the value, as far as its fuel goes,
and given only some of them it misses the end. -/
structure Takes (reader : Reader α) (code : List UInt8) (a : α) : Prop where
  whole : ∀ rest, reader (code ++ rest) = .ok (a, rest) ∨
    reader (code ++ rest) = .error .unexpectedEnd
  cut : ∀ part, part <+: code → part ≠ code → reader part = .error .unexpectedEnd

/-- A part of a list that is not all of it is shorter. -/
theorem length_lt_of_part {part code : List UInt8} (h : part <+: code) (hne : part ≠ code) :
    part.length < code.length :=
  Nat.lt_of_le_of_ne h.length_le fun hlength => hne (h.eq_of_length hlength)

namespace Takes

variable {reader : Reader α} {code more : List UInt8} {a : α} {b : β}

/-- A reader that takes no bytes. -/
theorem pure (a : α) : Takes (fun bytes => .ok (a, bytes)) [] a where
  whole := fun _ => Or.inl rfl
  cut := fun _ hpart hne => absurd (List.prefix_nil.mp hpart) hne

/-- A reader without fuel. -/
theorem starved : Takes (fun _ => .error .unexpectedEnd) code a where
  whole := fun _ => Or.inr rfl
  cut := fun _ _ _ => rfl

/-- One reader behind another. -/
theorem bind {next : α × List UInt8 → Except Fault (β × List UInt8)} (h : Takes reader code a)
    (h' : Takes (fun rest => next (a, rest)) more b) :
    Takes (fun bytes => reader bytes >>= next) (code ++ more) b where
  whole := by
    intro rest
    rw [List.append_assoc]
    rcases h.whole (more ++ rest) with hread | hread <;> simp only [hread]
    · exact h'.whole rest
    · exact Or.inr rfl
  cut := by
    intro part hpart hne
    by_cases hcode : code <+: part
    · -- The first reader has all of its bytes, and the cut is in those of the second.
      obtain ⟨tail, rfl⟩ := hcode
      have htail := (List.prefix_append_right_inj code).mp hpart
      rcases h.whole tail with hread | hread <;> simp only [hread]
      · exact h'.cut tail htail fun heq => hne (by rw [heq])
      · rfl
    · -- The cut is in the bytes of the first reader, and the second is not reached.
      have hshort : part <+: code :=
        (List.prefix_or_prefix_of_prefix hpart (List.prefix_append code more)).resolve_right hcode
      have hpartial := h.cut part hshort fun heq => hcode (heq ▸ List.prefix_refl _)
      simp only [hpartial]
      rfl

/-- A reader that goes on with what another has found. -/
theorem map (f : α → β) (h : Takes reader code a) :
    Takes (fun bytes => reader bytes >>= fun found => .ok (f found.1, found.2)) code (f a) := by
  have hbind : Takes (fun bytes => reader bytes >>= fun found => .ok (f found.1, found.2))
      (code ++ []) (f a) := h.bind (pure (f a))
  rwa [List.append_nil] at hbind

end Takes

/-! ## Numbers and texts -/

/-- A number that is cut off misses its end. -/
theorem readVarint_cut {last : Nat} (hlast : last < 128) :
    ∀ (groups more n : Nat) (part : List UInt8), groups ≤ more → n < 128 ^ groups * (last + 1) →
      part <+: varintGroups more n → part ≠ varintGroups more n →
      readVarint (groups + 1) last part = .error .unexpectedEnd := by
  intro groups
  -- The writer may have more groups left than the reader; the bound on the number is the reader's.
  induction groups with
  | zero =>
    intro more n part _ hn hpart hne
    rw [varintGroups_of_lt (by omega)] at hpart hne
    obtain rfl : part = [] := by simpa [hne] using List.prefix_cons_iff.mp hpart
    rfl
  | succ groups ih =>
    intro more n part hmore hn hpart hne
    obtain ⟨more, rfl⟩ : ∃ less, more = less + 1 := ⟨more - 1, by omega⟩
    rw [varintGroups] at hpart hne
    split at hpart <;> rename_i hsmall
    · rw [if_pos hsmall] at hne
      obtain rfl : part = [] := by simpa [hne] using List.prefix_cons_iff.mp hpart
      rfl
    · rw [if_neg hsmall] at hne
      rcases List.prefix_cons_iff.mp hpart with rfl | ⟨tail, rfl, htail⟩
      · rfl
      · have hbyte : (UInt8.ofNat (n % 128 + 128)).toNat = n % 128 + 128 := by simp; omega
        have hhigh : n / 128 < 128 ^ groups * (last + 1) := by
          rw [Nat.pow_succ, Nat.mul_right_comm] at hn
          omega
        have hcut := ih more (n / 128) tail (by omega) hhigh htail fun heq => hne (by rw [heq])
        rw [readVarint, hbyte, if_neg (by omega), hcut]

/-- A number of 32 bits is taken from its bytes. -/
theorem takes_word {n : Nat} (hn : n < 2 ^ 32) : Takes readWord (varint n) n where
  whole := fun rest => Or.inl (readWord_varint hn rest)
  cut := fun part => readVarint_cut (by decide) 4 9 n part (by decide) (by omega)

/-- A number of 64 bits is taken from its bytes. -/
theorem takes_long {n : Nat} (hn : n < 2 ^ 64) : Takes readLong (varint n) n where
  whole := fun rest => Or.inl (readLong_varint hn rest)
  cut := fun part => readVarint_cut (by decide) 9 9 n part (by decide) (by omega)

/-- A byte is taken from itself. -/
theorem takes_byte (byte : UInt8) : Takes readByte [byte] byte where
  whole := fun _ => Or.inl rfl
  cut := by
    intro part hpart hne
    obtain rfl : part = [] := by simpa [hne] using List.prefix_cons_iff.mp hpart
    rfl

/-- A number of a fixed count of bytes has that many. -/
@[simp] theorem length_littleEndian (count n : Nat) : (littleEndian count n).length = count := by
  induction count generalizing n with
  | zero => rfl
  | succ count ih => simp [littleEndian, ih]

/-- Fewer bytes than a number has miss its end. -/
theorem readLittleEndian_of_length_lt {count : Nat} {bytes : List UInt8}
    (h : bytes.length < count) : readLittleEndian count bytes = .error .unexpectedEnd := by
  induction count generalizing bytes with
  | zero => exact absurd h (Nat.not_lt_zero _)
  | succ count ih =>
    cases bytes with
    | nil => rfl
    | cons byte rest => rw [readLittleEndian, ih (Nat.lt_of_succ_lt_succ h)]

/-- A number of a fixed count of bytes is taken from them. -/
theorem takes_littleEndian {count n : Nat} (hn : n < 256 ^ count) :
    Takes (readLittleEndian count) (littleEndian count n) n where
  whole := fun rest => Or.inl (readLittleEndian_littleEndian rest count n hn)
  cut := by
    intro part hpart hne
    have hlength := length_lt_of_part hpart hne
    rw [length_littleEndian] at hlength
    exact readLittleEndian_of_length_lt hlength

/-- A text is cut in its length or behind it, and there the length tells. -/
theorem takes_text {s : String} (hs : (textBytes s).length < 2 ^ 64) :
    Takes readText (encodeText s) s := by
  unfold readText encodeText
  refine (takes_long hs).bind ⟨fun rest => Or.inl ?_, fun part hpart hne => ?_⟩
  · have hroom : ¬(textBytes s ++ rest).length < (textBytes s).length := by simp
    simp only [if_neg hroom, List.take_left, List.drop_left, fromUTF8?_textBytes]
  · exact if_pos (length_lt_of_part hpart hne)

/-- A truth value is taken from its byte. -/
theorem takes_flag (b : Bool) : Takes readFlag (encode (.flag b)) b := by
  have hnext : Takes (fun rest => .ok (b, rest)) [] b := .pure b
  cases b <;> exact (takes_byte _).bind hnext

/-- A text that may be absent is taken from its mark and its bytes. -/
theorem takes_optionalText {s : Option String}
    (hs : ∀ text ∈ s, (textBytes text).length < 2 ^ 64) :
    Takes readOptionalText (encode (.optionalText s)) s := by
  cases s with
  | none =>
    have hnext : Takes (fun rest => .ok ((none : Option String), rest)) [] none := .pure none
    exact (takes_byte 0).bind hnext
  | some s => exact (takes_byte 1).bind ((takes_text (hs s rfl)).map some)

/-! ## Data -/

/-- Items are taken from their bytes if each of them is. -/
theorem readItems_takes {item : TypeName} {items : List Datum}
    (h : ∀ datum ∈ items, ∀ fuel, Takes (read fuel (.named item)) (encode datum) datum) :
    ∀ fuel, Takes (readItems fuel item items.length) (encodeAll items) items := by
  induction items with
  | nil =>
    intro fuel
    cases fuel <;> exact .pure []
  | cons datum rest ih =>
    obtain ⟨hfirst, hrest⟩ := List.forall_mem_cons.mp h
    intro fuel
    cases fuel with
    | zero => exact .starved
    | succ fuel => exact (hfirst fuel).bind ((ih hrest fuel).map (datum :: ·))

mutual

/-- A reader of a shape takes the bytes of a datum that fits it. -/
theorem read_takes : ∀ {shape : Shape} {datum : Datum}, datum.Fits shape → Counted datum →
    ∀ fuel, Takes (read fuel shape) (encode datum) datum
  | _, _, _, _, 0 => .starved
  | _, _, .word n, _, fuel + 1 => by
    have hmap := (takes_word n.toNat_lt).map fun n => Datum.word (.ofNat n)
    rw [UInt32.ofNat_toNat] at hmap
    exact hmap
  | _, _, .integer n, _, fuel + 1 => by
    have hmap := (takes_long (zigzag_lt n)).map fun n => Datum.integer (.ofInt (unzigzag n))
    rw [unzigzag_zigzag, Int64.ofInt_toInt] at hmap
    exact hmap
  | _, _, .double x, _, fuel + 1 => by
    have hbits : x.bits.toNat < 256 ^ 8 := x.bits.toNat_lt
    have hmap := (takes_littleEndian hbits).map fun n => Datum.double ⟨.ofNat n⟩
    rw [UInt64.ofNat_toNat] at hmap
    exact hmap
  | _, _, .flag b, _, fuel + 1 => (takes_flag b).map Datum.flag
  | _, _, .text s, hcounted, fuel + 1 => by
    rw [Counted] at hcounted
    exact (takes_text hcounted).map Datum.text
  | _, _, .optionalText s, hcounted, fuel + 1 => by
    rw [Counted] at hcounted
    exact (takes_optionalText hcounted).map Datum.optionalText
  | _, _, @Datum.Fits.sequence item items hitems, hcounted, fuel + 1 => by
    rw [Counted] at hcounted
    have hdata := readItems_takes (fun datum hmem =>
      read_takes (hitems datum hmem) (allCounted_iff.mp hcounted.2 datum hmem)) fuel
    exact (takes_long hcounted.1).bind (hdata.map Datum.sequence)
  | _, _, .record hname hall, hcounted, fuel + 1 => by
    rw [Counted] at hcounted
    rw [read_record hname]
    exact (readAll_takes hall hcounted fuel).map Datum.record
  | _, _, @Datum.Fits.variant name _ index _ _ hname hindex hall, hcounted, fuel + 1 => by
    rw [Counted] at hcounted
    rw [read_choice hname]
    refine (takes_word (name.index_lt hname hindex)).bind ?_
    simp only [hindex]
    exact (readAll_takes hall hcounted fuel).map (Datum.variant index)

/-- Readers of shapes, one after another, take the bytes of data that fit them. -/
theorem readAll_takes : ∀ {shapes : List Shape} {data : List Datum}, Datum.FitAll shapes data →
    AllCounted data → ∀ fuel, Takes (readAll fuel shapes) (encodeAll data) data
  | _, _, .nil, _, 0 | _, _, .nil, _, _ + 1 => .pure []
  | _, _, .cons _ _, _, 0 => .starved
  | _, _, .cons hfits hall, hcounted, fuel + 1 =>
    (read_takes hfits hcounted.1 fuel).bind ((readAll_takes hall hcounted.2 fuel).map (_ :: ·))

end

/-- Bytes of a datum that end too early are refused for that reason. -/
theorem decode_cut {shape : Shape} {datum : Datum} (hfits : datum.Fits shape)
    (hcounted : Counted datum) {part : List UInt8} (hpart : part <+: encode datum)
    (hne : part ≠ encode datum) : decode shape part = .error .unexpectedEnd :=
  (read_takes hfits hcounted _).cut part hpart hne

end Lowering.Wire

namespace Lowering

/-- The bytes of an image are refused wherever they are cut off, and the reason is that they end too
early. So the bytes of no image are the beginning of those of another. The bytes can be counted in
64 bits. -/
theorem Image.ofBytes_truncated (image : Image) (hsize : image.toBytes.length < 2 ^ 64) :
    (∀ part, part <+: image.toBytes → part ≠ image.toBytes →
      Image.ofBytes part = .error .unexpectedEnd) ∧
    ∀ other : Image, other.toBytes <+: image.toBytes → other = image := by
  have hcounted := Wire.counted_of_length_lt image.toDatum_fits hsize
  have hcut : ∀ part, part <+: image.toBytes → part ≠ image.toBytes →
      Image.ofBytes part = .error .unexpectedEnd := by
    intro part hpart hne
    have hdecode := Wire.decode_cut image.toDatum_fits hcounted hpart hne
    simp only [Image.ofBytes, hdecode, bind, Except.bind]
  refine ⟨hcut, fun other hother => ?_⟩
  have hread : Image.ofBytes other.toBytes = .ok other := by
    have hlength : other.toBytes.length < 2 ^ 64 := Nat.lt_of_le_of_lt hother.length_le hsize
    exact Image.ofBytes_toBytes (Wire.counted_of_length_lt other.toDatum_fits hlength)
  -- A shorter image would be read from a strict part of these bytes, which is refused.
  by_cases heq : other.toBytes = image.toBytes
  · rw [heq, Image.ofBytes_toBytes hcounted] at hread
    exact (Except.ok.inj hread).symm
  · rw [hcut _ hother heq] at hread
    cases hread

/-- The bytes of `mixedImage` are refused when they are cut before the first of them, inside a
number, inside a double or inside a character, and those of no other image are a beginning of
them. -/
theorem Image.ofBytes_truncated_mixed :
    (∀ count ∈ [0, 10, 39, 49],
      Image.ofBytes (mixedImage.toBytes.take count) = .error .unexpectedEnd) ∧
    ∀ other : Image, other.toBytes <+: mixedImage.toBytes → other = mixedImage := by
  have hlength : mixedImage.toBytes.length = 63 := by decide +kernel
  obtain ⟨hcut, hother⟩ := Image.ofBytes_truncated mixedImage (by omega)
  refine ⟨fun count hcount => hcut _ (List.take_prefix _ _) fun heq => ?_, hother⟩
  have htake := congrArg List.length heq
  rw [List.length_take, hlength] at htake
  simp only [List.mem_cons, List.not_mem_nil, or_false] at hcount
  omega

end Lowering
