import Mathlib.Tactic.SplitIfs
import Lowering.Proofs.Image.Bytes

/-!
# The shortest bytes of an image

A reader accepts more than is ever written: numbers may have groups of zeros behind them, as long as
their width allows it, and whatever follows an image is ignored. Each such liberty costs a byte.
What a reader has used for a value is therefore what is written for that value, or longer
(`Spelling`).

`Uses` is what holds of the values that a reader finds and the bytes that it has used for them. It
is closed under reading one thing after another (`Uses.bind`), so spellings of data are put together
from spellings of their parts. For images this says that their bytes are the shortest ones that are
read as they are, and the only ones of that length (`Image.toBytes_shortest`).
-/

namespace Lowering.Wire

/-! ## Spellings -/

/-- Bytes are what is written, or longer. -/
def Spelling (code used : List UInt8) : Prop :=
  used = code ∨ code.length < used.length

namespace Spelling

variable {code more used used' : List UInt8}

/-- What is written is a spelling of itself. -/
theorem refl (code : List UInt8) : Spelling code code :=
  Or.inl rfl

/-- No spelling is shorter than what is written. -/
theorem length_le (h : Spelling code used) : code.length ≤ used.length := by
  rcases h with rfl | h
  · exact Nat.le_refl _
  · exact Nat.le_of_lt h

/-- A spelling is what is written if it is as short. -/
theorem eq_of_length_le (h : Spelling code used) (hlength : used.length ≤ code.length) :
    used = code :=
  h.resolve_right (Nat.not_lt.mpr hlength)

/-- Two spellings one after another spell what is written one after another. -/
theorem append (h : Spelling code used) (h' : Spelling more used') :
    Spelling (code ++ more) (used ++ used') := by
  have hle := h.length_le
  have hle' := h'.length_le
  rcases h with rfl | h
  · rcases h' with rfl | h'
    · exact .refl _
    · exact Or.inr (by simp only [List.length_append]; omega)
  · exact Or.inr (by simp only [List.length_append]; omega)

end Spelling

/-! ## Readers -/

variable {α β : Type}

/-- What holds of each value that a reader finds and of the bytes that it has used for it. -/
def Uses (reader : Reader α) (p : α → List UInt8 → Prop) : Prop :=
  ∀ bytes a rest, reader bytes = .ok (a, rest) → ∃ used, bytes = used ++ rest ∧ p a used

namespace Uses

variable {reader : Reader α} {p : α → List UInt8 → Prop} {q : β → List UInt8 → Prop}

/-- A reader that finds nothing. -/
theorem refusing (fault : Fault) : Uses (fun _ => .error fault) p := by
  intro bytes a rest hread
  cases hread

/-- A reader that uses nothing. -/
theorem pure {a : α} (ha : p a []) : Uses (fun bytes => .ok (a, bytes)) p := by
  intro bytes b rest hread
  cases hread
  exact ⟨[], rfl, ha⟩

/-- One reader behind another. -/
theorem bind {next : α × List UInt8 → Except Fault (β × List UInt8)} (h : Uses reader p)
    {r : α → β → List UInt8 → Prop} (h' : ∀ a, Uses (fun rest => next (a, rest)) (r a))
    (hq : ∀ a b used more, p a used → r a b more → q b (used ++ more)) :
    Uses (fun bytes => reader bytes >>= next) q := by
  intro bytes b rest hread
  rcases hfirst : reader bytes with fault | ⟨a, between⟩
  · simp only [hfirst] at hread
    cases hread
  · simp only [hfirst] at hread
    obtain ⟨used, rfl, hused⟩ := h bytes a between hfirst
    obtain ⟨more, rfl, hmore⟩ := h' a between b rest hread
    exact ⟨used ++ more, (List.append_assoc used more rest).symm, hq a b used more hused hmore⟩

/-- A reader that goes on with what another has found. -/
theorem map (h : Uses reader p) (f : α → β) (hq : ∀ a used, p a used → q (f a) used) :
    Uses (fun bytes => reader bytes >>= fun found => .ok (f found.1, found.2)) q := by
  have hnext (a : α) : Uses (fun rest => .ok (f a, rest)) fun b more => b = f a ∧ more = [] :=
    pure ⟨rfl, rfl⟩
  refine h.bind hnext ?_
  rintro a _ used _ hused ⟨rfl, rfl⟩
  rw [List.append_nil]
  exact hq a used hused

end Uses

/-! ## Numbers and texts -/

/-- A byte of a number that more bytes follow, and the number behind it. -/
theorem varintGroups_byte {byte : UInt8} (hbyte : ¬byte.toNat < 128) {high : Nat} (more : Nat)
    (hlarge : ¬byte.toNat - 128 + 128 * high < 128) :
    varintGroups (more + 1) (byte.toNat - 128 + 128 * high) = byte :: varintGroups more high := by
  have hlt := byte.toNat_lt
  have hlow : (byte.toNat - 128 + 128 * high) % 128 + 128 = byte.toNat := by omega
  have hhigh : (byte.toNat - 128 + 128 * high) / 128 = high := by omega
  rw [varintGroups, if_neg hlarge, hlow, hhigh, UInt8.ofNat_toNat]

/-- What is read as a number is what is written for it, or longer: the groups differ from those that
are written only where zeros follow. -/
theorem readVarint_uses (last : Nat) :
    ∀ groups more : Nat, groups ≤ more → Uses (readVarint (groups + 1) last) fun n used =>
      Spelling (varintGroups more n) used ∧ n < 128 ^ groups * (last + 1) := by
  have hsingle {byte : UInt8} (hbyte : byte.toNat < 128) (more : Nat) :
      Spelling (varintGroups more byte.toNat) [byte] := by
    rw [varintGroups_of_lt hbyte, UInt8.ofNat_toNat]
    exact .refl _
  intro groups
  -- The bound is on groups that may follow: the last one has fewer bits than the others.
  induction groups with
  | zero =>
    rintro more - (_ | ⟨byte, bytes⟩) n rest hread
    · cases hread
    · rw [readVarint] at hread
      split_ifs at hread with hbyte hmost
      · cases hread
        exact ⟨[byte], rfl, hsingle hbyte more, by omega⟩
      · cases hread
  | succ groups ih =>
    rintro more hmore (_ | ⟨byte, bytes⟩) n rest hread
    · cases hread
    obtain ⟨more, rfl⟩ : ∃ less, more = less + 1 := ⟨more - 1, by omega⟩
    have hpow : 0 < 128 ^ groups * (last + 1) :=
      Nat.mul_pos (Nat.pow_pos (by decide)) (Nat.succ_pos last)
    have hroom : 128 ^ (groups + 1) * (last + 1) = 128 * (128 ^ groups * (last + 1)) := by
      rw [Nat.pow_succ]
      ac_rfl
    rw [readVarint] at hread
    split_ifs at hread with hbyte
    · cases hread
      exact ⟨[byte], rfl, hsingle hbyte _, by omega⟩
    · split at hread
      · next high rest' hrest =>
        cases hread
        obtain ⟨used, rfl, hspelling, hhigh⟩ := ih more (by omega) bytes high _ hrest
        have hlt := byte.toNat_lt
        refine ⟨byte :: used, rfl, ?_, by omega⟩
        by_cases hlarge : byte.toNat - 128 + 128 * high < 128
        · -- Nothing but zeros follow, and the number could have ended here.
          have hpos := List.length_pos_iff.mpr (varintGroups_ne_nil more high)
          have hle := hspelling.length_le
          rw [varintGroups_of_lt hlarge]
          exact Or.inr (by simp only [List.length_cons, List.length_nil]; omega)
        · rw [varintGroups_byte hbyte more hlarge]
          exact (Spelling.refl [byte]).append hspelling
      · cases hread

/-- What is read as a number of 32 bits is a spelling of one. -/
theorem readWord_uses : Uses readWord fun n used => Spelling (varint n) used ∧ n < 2 ^ 32 := by
  intro bytes n rest hread
  obtain ⟨used, hbytes, hspelling, hn⟩ :=
    readVarint_uses 15 4 9 (by decide) bytes n rest hread
  exact ⟨used, hbytes, hspelling, by omega⟩

/-- What is read as a number of 64 bits is a spelling of one. -/
theorem readLong_uses : Uses readLong fun n used => Spelling (varint n) used ∧ n < 2 ^ 64 := by
  intro bytes n rest hread
  obtain ⟨used, hbytes, hspelling, hn⟩ :=
    readVarint_uses 1 9 9 (by decide) bytes n rest hread
  exact ⟨used, hbytes, hspelling, by omega⟩

/-- Every number is the place of the signed integer at that place. -/
theorem zigzag_unzigzag (n : Nat) : zigzag (unzigzag n) = n := by
  unfold unzigzag zigzag
  split <;> split <;> omega

/-- A number of 64 bits is the place of a signed integer of 64 bits. -/
theorem toInt_unzigzag {n : Nat} (hn : n < 2 ^ 64) :
    (Int64.ofInt (unzigzag n)).toInt = unzigzag n := by
  apply Int64.toInt_ofInt_of_le <;> unfold unzigzag <;> split <;> omega

/-- What is read as a number of a fixed count of bytes is what is written for it. -/
theorem readLittleEndian_uses (count : Nat) : Uses (readLittleEndian count) fun n used =>
    used = littleEndian count n ∧ n < 256 ^ count := by
  induction count with
  | zero =>
    intro bytes n rest hread
    cases hread
    exact ⟨[], rfl, rfl, by decide⟩
  | succ count ih =>
    rintro (_ | ⟨byte, bytes⟩) n rest hread
    · cases hread
    rw [readLittleEndian] at hread
    split at hread
    · next high rest' hrest =>
      cases hread
      obtain ⟨used, rfl, rfl, hhigh⟩ := ih bytes high _ hrest
      have hlt := byte.toNat_lt
      -- Each byte is a digit to the base 256, so it can be told from the number again.
      have hlow : (byte.toNat + 256 * high) % 256 = byte.toNat := by omega
      have hquotient : (byte.toNat + 256 * high) / 256 = high := by omega
      refine ⟨byte :: littleEndian count high, rfl, ?_, ?_⟩
      · rw [littleEndian, hlow, hquotient, UInt8.ofNat_toNat]
      · rw [Nat.pow_succ]
        omega
    · cases hread

/-- Bytes that are UTF-8 are those of the text that they are read as. -/
theorem textBytes_of_fromUTF8? {bytes : List UInt8} {s : String}
    (h : String.fromUTF8? bytes.toByteArray = some s) : textBytes s = bytes := by
  unfold String.fromUTF8? at h
  split at h
  · cases h
    simp [textBytes, String.fromUTF8]
  · cases h

/-- What is read as a text is a spelling of its length and the bytes of the text. -/
theorem readText_uses : Uses readText fun s used =>
    Spelling (encodeText s) used ∧ (textBytes s).length < 2 ^ 64 := by
  refine readLong_uses.bind (r := fun length s used => used = textBytes s ∧ used.length = length)
    ?_ ?_
  · intro length bytes s rest hread
    dsimp only at hread
    split_ifs at hread with hroom
    split at hread
    · next found hfound =>
      cases hread
      refine ⟨bytes.take length, (List.take_append_drop length bytes).symm, ?_, ?_⟩
      · exact (textBytes_of_fromUTF8? hfound).symm
      · rw [List.length_take]
        omega
    · cases hread
  · rintro _ s used _ ⟨hlength, hlt⟩ ⟨rfl, rfl⟩
    exact ⟨hlength.append (.refl _), hlt⟩

/-- What is read as a truth value is what is written for it. -/
theorem readFlag_uses : Uses readFlag fun b used => used = encode (.flag b) := by
  rintro (_ | ⟨byte, bytes⟩) b rest hread
  · cases hread
  simp only [readFlag, readByte, bind, Except.bind] at hread
  split_ifs at hread with hzero hone <;> cases hread
  · exact ⟨[byte], rfl, by rw [hzero]; rfl⟩
  · exact ⟨[byte], rfl, by rw [hone]; rfl⟩

/-- What is read as a text that may be absent is a spelling of it. -/
theorem readOptionalText_uses : Uses readOptionalText fun s used =>
    Spelling (encode (.optionalText s)) used ∧ ∀ text ∈ s, (textBytes text).length < 2 ^ 64 := by
  rintro (_ | ⟨byte, bytes⟩) s rest hread
  · cases hread
  simp only [readOptionalText, readByte, bind, Except.bind] at hread
  split_ifs at hread with hzero hone
  · cases hread
    exact ⟨[byte], rfl, by rw [hzero]; exact .refl _, by simp⟩
  · split at hread
    · cases hread
    · next found hfound =>
      cases hread
      obtain ⟨used, rfl, hspelling, hlt⟩ := readText_uses _ _ _ hfound
      refine ⟨byte :: used, rfl, ?_, by simpa using hlt⟩
      rw [hone]
      exact (Spelling.refl [1]).append hspelling

/-! ## Data -/

/-- Bytes are a spelling of a datum whose lengths are numbers of 64 bits. -/
def Spells (datum : Datum) (used : List UInt8) : Prop :=
  Spelling (encode datum) used ∧ Counted datum

/-- Bytes are a spelling of data, one after another, whose lengths are numbers of 64 bits. -/
def SpellsAll (data : List Datum) (used : List UInt8) : Prop :=
  Spelling (encodeAll data) used ∧ AllCounted data

/-- No bytes spell no data. -/
theorem SpellsAll.nil : SpellsAll [] [] :=
  ⟨.refl _, trivial⟩

/-- Spellings of a datum and of others, one after another, spell them all. -/
theorem SpellsAll.cons {datum : Datum} {data : List Datum} {used more : List UInt8}
    (h : Spells datum used) (h' : SpellsAll data more) : SpellsAll (datum :: data) (used ++ more) :=
  ⟨h.1.append h'.1, h.2, h'.2⟩

/-- A datum and then other data. -/
theorem Uses.cons {first : Reader Datum} {others : Reader (List Datum)}
    {r : Datum → List UInt8 → Prop} {p q : List Datum → List UInt8 → Prop} (h : Uses first r)
    (h' : Uses others p)
    (hq : ∀ datum data used more, r datum used → p data more → q (datum :: data) (used ++ more)) :
    Uses (fun bytes => first bytes >>= fun found => others found.2 >>= fun data =>
      .ok (found.1 :: data.1, data.2)) q := by
  have hothers (datum : Datum) :
      Uses (fun rest => others rest >>= fun data => .ok (datum :: data.1, data.2))
        fun found used => ∃ data, found = datum :: data ∧ p data used :=
    h'.map (datum :: ·) fun data _ hdata => ⟨data, rfl, hdata⟩
  refine h.bind hothers ?_
  rintro datum _ used more hdatum ⟨data, rfl, hdata⟩
  exact hq datum data used more hdatum hdata

mutual

/-- What is read as a datum is a spelling of it. -/
theorem read_uses : ∀ (fuel : Nat) (shape : Shape), Uses (read fuel shape) Spells
  | 0, _ => .refusing _
  | fuel + 1, .word => by
    refine readWord_uses.map (fun n => Datum.word (.ofNat n)) fun n used h => ⟨?_, trivial⟩
    rw [encode, UInt32.toNat_ofNat_of_lt' h.2]
    exact h.1
  | fuel + 1, .integer => by
    refine readLong_uses.map (fun n => Datum.integer (.ofInt (unzigzag n)))
      fun n used h => ⟨?_, trivial⟩
    rw [encode, toInt_unzigzag h.2, zigzag_unzigzag]
    exact h.1
  | fuel + 1, .double => by
    refine (readLittleEndian_uses 8).map (fun n => Datum.double ⟨.ofNat n⟩)
      fun n used h => ⟨?_, trivial⟩
    rw [encode, UInt64.toNat_ofNat_of_lt' h.2]
    exact Or.inl h.1
  | fuel + 1, .flag => readFlag_uses.map Datum.flag fun _ _ h => ⟨Or.inl h, trivial⟩
  | fuel + 1, .text => readText_uses.map Datum.text fun _ _ h => by
    simpa [Spells, encode, Counted] using h
  | fuel + 1, .optionalText => readOptionalText_uses.map Datum.optionalText fun _ _ h => by
    simpa [Spells, Counted] using h
  | fuel + 1, .sequence item => by
    have hitems (count : Nat) : Uses (fun rest => readItems fuel item count rest >>= fun found =>
        .ok (Datum.sequence found.1, found.2)) fun datum used =>
          ∃ items, datum = .sequence items ∧ SpellsAll items used ∧ items.length = count :=
      (readItems_uses fuel item count).map Datum.sequence fun items _ h => ⟨items, rfl, h⟩
    refine readLong_uses.bind hitems ?_
    rintro _ _ used more ⟨hcount, hlt⟩ ⟨items, rfl, hitems, rfl⟩
    exact ⟨hcount.append hitems.1, hlt, hitems.2⟩
  | fuel + 1, .named name => by
    rcases hname : name.definition with fields | variants
    · rw [read_record hname]
      exact (readAll_uses fuel _).map Datum.record fun _ _ h => h
    · rw [read_choice hname]
      have hpayload (index : Nat) : Uses (fun rest =>
          match variants[index]? with
          | none => .error .badVariant
          | some variant => readAll fuel variant.payload.shapes rest >>= fun found =>
            .ok (Datum.variant index found.1, found.2)) fun datum used =>
              ∃ payload, datum = .variant index payload ∧ SpellsAll payload used := by
        split
        · exact .refusing _
        · exact (readAll_uses fuel _).map (Datum.variant index) fun payload _ h => ⟨payload, rfl, h⟩
      refine readWord_uses.bind hpayload ?_
      rintro index _ used more ⟨hindex, -⟩ ⟨payload, rfl, hpayload⟩
      exact ⟨hindex.append hpayload.1, hpayload.2⟩

/-- What is read as items of a named part is a spelling of as many data. -/
theorem readItems_uses : ∀ (fuel : Nat) (item : TypeName) (count : Nat),
    Uses (readItems fuel item count) fun data used => SpellsAll data used ∧ data.length = count
  | 0, _, 0 | _ + 1, _, 0 => .pure ⟨.nil, rfl⟩
  | 0, _, _ + 1 => .refusing _
  | fuel + 1, item, count + 1 =>
    (read_uses fuel (.named item)).cons (readItems_uses fuel item count)
      fun _ _ _ _ h h' => ⟨.cons h h'.1, congrArg (· + 1) h'.2⟩

/-- What is read as data of given shapes is a spelling of them. -/
theorem readAll_uses : ∀ (fuel : Nat) (shapes : List Shape), Uses (readAll fuel shapes) SpellsAll
  | 0, [] | _ + 1, [] => .pure .nil
  | 0, _ :: _ => .refusing _
  | fuel + 1, shape :: shapes =>
    (read_uses fuel shape).cons (readAll_uses fuel shapes) fun _ _ _ _ h h' => .cons h h'

end

end Lowering.Wire

namespace Lowering

/-- The bytes of an image are the shortest that are read as it. Whatever bytes an image is read
from, its own are no longer, the same image is found again in them, with every double bit for bit
the same, and bytes of that length are no others. -/
theorem Image.toBytes_shortest {bytes : List UInt8} {image : Image}
    (h : Image.ofBytes bytes = .ok image) :
    image.toBytes.length ≤ bytes.length ∧ Image.ofBytes image.toBytes = .ok image ∧
      (bytes.length = image.toBytes.length → bytes = image.toBytes) := by
  rcases hdecode : Wire.decode (.named .image) bytes with fault | ⟨datum, rest⟩
  · simp only [Image.ofBytes, hdecode, bind, Except.bind] at h
    cases h
  simp only [Image.ofBytes, hdecode, bind, Except.bind] at h
  obtain ⟨used, rfl, hspelling, hcounted⟩ := Wire.read_uses _ _ _ _ _ hdecode
  split at h
  · next found hfound =>
    cases h
    obtain rfl := Image.toDatum_of_ofDatum? hfound
    have hle : image.toBytes.length ≤ used.length := hspelling.length_le
    rw [List.length_append]
    refine ⟨by omega, Image.ofBytes_toBytes hcounted, fun hlength => ?_⟩
    -- Equally long bytes have nothing behind the image, and the image is written there.
    obtain rfl : rest = [] := List.length_eq_zero_iff.mp (by omega)
    rw [List.append_nil]
    exact hspelling.eq_of_length_le (by rw [Image.toBytes] at hlength; omega)
  · cases h

/-- The image of a jump and an integer. -/
def jumpImage : Image where
  ops := [.jumpTo 2]
  slots := [⟨.long (-65), .long⟩]

/-- Bytes of `jumpImage` with zeros behind the number of its op-lines, the target of the jump and
the integer, and with a byte that belongs to nothing. -/
def paddedBytes : List UInt8 :=
  [129, 0, 3, 130, 128, 0, 1, 2, 129, 129, 0, 2, 9]

/-- From `paddedBytes`, `jumpImage` is read. Its own bytes are shorter, and `jumpImage` is read from
them as well. -/
theorem Image.toBytes_shortest_padded :
    Image.ofBytes paddedBytes = .ok jumpImage ∧ jumpImage.toBytes = [1, 3, 2, 1, 2, 129, 1, 2] ∧
      jumpImage.toBytes.length ≤ paddedBytes.length ∧
      Image.ofBytes jumpImage.toBytes = .ok jumpImage ∧
      (paddedBytes.length = jumpImage.toBytes.length → paddedBytes = jumpImage.toBytes) := by
  have hread : Image.ofBytes paddedBytes = .ok jumpImage := by cbv
  exact ⟨hread, by decide +kernel, Image.toBytes_shortest hread⟩

end Lowering
