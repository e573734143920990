import Lowering.Image.Wire
import Lowering.Proofs.Image.Shapes

/-!
# Reading back the bytes of an image

What reading finds in the bytes that writing makes, whatever follows them. Numbers come first: seven
bits to a byte, interleaved signed integers, and numbers of a fixed count of bytes. A text is found
again because its bytes are UTF-8. For data the two sides go through the schema in step
(`Wire.read_encode`), and the fuel of a reader is bounded by the bytes in front of it: every datum
takes a byte at least, and at most four steps go deeper before the next byte.
Lengths are read as numbers of 64 bits and have to be such (`Wire.Counted`), which is so if all
bytes together can be counted in 64 bits.

An image is found again in its bytes with every double bit for bit the same, so that it equals what
is read if and only if none of its doubles is a NaN (`Image.ofBytes_toBytes_append`).
-/

namespace Lowering.Wire

/-! ## Numbers -/

/-- A number below 128 takes one byte. -/
theorem varintGroups_of_lt {n : Nat} (hn : n < 128) (more : Nat) :
    varintGroups more n = [UInt8.ofNat n] := by
  cases more with
  | zero => rfl
  | succ more => rw [varintGroups, if_pos hn]

/-- A number that fits the groups of a reader is read from the groups that it is written in. -/
theorem readVarint_varintGroups {last : Nat} (hlast : last < 128) (rest : List UInt8) :
    ∀ (groups more n : Nat), groups ≤ more → n < 128 ^ groups * (last + 1) →
      readVarint (groups + 1) last (varintGroups more n ++ rest) = .ok (n, rest) := by
  -- Only the last group that a reader takes is checked against `last`; a number that ends sooner
  -- never gets there.
  intro groups
  induction groups with
  | zero =>
    intro more n _ hn
    have hsmall : n < 128 := by omega
    have hbyte : (UInt8.ofNat n).toNat = n := by simp; omega
    have hle : ¬last < n := by omega
    simp [varintGroups_of_lt hsmall, readVarint, hbyte, hsmall, hle]
  | succ groups ih =>
    intro more n hmore hn
    obtain ⟨more, rfl⟩ : ∃ less, more = less + 1 := ⟨more - 1, by omega⟩
    by_cases hsmall : n < 128
    · have hbyte : (UInt8.ofNat n).toNat = n := by simp; omega
      simp [varintGroups_of_lt hsmall, readVarint, hbyte, hsmall]
    · have hbyte : (UInt8.ofNat (n % 128 + 128)).toNat = n % 128 + 128 := by simp; omega
      have hhigh : n / 128 < 128 ^ groups * (last + 1) := by
        rw [Nat.pow_succ, Nat.mul_right_comm] at hn
        omega
      rw [varintGroups, if_neg hsmall, List.cons_append, readVarint, hbyte, if_neg (by omega),
        ih more (n / 128) (by omega) hhigh]
      simp only [Except.ok.injEq, Prod.mk.injEq, and_true]
      omega

/-- A number of 32 bits is read back. -/
theorem readWord_varint {n : Nat} (hn : n < 2 ^ 32) (rest : List UInt8) :
    readWord (varint n ++ rest) = .ok (n, rest) :=
  readVarint_varintGroups (by decide) rest 4 9 n (by decide) (by omega)

/-- A number of 64 bits is read back. -/
theorem readLong_varint {n : Nat} (hn : n < 2 ^ 64) (rest : List UInt8) :
    readLong (varint n ++ rest) = .ok (n, rest) :=
  readVarint_varintGroups (by decide) rest 9 9 n (by decide) (by omega)

/-- A number of given groups takes a byte at least. -/
theorem varintGroups_ne_nil (more n : Nat) : varintGroups more n ≠ [] := by
  cases more with
  | zero => simp [varintGroups]
  | succ more =>
    rw [varintGroups]
    split <;> simp

/-- A number takes a byte at least. -/
@[simp] theorem varint_ne_nil (n : Nat) : varint n ≠ [] :=
  varintGroups_ne_nil 9 n

/-- Interleaving signed integers can be undone. -/
theorem unzigzag_zigzag (n : Int) : unzigzag (zigzag n) = n := by
  unfold unzigzag zigzag
  split <;> split <;> omega

/-- The place of a signed integer of 64 bits is a number of 64 bits. -/
theorem zigzag_lt (n : Int64) : zigzag n.toInt < 2 ^ 64 := by
  have hlow := n.le_toInt
  have hhigh := n.toInt_lt
  unfold zigzag
  split <;> omega

/-- A number of a fixed count of bytes is read back. -/
theorem readLittleEndian_littleEndian (rest : List UInt8) :
    ∀ count n : Nat, n < 256 ^ count →
      readLittleEndian count (littleEndian count n ++ rest) = .ok (n, rest) := by
  intro count
  induction count with
  | zero =>
    intro n hn
    obtain rfl : n = 0 := by simpa using hn
    rfl
  | succ count ih =>
    intro n hn
    -- The low byte is read off; what is left fits in one byte less.
    have hhigh : n / 256 < 256 ^ count := by
      rw [Nat.pow_succ] at hn
      omega
    have hbyte : (UInt8.ofNat (n % 256)).toNat = n % 256 := by simp
    rw [littleEndian, List.cons_append, readLittleEndian, ih _ hhigh]
    simp only [hbyte, Except.ok.injEq, Prod.mk.injEq, and_true]
    omega

/-! ## Texts -/

/-- The bytes of a text are those of the text alone. -/
theorem fromUTF8?_textBytes (s : String) :
    String.fromUTF8? (textBytes s).toByteArray = some s := by
  have hbytes : (textBytes s).toByteArray = s.toByteArray := by
    apply ByteArray.ext
    simp [textBytes]
  rw [hbytes, String.fromUTF8?, dif_pos s.isValidUTF8]
  rfl

/-- A text is read back from its length and its bytes. -/
theorem readText_encodeText {s : String} (hs : (textBytes s).length < 2 ^ 64)
    (rest : List UInt8) : readText (encodeText s ++ rest) = .ok (s, rest) := by
  have hread := readLong_varint hs (textBytes s ++ rest)
  have hroom : ¬(textBytes s ++ rest).length < (textBytes s).length := by simp
  simp only [readText, encodeText, List.append_assoc, hread, bind, Except.bind]
  rw [if_neg hroom, List.take_left, List.drop_left, fromUTF8?_textBytes]

/-- A truth value is read back. -/
theorem readFlag_encode (b : Bool) (rest : List UInt8) :
    readFlag (encode (.flag b) ++ rest) = .ok (b, rest) := by
  cases b <;> rfl

/-- A text that may be absent is read back. -/
theorem readOptionalText_encode {s : Option String}
    (hs : ∀ text ∈ s, (textBytes text).length < 2 ^ 64) (rest : List UInt8) :
    readOptionalText (encode (.optionalText s) ++ rest) = .ok (s, rest) := by
  cases s with
  | none => simp [encode, readOptionalText, readByte, bind, Except.bind]
  | some s =>
    simp [encode, readOptionalText, readByte, bind, Except.bind, readText_encodeText (hs s rfl)]

/-! ## Lengths -/

mutual

/-- Every length that stands in the bytes of a datum is a number of 64 bits. -/
def Counted : Datum → Prop
  | .text s => (textBytes s).length < 2 ^ 64
  | .optionalText s => ∀ text ∈ s, (textBytes text).length < 2 ^ 64
  | .sequence items => items.length < 2 ^ 64 ∧ AllCounted items
  | .record fields => AllCounted fields
  | .variant _ payload => AllCounted payload
  | .word _ | .integer _ | .double _ | .flag _ => True

/-- Every length that stands in the bytes of data is a number of 64 bits. -/
def AllCounted : List Datum → Prop
  | [] => True
  | datum :: rest => Counted datum ∧ AllCounted rest

end

/-- All lengths in data are numbers of 64 bits if those in each of them are. -/
theorem allCounted_iff {data : List Datum} : AllCounted data ↔ ∀ datum ∈ data, Counted datum := by
  induction data with
  | nil => simp [AllCounted]
  | cons datum rest ih => simp [AllCounted, ih]

/-- The bytes of a text are no longer than the text behind its length. -/
theorem length_textBytes_le (s : String) : (textBytes s).length ≤ (encodeText s).length := by
  simp [encodeText]

/-! ## Data -/

/-- A record is read field by field. -/
theorem read_record {name : TypeName} {schema : List Field}
    (hname : name.definition = .record schema) (fuel : Nat) :
    read (fuel + 1) (.named name) = fun bytes =>
      readAll fuel (schema.map Field.shape) bytes >>= fun found =>
        .ok (.record found.1, found.2) := by
  funext bytes
  simp only [read, hname]

/-- An alternative is read by its index and then as that index says. -/
theorem read_choice {name : TypeName} {variants : List Variant}
    (hname : name.definition = .choice variants) (fuel : Nat) :
    read (fuel + 1) (.named name) = fun bytes =>
      readWord bytes >>= fun index =>
        match variants[index.1]? with
        | none => .error .badVariant
        | some variant => readAll fuel variant.payload.shapes index.2 >>= fun found =>
          .ok (.variant index.1 found.1, found.2) := by
  funext bytes
  rw [read]
  split
  · next schema hrecord => cases hname.symm.trans hrecord
  · next variants' hchoice =>
    cases hname.symm.trans hchoice
    rfl

/-- Every datum takes a byte at least. -/
theorem encode_ne_nil : ∀ {shape : Shape} {datum : Datum}, datum.Fits shape → encode datum ≠ []
  | _, _, .word _ | _, _, .integer _ | _, _, .sequence _ | _, _, .variant _ _ _ => by
    simp [encode]
  | _, _, .double _ => by simp [encode, littleEndian]
  | _, _, .flag _ => by simp [encode]
  | _, _, .text _ => by simp [encode, encodeText]
  | _, _, .optionalText s => by cases s <;> simp [encode]
  | _, _, @Datum.Fits.record _ [] _ hname _ => absurd hname (TypeName.ne_nil_of_record _)
  | _, _, @Datum.Fits.record _ (_ :: _) _ _ (.cons hfits _) => by
    simp [encode, encodeAll, encode_ne_nil hfits]

/-- The bytes of a datum that fits a shape are not empty. -/
theorem encode_pos {shape : Shape} {datum : Datum} (h : datum.Fits shape) :
    0 < (encode datum).length :=
  List.length_pos_iff.mpr (encode_ne_nil h)

/-- There are no more items than bytes, since each of them takes one. -/
theorem length_le_encodeAll {item : TypeName} : ∀ {items : List Datum},
    (∀ datum ∈ items, datum.Fits (.named item)) → items.length ≤ (encodeAll items).length
  | [], _ => Nat.zero_le _
  | datum :: rest, hfits => by
    obtain ⟨hfirst, hrest⟩ := List.forall_mem_cons.mp hfits
    have hpos := encode_pos hfirst
    have hlength := length_le_encodeAll hrest
    simp only [encodeAll, List.length_append, List.length_cons]
    omega

/-- The bytes of one of some data are no longer than those of all of them. -/
theorem encode_le_encodeAll {datum : Datum} {data : List Datum} (hmem : datum ∈ data) :
    (encode datum).length ≤ (encodeAll data).length := by
  induction data with
  | nil => simp at hmem
  | cons first rest ih =>
    simp only [encodeAll, List.length_append]
    rcases List.mem_cons.mp hmem with rfl | hmem
    · omega
    · have hle := ih hmem
      omega

mutual

/-- No length in a datum is greater than that of its bytes. -/
theorem counted_of_length_lt : ∀ {shape : Shape} {datum : Datum}, datum.Fits shape →
    (encode datum).length < 2 ^ 64 → Counted datum
  | _, _, .word _, _ | _, _, .integer _, _ | _, _, .double _, _ | _, _, .flag _, _ => by
    simp [Counted]
  | _, _, .text s, hsize => by
    rw [encode] at hsize
    exact Nat.lt_of_le_of_lt (length_textBytes_le s) hsize
  | _, _, .optionalText none, _ => by simp [Counted]
  | _, _, .optionalText (some s), hsize => by
    have hlength := length_textBytes_le s
    simp only [encode, List.length_cons] at hsize
    simp only [Counted, Option.mem_some_iff, forall_eq']
    omega
  | _, _, @Datum.Fits.sequence item items hitems, hsize => by
    have hcount := length_le_encodeAll hitems
    simp only [encode, List.length_append] at hsize
    refine ⟨by omega, allCounted_iff.mpr fun datum hmem => ?_⟩
    have hle := encode_le_encodeAll hmem
    exact counted_of_length_lt (hitems datum hmem) (by omega)
  | _, _, .record _ hall, hsize => by
    rw [encode] at hsize
    exact allCounted_of_length_lt hall hsize
  | _, _, .variant _ _ hall, hsize => by
    simp only [encode, List.length_append] at hsize
    exact allCounted_of_length_lt hall (by omega)

/-- No length in data is greater than that of their bytes. -/
theorem allCounted_of_length_lt : ∀ {shapes : List Shape} {data : List Datum},
    Datum.FitAll shapes data → (encodeAll data).length < 2 ^ 64 → AllCounted data
  | _, _, .nil, _ => trivial
  | _, _, .cons hfits hall, hsize => by
    simp only [encodeAll, List.length_append] at hsize
    exact ⟨counted_of_length_lt hfits (by omega), allCounted_of_length_lt hall (by omega)⟩

end

/-- What a shape needs beyond eight steps for each byte. Only a record goes deeper without having
read a byte. -/
def spare (shape : Shape) : Nat :=
  if shape.isRecord then 2 else 0

/-- No shape needs more than two steps beyond those for its bytes. -/
theorem spare_le (shape : Shape) : spare shape ≤ 2 := by
  unfold spare
  split <;> omega

/-- A datum is read back from its bytes, given fuel for them. -/
def ReadsBack (shape : Shape) (datum : Datum) : Prop :=
  ∀ (fuel : Nat) (rest : List UInt8), 8 * (encode datum).length + spare shape ≤ fuel →
    read fuel shape (encode datum ++ rest) = .ok (datum, rest)

/-- A datum takes a byte, so that only readers with fuel have to be looked at. -/
theorem ReadsBack.of_succ {shape : Shape} {datum : Datum} (hfits : datum.Fits shape)
    (hread : ∀ (fuel : Nat) (rest : List UInt8),
      8 * (encode datum).length + spare shape ≤ fuel + 1 →
        read (fuel + 1) shape (encode datum ++ rest) = .ok (datum, rest)) :
    ReadsBack shape datum := by
  intro fuel rest hfuel
  have hpos := encode_pos hfits
  obtain ⟨fuel, rfl⟩ : ∃ less, fuel = less + 1 := ⟨fuel - 1, by omega⟩
  exact hread fuel rest hfuel

/-- Items are read back from their bytes, given fuel for them. -/
theorem readItems_encodeAll {item : TypeName} : ∀ {items : List Datum},
    (∀ datum ∈ items, datum.Fits (.named item)) → (∀ datum ∈ items, ReadsBack (.named item) datum) →
    ∀ (fuel : Nat) (rest : List UInt8), 8 * (encodeAll items).length + 3 ≤ fuel →
      readItems fuel item items.length (encodeAll items ++ rest) = .ok (items, rest)
  | [], _, _, _, _, _ => by simp [readItems, encodeAll]
  | datum :: items, hfits, hreads, fuel, rest, hfuel => by
    obtain ⟨hfirst, hitems⟩ := List.forall_mem_cons.mp hfits
    obtain ⟨hread, hreads⟩ := List.forall_mem_cons.mp hreads
    have hpos := encode_pos hfirst
    have hspare := spare_le (.named item)
    simp only [encodeAll, List.length_append] at hfuel
    obtain ⟨fuel, rfl⟩ : ∃ less, fuel = less + 1 := ⟨fuel - 1, by omega⟩
    have hdatum := hread fuel (encodeAll items ++ rest) (by omega)
    have hdata := readItems_encodeAll hitems hreads fuel rest (by omega)
    simp only [encodeAll, List.append_assoc, List.length_cons, readItems, hdatum, hdata, bind,
      Except.bind]

mutual

/-- A datum that fits a shape and whose lengths are numbers of 64 bits is read back from its
bytes. -/
theorem read_encode : ∀ {shape : Shape} {datum : Datum}, datum.Fits shape → Counted datum →
    ReadsBack shape datum
  | _, _, .word n, _ => .of_succ (.word n) fun fuel rest _ => by
    simp [read, encode, readWord_varint n.toNat_lt, bind, Except.bind]
  | _, _, .integer n, _ => .of_succ (.integer n) fun fuel rest _ => by
    simp [read, encode, readLong_varint (zigzag_lt n), unzigzag_zigzag, bind, Except.bind]
  | _, _, .double x, _ => .of_succ (.double x) fun fuel rest _ => by
    have hbits : x.bits.toNat < 256 ^ 8 := x.bits.toNat_lt
    simp [read, encode, readLittleEndian_littleEndian rest 8 _ hbits, bind, Except.bind]
  | _, _, .flag b, _ => .of_succ (.flag b) fun fuel rest _ => by
    simp [read, readFlag_encode, bind, Except.bind]
  | _, _, .text s, hcounted => .of_succ (.text s) fun fuel rest _ => by
    rw [Counted] at hcounted
    simp [read, encode, readText_encodeText hcounted, bind, Except.bind]
  | _, _, .optionalText s, hcounted => .of_succ (.optionalText s) fun fuel rest _ => by
    rw [Counted] at hcounted
    simp [read, readOptionalText_encode hcounted, bind, Except.bind]
  | _, _, @Datum.Fits.sequence item items hitems, hcounted =>
    .of_succ (.sequence hitems) fun fuel rest hfuel => by
      rw [Counted] at hcounted
      have hpos := List.length_pos_iff.mpr (varint_ne_nil items.length)
      simp only [encode, List.length_append] at hfuel
      have hreads : ∀ datum ∈ items, ReadsBack (.named item) datum := fun datum hmem =>
        read_encode (hitems datum hmem) (allCounted_iff.mp hcounted.2 datum hmem)
      have hlength := readLong_varint hcounted.1 (encodeAll items ++ rest)
      have hdata := readItems_encodeAll hitems hreads fuel rest (by omega)
      simp [read, encode, hlength, hdata, bind, Except.bind]
  | _, _, @Datum.Fits.record name schema fields hname hall, hcounted =>
    .of_succ (.record hname hall) fun fuel rest hfuel => by
      -- A record has no byte of its own, but its fields are no records.
      rw [Counted] at hcounted
      simp only [encode, spare, Shape.isRecord, hname] at hfuel
      have hflat : ∀ shape ∈ schema.map Field.shape, shape.isRecord = false := by
        simpa [hname, Definition.shapes] using name.isRecord_of_mem_shapes
      have hdata := readAll_encodeAll hall hflat hcounted fuel rest (by simp at hfuel; omega)
      simp [read, encode, hname, hdata, bind, Except.bind]
  | _, _, @Datum.Fits.variant name variants index variant payload hname hindex hall, hcounted =>
    .of_succ (.variant hname hindex hall) fun fuel rest hfuel => by
      -- The index is a byte at least, which pays for the steps into the payload.
      rw [Counted] at hcounted
      have hpos := List.length_pos_iff.mpr (varint_ne_nil index)
      simp only [encode, List.length_append] at hfuel
      have hflat : ∀ shape ∈ variant.payload.shapes, shape.isRecord = false :=
        name.isRecord_of_variant hname (List.mem_of_getElem? hindex)
      have hword := @readWord_varint index (name.index_lt hname hindex) (encodeAll payload ++ rest)
      have hdata := readAll_encodeAll hall hflat hcounted fuel rest (by omega)
      simp [read, encode, hname, hindex, hword, hdata, bind, Except.bind]

/-- Data that fit shapes, none of them that of a record, are read back from their bytes. -/
theorem readAll_encodeAll : ∀ {shapes : List Shape} {data : List Datum}, Datum.FitAll shapes data →
    (∀ shape ∈ shapes, shape.isRecord = false) → AllCounted data →
    ∀ (fuel : Nat) (rest : List UInt8), 8 * (encodeAll data).length + 1 ≤ fuel →
      readAll fuel shapes (encodeAll data ++ rest) = .ok (data, rest)
  | _, _, .nil, _, _, fuel, rest, _ => by simp [readAll, encodeAll]
  | _, _, @Datum.FitAll.cons shape datum _ data hfits hall, hflat, hcounted, fuel, rest, hfuel => by
    obtain ⟨hshape, hflat⟩ := List.forall_mem_cons.mp hflat
    have hpos := encode_pos hfits
    have hspare : spare shape = 0 := by simp [spare, hshape]
    simp only [encodeAll, List.length_append] at hfuel
    obtain ⟨fuel, rfl⟩ : ∃ less, fuel = less + 1 := ⟨fuel - 1, by omega⟩
    have hdatum := read_encode hfits hcounted.1 fuel (encodeAll data ++ rest) (by omega)
    have hdata := readAll_encodeAll hall hflat hcounted.2 fuel rest (by omega)
    simp only [encodeAll, List.append_assoc, readAll, hdatum, hdata, bind, Except.bind]

end

/-- A datum is decoded from its bytes and whatever follows them. -/
theorem decode_encode_of_counted {shape : Shape} {datum : Datum} (hfits : datum.Fits shape)
    (hcounted : Counted datum) (rest : List UInt8) :
    decode shape (encode datum ++ rest) = .ok (datum, rest) := by
  have hspare := spare_le shape
  apply read_encode hfits hcounted
  rw [List.length_append]
  omega

/-- A datum with fewer bytes than 64 bits can count is decoded from them and whatever follows. -/
theorem decode_encode_append {shape : Shape} {datum : Datum} (hfits : datum.Fits shape)
    (hsize : (encode datum).length < 2 ^ 64) (rest : List UInt8) :
    decode shape (encode datum ++ rest) = .ok (datum, rest) :=
  decode_encode_of_counted hfits (counted_of_length_lt hfits hsize) rest

end Lowering.Wire

namespace Lowering

/-- An image whose lengths are numbers of 64 bits is found again in its bytes. -/
theorem Image.ofBytes_toBytes {image : Image} (hcounted : Wire.Counted image.toDatum) :
    Image.ofBytes image.toBytes = .ok image := by
  have hdatum := Wire.decode_encode_of_counted image.toDatum_fits hcounted []
  rw [List.append_nil] at hdatum
  simp only [Image.ofBytes, Image.toBytes, hdatum, bind, Except.bind, image.ofDatum?_toDatum]

/-- An image is found again in its bytes, whatever follows them, with every double bit for bit the
same. So what is read from its bytes equals it if and only if none of its doubles is a NaN.
The bytes can be counted in 64 bits. -/
theorem Image.ofBytes_toBytes_append (image : Image) (hsize : image.toBytes.length < 2 ^ 64)
    (extra : List UInt8) :
    Image.ofBytes (image.toBytes ++ extra) = .ok image ∧
      ((∃ decoded, Image.ofBytes image.toBytes = .ok decoded ∧ decoded.same image = true) ↔
        ∀ x ∈ image.doubles, x.isNaN = false) := by
  have hread (rest : List UInt8) : Image.ofBytes (image.toBytes ++ rest) = .ok image := by
    have hdatum := Wire.decode_encode_append image.toDatum_fits hsize rest
    simp only [Image.ofBytes, Image.toBytes, hdatum, bind, Except.bind, image.ofDatum?_toDatum]
  have hexact : Image.ofBytes image.toBytes = .ok image := by
    simpa using hread []
  refine ⟨hread extra, ?_⟩
  -- An image equals itself unless it holds a double that is not a number.
  rw [← image.same_self]
  constructor
  · rintro ⟨decoded, hdecoded, hsame⟩
    obtain rfl : image = decoded := Except.ok.inj (hexact.symm.trans hdecoded)
    exact hsame
  · intro hsame
    exact ⟨image, hexact, hsame⟩

/-- An image with a function in a function, an array in an array and a parameter record. Its numbers
are the greatest word, the least integer and a NaN. -/
def mixedImage : Image where
  ops :=
    [.functionDef ⟨0⟩ [.functionDef ⟨1⟩ [.unary .unaryMinus ⟨128⟩ ⟨4294967295⟩] ⟨2⟩, .noOp] ⟨3⟩]
  slots :=
    [⟨.array [.array [.long (-9223372036854775808), .double ⟨0x7FF8000000000001⟩], .null], .array⟩,
      ⟨.param ⟨"λ", ⟨0⟩, [.jumpIfNot ⟨1⟩ 300], true, some "int"⟩, .ref⟩]

/-- `mixedImage` is found again in its bytes in front of two others, but does not equal what is
read. -/
theorem Image.ofBytes_toBytes_append_mixed :
    Image.ofBytes (mixedImage.toBytes ++ [255, 0]) = .ok mixedImage ∧
      ¬∃ decoded, Image.ofBytes mixedImage.toBytes = .ok decoded ∧
        decoded.same mixedImage = true := by
  have hsize : mixedImage.toBytes.length < 2 ^ 64 := by decide +kernel
  have hnan : ¬∀ x ∈ mixedImage.doubles, x.isNaN = false := by decide +kernel
  obtain ⟨hread, hsame⟩ := Image.ofBytes_toBytes_append mixedImage hsize [255, 0]
  exact ⟨hread, fun hequal => hnan (hsame.mp hequal)⟩

end Lowering
