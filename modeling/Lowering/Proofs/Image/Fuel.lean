import Lowering.Proofs.Image.Shortest

/-!
# The fuel of a reader of bytes

Data nest, and their readers recurse on a fuel. A reader that runs out of it reports what it reports
at the end of the bytes, so it matters that this never happens. What is read by a shape fits the
shape (`Wire.read_fits`) and takes a byte at least (`Wire.consumes_read`), and between one byte and
the next no more than four steps go deeper: into the items of a sequence, into one of them, into the
fields of a record and into one of these. So four steps for each byte and three at the end are all
that a reader can take, and with any more fuel than that it finds the same (`Wire.read_eq_decode`).
-/

namespace Lowering.Wire

variable {α β : Type}

/-! ## What is read fits -/

mutual

/-- What is read by a shape fits the shape. -/
theorem read_fits : ∀ (fuel : Nat) (shape : Shape),
    Uses (read fuel shape) fun datum _ => datum.Fits shape
  | 0, _ => .refusing _
  | _ + 1, .word => readWord_uses.map (fun n => Datum.word (.ofNat n)) fun _ _ _ => .word _
  | _ + 1, .integer =>
    readLong_uses.map (fun n => Datum.integer (.ofInt (unzigzag n))) fun _ _ _ => .integer _
  | _ + 1, .double =>
    (readLittleEndian_uses 8).map (fun n => Datum.double ⟨.ofNat n⟩) fun _ _ _ => .double _
  | _ + 1, .flag => readFlag_uses.map Datum.flag fun _ _ _ => .flag _
  | _ + 1, .text => readText_uses.map Datum.text fun _ _ _ => .text _
  | _ + 1, .optionalText =>
    readOptionalText_uses.map Datum.optionalText fun _ _ _ => .optionalText _
  | fuel + 1, .sequence item => by
    have hitems (count : Nat) : Uses (fun rest => readItems fuel item count rest >>= fun found =>
        .ok (Datum.sequence found.1, found.2)) fun datum _ => datum.Fits (.sequence item) :=
      (readItems_fits fuel item count).map Datum.sequence fun _ _ h => .sequence h
    exact readLong_uses.bind hitems fun _ _ _ _ _ h => h
  | fuel + 1, .named name => by
    rcases hname : name.definition with fields | variants
    · rw [read_record hname]
      exact (readAll_fits fuel _).map Datum.record fun _ _ h => .record hname h
    · rw [read_choice hname]
      -- An index that names no variant is refused, so the payload is that of a variant.
      have hpayload (index : Nat) : Uses (fun rest =>
          match variants[index]? with
          | none => .error .badVariant
          | some variant => readAll fuel variant.payload.shapes rest >>= fun found =>
            .ok (Datum.variant index found.1, found.2)) fun datum _ => datum.Fits (.named name) := by
        split
        · exact .refusing _
        · next variant hindex =>
          exact (readAll_fits fuel _).map (Datum.variant index) fun _ _ h =>
            .variant hname hindex h
      exact readWord_uses.bind hpayload fun _ _ _ _ _ h => h

/-- What is read as items of a named part fits that part. -/
theorem readItems_fits : ∀ (fuel : Nat) (item : TypeName) (count : Nat),
    Uses (readItems fuel item count) fun data _ => ∀ datum ∈ data, datum.Fits (.named item)
  | 0, _, 0 | _ + 1, _, 0 => .pure (by simp)
  | 0, _, _ + 1 => .refusing _
  | fuel + 1, item, count + 1 =>
    (read_fits fuel (.named item)).cons (readItems_fits fuel item count)
      fun _ _ _ _ h h' => List.forall_mem_cons.mpr ⟨h, h'⟩

/-- What is read as data of given shapes fits them. -/
theorem readAll_fits : ∀ (fuel : Nat) (shapes : List Shape),
    Uses (readAll fuel shapes) fun data _ => Datum.FitAll shapes data
  | 0, [] | _ + 1, [] => .pure .nil
  | 0, _ :: _ => .refusing _
  | fuel + 1, shape :: shapes =>
    (read_fits fuel shape).cons (readAll_fits fuel shapes) fun _ _ _ _ h h' => .cons h h'

end

/-! ## Bytes that are used up -/

/-- Whatever a reader finds takes a byte at least. -/
def Consumes (reader : Reader α) : Prop :=
  ∀ bytes a rest, reader bytes = .ok (a, rest) → rest.length < bytes.length

/-- What comes behind a reader that takes a byte matters only for fewer bytes. -/
theorem Consumes.bind_congr {reader : Reader α} (h : Consumes reader)
    {next next' : α × List UInt8 → Except Fault (β × List UInt8)} {bytes : List UInt8}
    (hnext : ∀ a rest, rest.length < bytes.length → next (a, rest) = next' (a, rest)) :
    (reader bytes >>= next) = (reader bytes >>= next') := by
  rcases hread : reader bytes with fault | ⟨a, rest⟩
  · rfl
  · exact hnext a rest (h bytes a rest hread)

/-- A spelling of something takes a byte if what is written for it does. -/
theorem Spelling.length_lt {code used : List UInt8} (h : Spelling code used) (hcode : code ≠ [])
    (rest : List UInt8) : rest.length < (used ++ rest).length := by
  have hpos := List.length_pos_iff.mpr hcode
  have hle := h.length_le
  rw [List.length_append]
  omega

/-- A number of 32 bits takes a byte at least. -/
theorem consumes_readWord : Consumes readWord := by
  intro bytes n rest hread
  obtain ⟨used, rfl, hspelling, -⟩ := readWord_uses bytes n rest hread
  exact hspelling.length_lt (varint_ne_nil n) rest

/-- A number of 64 bits takes a byte at least. -/
theorem consumes_readLong : Consumes readLong := by
  intro bytes n rest hread
  obtain ⟨used, rfl, hspelling, -⟩ := readLong_uses bytes n rest hread
  exact hspelling.length_lt (varint_ne_nil n) rest

/-- A datum takes a byte at least, since what is written for it does. -/
theorem consumes_read (fuel : Nat) (shape : Shape) : Consumes (read fuel shape) := by
  intro bytes datum rest hread
  obtain ⟨-, -, hfits⟩ := read_fits fuel shape bytes datum rest hread
  obtain ⟨used, rfl, hspelling, -⟩ := read_uses fuel shape bytes datum rest hread
  exact hspelling.length_lt (encode_ne_nil hfits) rest

/-! ## Fuel -/

mutual

/-- Four steps for each byte are enough to read a datum, and two more if it is a record, which has no
byte of its own. -/
theorem read_succ : ∀ (fuel : Nat) (shape : Shape) (bytes : List UInt8),
    4 * bytes.length + spare shape + 1 ≤ fuel → read (fuel + 1) shape bytes = read fuel shape bytes
  | 0, _, _, hfuel => by omega
  | _ + 1, .word, _, _ | _ + 1, .integer, _, _ | _ + 1, .double, _, _ | _ + 1, .flag, _, _
  | _ + 1, .text, _, _ | _ + 1, .optionalText, _, _ => rfl
  | fuel + 1, .sequence item, bytes, hfuel => by
    rw [read, read]
    refine consumes_readLong.bind_congr fun count rest hlength => ?_
    dsimp only
    rw [readItems_succ fuel item count rest (by omega)]
  | fuel + 1, .named name, bytes, hfuel => by
    rcases hname : name.definition with fields | variants
    · rw [read_record hname, read_record hname]
      -- A record takes two steps and no byte, but no part of it is a record again.
      have hflat : ∀ shape ∈ fields.map Field.shape, shape.isRecord = false := by
        simpa [hname, Definition.shapes] using name.isRecord_of_mem_shapes
      simp only [spare, Shape.isRecord, hname] at hfuel
      dsimp only
      rw [readAll_succ fuel _ bytes hflat (by simp at hfuel; omega)]
    · rw [read_choice hname, read_choice hname]
      refine consumes_readWord.bind_congr fun index rest hlength => ?_
      dsimp only
      split
      · rfl
      · next variant hindex =>
        have hflat : ∀ shape ∈ variant.payload.shapes, shape.isRecord = false :=
          name.isRecord_of_variant hname (List.mem_of_getElem? hindex)
        rw [readAll_succ fuel _ rest hflat (by omega)]

/-- Four steps for each byte and four at the end are enough to read items. -/
theorem readItems_succ : ∀ (fuel : Nat) (item : TypeName) (count : Nat) (bytes : List UInt8),
    4 * bytes.length + 4 ≤ fuel →
      readItems (fuel + 1) item count bytes = readItems fuel item count bytes
  | 0, _, _, _, hfuel => by omega
  | _ + 1, _, 0, _, _ => rfl
  | fuel + 1, item, count + 1, bytes, hfuel => by
    have hspare := spare_le (.named item)
    rw [readItems, readItems, read_succ fuel _ bytes (by omega)]
    refine (consumes_read fuel _).bind_congr fun datum rest hlength => ?_
    dsimp only
    rw [readItems_succ fuel item count rest (by omega)]

/-- Four steps for each byte and two at the end are enough to read data none of which is a record. -/
theorem readAll_succ : ∀ (fuel : Nat) (shapes : List Shape) (bytes : List UInt8),
    (∀ shape ∈ shapes, shape.isRecord = false) → 4 * bytes.length + 2 ≤ fuel →
      readAll (fuel + 1) shapes bytes = readAll fuel shapes bytes
  | 0, _, _, _, hfuel => by omega
  | _ + 1, [], _, _, _ => rfl
  | fuel + 1, shape :: shapes, bytes, hflat, hfuel => by
    obtain ⟨hshape, hflat⟩ := List.forall_mem_cons.mp hflat
    have hspare : spare shape = 0 := by simp [spare, hshape]
    rw [readAll, readAll, read_succ fuel _ bytes (by omega)]
    refine (consumes_read fuel _).bind_congr fun datum rest hlength => ?_
    dsimp only
    rw [readAll_succ fuel shapes rest hflat (by omega)]

end

/-- No fuel beyond that of `decode` changes what is read, so that running out of fuel never decides
what becomes of the bytes. -/
theorem read_eq_decode {fuel : Nat} {shape : Shape} {bytes : List UInt8}
    (hfuel : 4 * bytes.length + 3 ≤ fuel) : read fuel shape bytes = decode shape bytes := by
  have hspare := spare_le shape
  have hmore : ∀ more, read (4 * bytes.length + 3 + more) shape bytes =
      read (4 * bytes.length + 3) shape bytes := by
    intro more
    induction more with
    | zero => rfl
    | succ more ih => rw [← Nat.add_assoc, read_succ _ shape bytes (by omega), ih]
  obtain ⟨more, rfl⟩ := Nat.exists_eq_add_of_le hfuel
  have hdecode : 8 * bytes.length + 8 = 4 * bytes.length + 3 + (4 * bytes.length + 5) := by omega
  rw [decode, hdecode, hmore, hmore]

end Lowering.Wire
