import Lowering.Image.Datum

/-!
# The byte form of images

A record is its fields one after another, an alternative its index followed by what it carries, and a
sequence or text its length followed by its content. Words, lengths and indices are written seven bits
to a byte, the lowest first, with the high bit of each byte telling that more follow. Signed integers
are interleaved (0, -1, 1, -2, …) and then written in the same way; a double is eight bytes, the lowest
first.

Reading accepts numbers that are longer than need be, within the bytes that their width allows, and
ignores what follows the image.
-/

namespace Lowering.Wire

/-! ## Writing -/

/-- A number of at most `more + 1` groups of seven bits. -/
def varintGroups : Nat → Nat → List UInt8
  | 0, n => [UInt8.ofNat n]
  | more + 1, n =>
    if n < 128 then [UInt8.ofNat n]
    else UInt8.ofNat (n % 128 + 128) :: varintGroups more (n / 128)

/-- A number below `2^70`. -/
def varint (n : Nat) : List UInt8 :=
  varintGroups 9 n

/-- The place of a signed integer in the order 0, -1, 1, -2, …. -/
def zigzag (n : Int) : Nat :=
  if 0 ≤ n then 2 * n.toNat else 2 * (-n).toNat - 1

/-- The lowest bytes of a number, the lowest first. -/
def littleEndian : Nat → Nat → List UInt8
  | 0, _ => []
  | count + 1, n => UInt8.ofNat (n % 256) :: littleEndian count (n / 256)

/-- The bytes of a text. -/
def textBytes (s : String) : List UInt8 :=
  s.toByteArray.data.toList

/-- A text behind its length. -/
def encodeText (s : String) : List UInt8 :=
  let bytes := textBytes s
  varint bytes.length ++ bytes

mutual

/-- The bytes of a datum. -/
def encode : Datum → List UInt8
  | .word n => varint n.toNat
  | .integer n => varint (zigzag n.toInt)
  | .double x => littleEndian 8 x.bits.toNat
  | .flag b => [if b then 1 else 0]
  | .text s => encodeText s
  | .optionalText none => [0]
  | .optionalText (some s) => 1 :: encodeText s
  | .sequence items => varint items.length ++ encodeAll items
  | .record fields => encodeAll fields
  | .variant index payload => varint index ++ encodeAll payload

/-- The bytes of data one after another. -/
def encodeAll : List Datum → List UInt8
  | [] => []
  | datum :: rest => encode datum ++ encodeAll rest

end

/-! ## Reading -/

/-- Why bytes cannot be read. -/
inductive Fault where
  /-- The bytes end too early. -/
  | unexpectedEnd
  /-- A number is longer than its width allows. -/
  | badVarint
  /-- A truth value is neither 0 nor 1. -/
  | badBool
  /-- The mark of something optional is neither 0 nor 1. -/
  | badOption
  /-- A text is not UTF-8. -/
  | badUtf8
  /-- An index names no alternative. -/
  | badVariant
  deriving DecidableEq

/-- Reads something from the front of the bytes and returns the bytes behind it. -/
abbrev Reader (α : Type) := List UInt8 → Except Fault (α × List UInt8)

/-- Reads a byte. -/
def readByte : Reader UInt8
  | [] => .error .unexpectedEnd
  | byte :: rest => .ok (byte, rest)

/-- Reads a number of at most `groups` groups of seven bits, of which the last possible one may be
`last` at most. -/
def readVarint : (groups last : Nat) → Reader Nat
  | 0, _, _ => .error .badVarint
  | _ + 1, _, [] => .error .unexpectedEnd
  | more + 1, last, byte :: rest =>
    if byte.toNat < 128 then
      if more = 0 ∧ last < byte.toNat then .error .badVarint else .ok (byte.toNat, rest)
    else
      match readVarint more last rest with
      | .ok (high, rest) => .ok (byte.toNat - 128 + 128 * high, rest)
      | .error fault => .error fault

/-- Reads a number of 32 bits. -/
def readWord : Reader Nat :=
  readVarint 5 15

/-- Reads a number of 64 bits. -/
def readLong : Reader Nat :=
  readVarint 10 1

/-- The signed integer at a place in the order 0, -1, 1, -2, …. -/
def unzigzag (n : Nat) : Int :=
  if n % 2 = 0 then (n / 2 : Nat) else -((n / 2 : Nat) + 1)

/-- Reads a number of `count` bytes, the lowest first. -/
def readLittleEndian : (count : Nat) → Reader Nat
  | 0, bytes => .ok (0, bytes)
  | _ + 1, [] => .error .unexpectedEnd
  | count + 1, byte :: rest =>
    match readLittleEndian count rest with
    | .ok (high, rest) => .ok (byte.toNat + 256 * high, rest)
    | .error fault => .error fault

/-- Reads a text behind its length. -/
def readText : Reader String := fun bytes => do
  let (length, rest) ← readLong bytes
  if rest.length < length then .error .unexpectedEnd
  else
    match String.fromUTF8? (rest.take length).toByteArray with
    | some s => .ok (s, rest.drop length)
    | none => .error .badUtf8

/-- Reads a truth value. -/
def readFlag : Reader Bool := fun bytes => do
  let (byte, rest) ← readByte bytes
  if byte = 0 then .ok (false, rest)
  else if byte = 1 then .ok (true, rest)
  else .error .badBool

/-- Reads a text that may be absent. -/
def readOptionalText : Reader (Option String) := fun bytes => do
  let (byte, rest) ← readByte bytes
  if byte = 0 then .ok (none, rest)
  else if byte = 1 then
    let (s, rest) ← readText rest
    .ok (some s, rest)
  else .error .badOption

mutual

/-- Reads a datum of a shape. -/
def read : Nat → Shape → Reader Datum
  | 0, _, _ => .error .unexpectedEnd
  | fuel + 1, shape, bytes =>
    match shape with
    | .word => do
      let (n, rest) ← readWord bytes
      .ok (.word (UInt32.ofNat n), rest)
    | .integer => do
      let (n, rest) ← readLong bytes
      .ok (.integer (Int64.ofInt (unzigzag n)), rest)
    | .double => do
      let (n, rest) ← readLittleEndian 8 bytes
      .ok (.double ⟨UInt64.ofNat n⟩, rest)
    | .flag => do
      let (b, rest) ← readFlag bytes
      .ok (.flag b, rest)
    | .text => do
      let (s, rest) ← readText bytes
      .ok (.text s, rest)
    | .optionalText => do
      let (s, rest) ← readOptionalText bytes
      .ok (.optionalText s, rest)
    | .sequence item => do
      let (count, rest) ← readLong bytes
      let (items, rest) ← readItems fuel item count rest
      .ok (.sequence items, rest)
    | .named name =>
      match name.definition with
      | .record fields => do
        let (fields, rest) ← readAll fuel (fields.map Field.shape) bytes
        .ok (.record fields, rest)
      | .choice variants => do
        let (index, rest) ← readWord bytes
        match variants[index]? with
        | none => .error .badVariant
        | some variant =>
          let (payload, rest) ← readAll fuel variant.payload.shapes rest
          .ok (.variant index payload, rest)

/-- Reads a number of items of a named part. -/
def readItems : Nat → TypeName → (count : Nat) → Reader (List Datum)
  | _, _, 0, bytes => .ok ([], bytes)
  | 0, _, _ + 1, _ => .error .unexpectedEnd
  | fuel + 1, item, count + 1, bytes => do
    let (datum, rest) ← read fuel (.named item) bytes
    let (data, rest) ← readItems fuel item count rest
    .ok (datum :: data, rest)

/-- Reads data of the given shapes one after another. -/
def readAll : Nat → List Shape → Reader (List Datum)
  | _, [], bytes => .ok ([], bytes)
  | 0, _ :: _, _ => .error .unexpectedEnd
  | fuel + 1, shape :: shapes, bytes => do
    let (datum, rest) ← read fuel shape bytes
    let (data, rest) ← readAll fuel shapes rest
    .ok (datum :: data, rest)

end

/-- Reads a datum of a shape. Between one byte and the next no more than four steps go deeper, so the
fuel never runs out before the bytes do, and more of it changes nothing (`read_eq_decode`). -/
def decode (shape : Shape) (bytes : List UInt8) : Except Fault (Datum × List UInt8) :=
  read (8 * bytes.length + 8) shape bytes

end Lowering.Wire

namespace Lowering

/-- The byte form of an image. -/
def Image.toBytes (image : Image) : List UInt8 :=
  Wire.encode image.toDatum

/-- The image that bytes start with. -/
def Image.ofBytes (bytes : List UInt8) : Except Wire.Fault Image := do
  let (datum, _) ← Wire.decode (.named .image) bytes
  match Image.ofDatum? datum with
  | some image => .ok image
  | none => .error .badVariant

end Lowering
