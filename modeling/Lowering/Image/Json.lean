import Lowering.Image.Datum
import Lowering.Json.Error
import Lowering.Json.Printer

/-!
# The JSON form of images

A record is an object with its fields in order. An alternative is its bare name when it carries
nothing, and otherwise an object with the name as its only member.

Reading is more liberal: a record may be an array of its fields in order, the fields of an object may
come in any order with others among them, and an absent text may be left out.
-/

namespace Lowering

/-! ## Writing -/

mutual

/-- The JSON form of a datum of a shape. -/
def Datum.toJson : Shape → Datum → Json
  | .named name, .record fields =>
    match name.definition with
    | .record schema => .record (Datum.fieldsToJson schema fields)
    | .choice _ => .null
  | .named name, .variant index payload =>
    match name.definition with
    | .choice variants =>
      match variants[index]? with
      | some ⟨name, .nothing⟩ => .string name
      | some ⟨name, .single shape⟩ => .record [(name, Datum.singleToJson shape payload)]
      | some ⟨name, .fields schema⟩ => .record [(name, .record (Datum.fieldsToJson schema payload))]
      | none => .null
    | .record _ => .null
  | .sequence item, .sequence items => .list (Datum.itemsToJson item items)
  | _, .word n => .int n.toNat
  | _, .integer n => .int n.toInt
  | _, .double x => if x.isFinite then .number (.double x) else .null
  | _, .flag b => .bool b
  | _, .text s => .string s
  | _, .optionalText s => (s.map Json.string).getD .null
  | _, _ => .null

/-- The JSON form of what an alternative carries without a name. -/
def Datum.singleToJson (shape : Shape) : List Datum → Json
  | datum :: _ => datum.toJson shape
  | [] => .null

/-- The JSON forms of the items of a sequence. -/
def Datum.itemsToJson (item : TypeName) : List Datum → List Json
  | [] => []
  | datum :: rest => datum.toJson (.named item) :: Datum.itemsToJson item rest

/-- The members that the fields of a record become. -/
def Datum.fieldsToJson (schema : List Field) : List Datum → List (String × Json)
  | [] => []
  | datum :: rest =>
    match schema with
    | [] => []
    | field :: fields => (field.name, datum.toJson field.shape) :: Datum.fieldsToJson fields rest

end

/-- The JSON form of an image. -/
def Image.toJson (image : Image) : Json :=
  image.toDatum.toJson (.named .image)

/-- The text of the JSON form of an image, one entry to a line. -/
def Image.toText (image : Image) : String :=
  image.toJson.pretty

/-! ## Reading -/

/-- What a reader looks for: a shape with its name replaced by what it stands for, or the fields of an
alternative. -/
inductive Wanted where
  | word | integer | double | flag | text | optionalText
  | sequence (item : TypeName)
  | record (title : String) (schema : List Field)
  | choice (name : TypeName) (variants : List Variant)

/-- What a reader of a shape looks for. -/
def Shape.wanted : Shape → Wanted
  | .word => .word
  | .integer => .integer
  | .double => .double
  | .flag => .flag
  | .text => .text
  | .optionalText => .optionalText
  | .sequence item => .sequence item
  | .named name =>
    match name.definition with
    | .record schema => .record ("struct " ++ name.title) schema
    | .choice variants => .choice name variants

/-- The wording of what a reader looks for. -/
def Wanted.expectation : Wanted → String
  | .word => "u32"
  | .integer => "i64"
  | .double => "f64"
  | .flag => "a boolean"
  | .text | .optionalText => "a string"
  | .sequence _ => "a sequence"
  | .record title _ => title
  | .choice name _ => "enum " ++ name.title

/-- What a reader looks for behind the name of an alternative with fields. -/
def Wanted.variantRecord (name : TypeName) (variant : String) (schema : List Field) : Wanted :=
  .record ("struct variant " ++ name.title ++ "::" ++ variant) schema

/-- The number of fields of a record, in words. -/
def elementCount (count : Nat) : String :=
  count.repr ++ if count = 1 then " element" else " elements"

/-- The parts of a record. -/
def Datum.parts : Datum → List Datum
  | .record fields => fields
  | _ => []

namespace Json

/-- The alternative with a name, and its index. -/
def findVariant (variants : List Variant) (name : String) :
    Except ReadError (Nat × Payload) :=
  match variants.findIdx? fun variant => variant.name == name with
  | some index =>
    match variants[index]? with
    | some variant => .ok (index, variant.payload)
    | none => .error (.data (.unknownVariant name (variants.map Variant.name)))
  | none => .error (.data (.unknownVariant name (variants.map Variant.name)))

/-- Reads an integer that has to be in a range. -/
def readInteger (expected : String) (low high n : Int) : Except ReadError Int :=
  if low ≤ n ∧ n < high then .ok n
  else .error (.data (.invalidValue (.integer n) expected))

/-- Reads an alternative that is given by its bare name. -/
def readBareVariant (variants : List Variant) (name : String) : Except ReadError Datum := do
  let (index, payload) ← findVariant variants name
  match payload with
  | .nothing => .ok (.variant index [])
  | .single _ => .error (.data (.invalidType .bareVariant "newtype variant"))
  | .fields _ => .error (.data (.invalidType .bareVariant "struct variant"))

/-- Reads a value that is no container. A choice is known by its first character, so a word or number
in its place is refused before it is read. -/
def readLeaf : Wanted → Json → Except ReadError Datum
  | .word, .number (.int n) =>
    (readInteger "u32" 0 wordBound n).map fun n => .word (UInt32.ofNat n.toNat)
  | .integer, .number (.int n) =>
    (readInteger "i64" (-signedBound) signedBound n).map fun n => .integer (Int64.ofInt n)
  | .double, .number (.int n) => .ok (.double (Double.ofInt n))
  | .double, .number (.double x) => .ok (.double x)
  | .flag, .bool b => .ok (.flag b)
  | .text, .string s => .ok (.text s)
  | .optionalText, .null => .ok (.optionalText none)
  | .optionalText, .string s => .ok (.optionalText (some s))
  | .choice _ variants, .string s => readBareVariant variants s
  | .choice _ _, .unreadable ⟨.ended, _⟩ => .error (.text .ended)
  | .choice _ _, _ => .error (.text .malformed)
  | wanted, value => .error (refuse wanted.expectation value)

/-- The fields of a record in order, from those found under their names. -/
def collectFields (found : List (String × Datum)) : List Field → Except ReadError (List Datum)
  | [] => .ok []
  | field :: rest =>
    match found.lookup field.name, field.shape with
    | some datum, _ => (collectFields found rest).map (datum :: ·)
    | none, .optionalText => (collectFields found rest).map (.optionalText none :: ·)
    | none, _ => .error (.data (.missingField field.name))

mutual

/-- Reads a datum, with `depth` levels of containers left. -/
def readDatum (depth : Nat) (wanted : Wanted) : Json → Except ReadError Datum
  | .array items ending =>
    match wanted, depth with
    | .sequence _, 0 | .record _ _, 0 => .error (.text .malformed)
    | .sequence item, depth + 1 =>
      (readDatumItems depth (Shape.named item).wanted ending items).map .sequence
    | .record title schema, depth + 1 =>
      (readInOrder depth (title ++ " with " ++ elementCount schema.length) ending items schema 0).map
        .record
    | .choice _ _, _ => .error (.text .malformed)
    | wanted, _ => .error (.data (.invalidType .array wanted.expectation))
  | .object members ending =>
    match wanted, depth with
    | .record _ _, 0 | .choice _ _, 0 => .error (.text .malformed)
    | .record _ schema, depth + 1 => (readByName depth schema ending members []).map .record
    | .choice name variants, depth + 1 => readVariant depth name variants ending members
    | wanted, _ => .error (.data (.invalidType .object wanted.expectation))
  | leaf => readLeaf wanted leaf

/-- Reads the items of a sequence. -/
def readDatumItems (depth : Nat) (wanted : Wanted) (ending : Ending) :
    List Json → Except ReadError (List Datum)
  | [] => (proceed ending.reading).map fun _ => []
  | item :: rest => do
    let datum ← readDatum depth wanted item
    let data ← readDatumItems depth wanted ending rest
    return datum :: data

/-- Reads the fields of a record in order, of which `taken` have been read. -/
def readInOrder (depth : Nat) (expected : String) (ending : Ending) :
    List Json → List Field → (taken : Nat) → Except ReadError (List Datum)
  | [], [], _ => (proceed ending.closing).map fun _ => []
  | [], _ :: _, taken => do
    proceed ending.reading
    .error (.data (.invalidLength taken expected))
  | _ :: _, [], _ => .error (.text .malformed)
  | item :: rest, field :: fields, taken => do
    let datum ← readDatum depth field.shape.wanted item
    let data ← readInOrder depth expected ending rest fields (taken + 1)
    return datum :: data

/-- Reads the fields of a record under their names; others are passed over. -/
def readByName (depth : Nat) (schema : List Field) (ending : Ending) :
    List (String × Json) → (found : List (String × Datum)) → Except ReadError (List Datum)
  | [], found => do
    proceed ending.reading
    collectFields found schema
  | (name, value) :: rest, found =>
    match schema.find? fun field => field.name == name with
    | none => do
      proceed (skipFault value)
      readByName depth schema ending rest found
    | some field =>
      if (found.lookup name).isSome then .error (.data (.duplicateField name))
      else do
        let datum ← readDatum depth field.shape.wanted value
        readByName depth schema ending rest ((name, datum) :: found)

/-- Reads an alternative that is the only member of an object. -/
def readVariant (depth : Nat) (name : TypeName) (variants : List Variant) (ending : Ending) :
    List (String × Json) → Except ReadError Datum
  | [] => .error (.text (ending.reading.getD .malformed))
  | (variant, value) :: rest => do
    let (index, payload) ← findVariant variants variant
    let payload ← match payload with
      | .nothing =>
        match value with
        | .null => .ok []
        | value => .error (refuse "unit" value)
      | .single shape => (readDatum depth shape.wanted value).map ([·])
      | .fields schema =>
        (readDatum depth (.variantRecord name variant schema) value).map Datum.parts
    if !rest.isEmpty then .error (.text .malformed)
    proceed ending.closing
    return .variant index payload

end

end Json

/-- Reads an image, with `depth` levels of containers left. -/
def Image.read (depth : Nat) (value : Json) : Except Json.ReadError Image := do
  let datum ← Json.readDatum depth (Shape.named .image).wanted value
  match Image.ofDatum? datum with
  | some image => .ok image
  | none => .error (.text .malformed)

/-- The image whose JSON form is a text. -/
def Image.ofText (text : String) : Except Json.ReadError Image :=
  Json.readText Image.read text

end Lowering
