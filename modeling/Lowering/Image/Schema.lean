import Lowering.Code.Value

/-!
# The schema of images

Both stored forms of an image, the JSON form and the byte form, follow one description of its parts:
which fields a record has and in what order, and which alternatives a choice has. `TypeName.definition`
gives that description. `Datum` is what both forms hold, a tree without names.
-/

namespace Lowering

/-- The named parts of an image. -/
inductive TypeName where
  | image | slotImage | linkedOp | valueImage | typeTag | unaryKind | binaryKind
  deriving DecidableEq

/-- The shape of a piece of data. -/
inductive Shape where
  /-- An unsigned word of 32 bits. -/
  | word
  /-- A signed integer of 64 bits. -/
  | integer
  | double
  | flag
  | text
  /-- A text that may be absent. -/
  | optionalText
  /-- Any number of items of a named part. -/
  | sequence (item : TypeName)
  | named (name : TypeName)
  deriving DecidableEq

/-- A field of a record. -/
structure Field where
  name : String
  shape : Shape

/-- What an alternative carries. -/
inductive Payload where
  | nothing
  /-- One piece of data without a name. -/
  | single (shape : Shape)
  /-- Named fields. -/
  | fields (schema : List Field)

/-- The shapes that a payload consists of. -/
def Payload.shapes : Payload → List Shape
  | .nothing => []
  | .single shape => [shape]
  | .fields schema => schema.map Field.shape

/-- An alternative of a choice. -/
structure Variant where
  name : String
  payload : Payload

/-- What a named part consists of. -/
inductive Definition where
  | record (fields : List Field)
  | choice (variants : List Variant)

namespace TypeName

/-- The name of a part in messages. -/
def title : TypeName → String
  | image => "Image"
  | slotImage => "SlotImage"
  | linkedOp => "LinkedOp"
  | valueImage => "ValueImage"
  | typeTag => "TypeTag"
  | unaryKind => "UnaryKind"
  | binaryKind => "BinaryKind"

/-- A choice between bare names. -/
def choiceOfNames (names : List String) : Definition :=
  .choice (names.map fun name => ⟨name, .nothing⟩)

/-- The alternatives of an op-line. -/
def opVariants : List Variant :=
  [⟨"Unary", .fields [⟨"kind", .named unaryKind⟩, ⟨"op1", .word⟩, ⟨"result", .word⟩]⟩,
    ⟨"Binary", .fields
      [⟨"kind", .named binaryKind⟩, ⟨"op1", .word⟩, ⟨"op2", .word⟩, ⟨"result", .word⟩]⟩,
    ⟨"FunctionDef", .fields
      [⟨"name", .word⟩, ⟨"body", .sequence linkedOp⟩, ⟨"params", .word⟩]⟩,
    ⟨"JumpTo", .fields [⟨"target", .word⟩]⟩,
    ⟨"JumpIf", .fields [⟨"cond", .word⟩, ⟨"target", .word⟩]⟩,
    ⟨"JumpIfNot", .fields [⟨"cond", .word⟩, ⟨"target", .word⟩]⟩,
    ⟨"NoOp", .nothing⟩]

/-- The alternatives of a value. -/
def valueVariants : List Variant :=
  [⟨"Null", .nothing⟩,
    ⟨"Bool", .single .flag⟩,
    ⟨"Long", .single .integer⟩,
    ⟨"Double", .single .double⟩,
    ⟨"String", .single .text⟩,
    ⟨"Array", .single (.sequence valueImage)⟩,
    ⟨"Slot", .single .word⟩,
    ⟨"Param", .fields
      [⟨"name", .text⟩, ⟨"default", .word⟩, ⟨"ops", .sequence linkedOp⟩, ⟨"by_ref", .flag⟩,
        ⟨"type_hint", .optionalText⟩]⟩]

/-- What a named part consists of. -/
def definition : TypeName → Definition
  | image => .record [⟨"ops", .sequence linkedOp⟩, ⟨"slots", .sequence slotImage⟩]
  | slotImage => .record [⟨"value", .named valueImage⟩, ⟨"ty", .named typeTag⟩]
  | linkedOp => .choice opVariants
  | valueImage => .choice valueVariants
  | typeTag => choiceOfNames (TypeTag.all.map TypeTag.name)
  | unaryKind => choiceOfNames (UnaryKind.all.map UnaryKind.name)
  | binaryKind => choiceOfNames (BinaryKind.all.map BinaryKind.name)

end TypeName

/-- A piece of data without the names of its parts. -/
inductive Datum where
  | word (n : UInt32)
  | integer (n : Int64)
  | double (x : Double)
  | flag (b : Bool)
  | text (s : String)
  | optionalText (s : Option String)
  | sequence (items : List Datum)
  | record (fields : List Datum)
  /-- An alternative by its index, with what it carries. -/
  | variant (index : Nat) (payload : List Datum)

mutual

/-- Equality of data in which doubles compare as numbers. -/
def Datum.same : Datum → Datum → Bool
  | .word a, .word b => a == b
  | .integer a, .integer b => a == b
  | .double a, .double b => a.same b
  | .flag a, .flag b => a == b
  | .text a, .text b => a == b
  | .optionalText a, .optionalText b => a == b
  | .sequence as, .sequence bs => sameData as bs
  | .record as, .record bs => sameData as bs
  | .variant i as, .variant j bs => i == j && sameData as bs
  | _, _ => false

/-- Equality of lists of data. -/
def sameData : List Datum → List Datum → Bool
  | [], [] => true
  | a :: as, b :: bs => a.same b && sameData as bs
  | _, _ => false

end

end Lowering
