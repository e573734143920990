import Lowering.Image
import Lowering.Image.Schema

/-!
# Images as data

The conversions between images and the trees that their stored forms hold. An alternative is known by
its place in the schema, and an image made from data and turned into data again is what it was.
-/

namespace Lowering

/-! ## To data -/

mutual

/-- The data of an op-line. -/
def LinkedOp.toDatum : LinkedOp → Datum
  | .unary kind op1 result =>
    .variant 0 [.variant kind.index [], .word op1.number, .word result.number]
  | .binary kind op1 op2 result =>
    .variant 1 [.variant kind.index [], .word op1.number, .word op2.number, .word result.number]
  | .functionDef name body params =>
    .variant 2 [.word name.number, .sequence (opsToData body), .word params.number]
  | .jumpTo target => .variant 3 [.word target]
  | .jumpIf cond target => .variant 4 [.word cond.number, .word target]
  | .jumpIfNot cond target => .variant 5 [.word cond.number, .word target]
  | .noOp => .variant 6 []

/-- The data of op-lines. -/
def opsToData : List LinkedOp → List Datum
  | [] => []
  | op :: rest => op.toDatum :: opsToData rest

end

mutual

/-- The data of a value. -/
def ValueImage.toDatum : ValueImage → Datum
  | .null => .variant 0 []
  | .bool b => .variant 1 [.flag b]
  | .long n => .variant 2 [.integer n]
  | .double x => .variant 3 [.double x]
  | .string s => .variant 4 [.text s]
  | .array items => .variant 5 [.sequence (valuesToData items)]
  | .slot ref => .variant 6 [.word ref.number]
  | .param record =>
    .variant 7 [.text record.name, .word record.default.number, .sequence (opsToData record.ops),
      .flag record.byRef, .optionalText record.typeHint]

/-- The data of values. -/
def valuesToData : List ValueImage → List Datum
  | [] => []
  | value :: rest => value.toDatum :: valuesToData rest

end

/-- The data of an entry of the slot table. -/
def SlotImage.toDatum (slot : SlotImage) : Datum :=
  .record [slot.value.toDatum, .variant slot.type.index []]

/-- The data of an image. -/
def Image.toDatum (image : Image) : Datum :=
  .record [.sequence (opsToData image.ops), .sequence (image.slots.map SlotImage.toDatum)]

/-! ## From data -/

mutual

/-- The op-line that a datum stands for. -/
def LinkedOp.ofDatum? : Datum → Option LinkedOp
  | .variant 0 [.variant kind [], .word op1, .word result] =>
    UnaryKind.all[kind]?.map fun kind => .unary kind ⟨op1⟩ ⟨result⟩
  | .variant 1 [.variant kind [], .word op1, .word op2, .word result] =>
    BinaryKind.all[kind]?.map fun kind => .binary kind ⟨op1⟩ ⟨op2⟩ ⟨result⟩
  | .variant 2 [.word name, .sequence body, .word params] =>
    (opsOfData? body).map fun body => .functionDef ⟨name⟩ body ⟨params⟩
  | .variant 3 [.word target] => some (.jumpTo target)
  | .variant 4 [.word cond, .word target] => some (.jumpIf ⟨cond⟩ target)
  | .variant 5 [.word cond, .word target] => some (.jumpIfNot ⟨cond⟩ target)
  | .variant 6 [] => some .noOp
  | _ => none

/-- The op-lines that data stand for. -/
def opsOfData? : List Datum → Option (List LinkedOp)
  | [] => some []
  | datum :: rest =>
    match LinkedOp.ofDatum? datum, opsOfData? rest with
    | some op, some ops => some (op :: ops)
    | _, _ => none

end

mutual

/-- The value that a datum stands for. -/
def ValueImage.ofDatum? : Datum → Option ValueImage
  | .variant 0 [] => some .null
  | .variant 1 [.flag b] => some (.bool b)
  | .variant 2 [.integer n] => some (.long n)
  | .variant 3 [.double x] => some (.double x)
  | .variant 4 [.text s] => some (.string s)
  | .variant 5 [.sequence items] => (valuesOfData? items).map .array
  | .variant 6 [.word ref] => some (.slot ⟨ref⟩)
  | .variant 7 [.text name, .word default, .sequence ops, .flag byRef, .optionalText typeHint] =>
    (opsOfData? ops).map fun ops => .param ⟨name, ⟨default⟩, ops, byRef, typeHint⟩
  | _ => none

/-- The values that data stand for. -/
def valuesOfData? : List Datum → Option (List ValueImage)
  | [] => some []
  | datum :: rest =>
    match ValueImage.ofDatum? datum, valuesOfData? rest with
    | some value, some values => some (value :: values)
    | _, _ => none

end

/-- The entry of the slot table that a datum stands for. -/
def SlotImage.ofDatum? : Datum → Option SlotImage
  | .record [value, .variant type []] =>
    match ValueImage.ofDatum? value, TypeTag.all[type]? with
    | some value, some type => some ⟨value, type⟩
    | _, _ => none
  | _ => none

/-- The image that a datum stands for. -/
def Image.ofDatum? : Datum → Option Image
  | .record [.sequence ops, .sequence slots] =>
    match opsOfData? ops, slots.mapM SlotImage.ofDatum? with
    | some ops, some slots => some ⟨ops, slots⟩
    | _, _ => none
  | _ => none

/-- Equality of images in which doubles compare as numbers. -/
def Image.same (a b : Image) : Bool :=
  a.toDatum.same b.toDatum

end Lowering
