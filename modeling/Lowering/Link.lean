import Lowering.Code.Heap
import Lowering.Image

/-!
# Linking

`link` turns op-lines over a heap into an image. Each list of op-lines, at the top level, in a function
or in a parameter record, resolves its jumps against its own positions, and no handle may occur twice
in it. A slot gets its place in the table when it is first met, before its content is linked, so that
a slot may contain itself. Places are words of 32 bits, also where a value is filled in: a table of
more slots than there are words would have values overwritten.

Op-lines and values are linked by recursion on them, given a way to link the slots that they name.
Linking a slot follows its content through the heap. Each step down registers another slot of the
heap, so a depth of one more than the number of slots is never exceeded.
-/

namespace Lowering

/-- Why op-lines cannot be linked. -/
inductive LinkError where
  /-- A jump goes to a handle that its own list does not have. -/
  | unresolvedTarget (target : OpId)
  /-- A handle occurs twice in one list. -/
  | duplicateId (id : OpId)
  deriving DecidableEq

/-- The wording of an error. -/
def LinkError.message : LinkError → String
  | .unresolvedTarget target =>
    "link error: jump target " ++ target.text ++ " is not in the same op-line sequence"
  | .duplicateId id => "link error: op-line handle " ++ id.text ++ " appears twice"

/-- A place as a word. Places beyond the words are counted from zero again. -/
def SlotRef.ofNat (place : Nat) : SlotRef :=
  ⟨UInt32.ofNat place⟩

/-- The slots met so far, each with its entry; the place of a slot is its index. -/
structure SlotTable where
  entries : Array (SlotId × SlotImage) := #[]

namespace SlotTable

/-- The number of slots met so far. -/
def size (table : SlotTable) : Nat :=
  table.entries.size

/-- The place of a slot that has been met. -/
def find? (table : SlotTable) (slot : SlotId) : Option Nat :=
  table.entries.findIdx? fun (other, _) => other == slot

/-- Gives a slot the next place, with no value yet. -/
def register (table : SlotTable) (slot : SlotId) (type : TypeTag) : SlotTable :=
  ⟨table.entries.push (slot, ⟨.null, type⟩)⟩

/-- Fills in the value at a place. -/
def fill (table : SlotTable) (place : SlotRef) (value : ValueImage) : SlotTable :=
  ⟨table.entries.modify place.number.toNat fun (slot, entry) =>
    (slot, { entry with value := value })⟩

/-- The entries in order of their places. -/
def slots (table : SlotTable) : List SlotImage :=
  table.entries.toList.map Prod.snd

end SlotTable

/-- A step of the linker. -/
abbrev LinkM := StateT SlotTable (Except LinkError)

/-- The first handle of a list that has occurred before. -/
def firstDuplicate? (seen : List OpId) : List OpLine → Option OpId
  | [] => none
  | ⟨id, _⟩ :: rest => if seen.contains id then some id else firstDuplicate? (id :: seen) rest

/-- Refuses a list of op-lines in which a handle occurs twice. -/
def checkDistinct (lines : List OpLine) : LinkM Unit :=
  match firstDuplicate? [] lines with
  | some id => throw (.duplicateId id)
  | none => pure ()

/-- The position of the op-line that a jump goes to. -/
def resolve (lines : List OpLine) (target : OpId) : LinkM UInt32 :=
  match lines.findIdx? fun line => line.id == target with
  | some position => pure (UInt32.ofNat position)
  | none => throw (.unresolvedTarget target)

section

variable (slot : SlotId → LinkM SlotRef)

mutual

/-- Links an operation that stands in a given list. -/
def Op.link (lines : List OpLine) : Op → LinkM LinkedOp
  | .unary kind op1 result => do
    let op1 ← slot op1
    let result ← slot result
    return .unary kind op1 result
  | .binary kind op1 op2 result => do
    let op1 ← slot op1
    let op2 ← slot op2
    let result ← slot result
    return .binary kind op1 op2 result
  | .functionDef name body params => do
    let name ← slot name
    checkDistinct body
    let body ← linkLines body body
    let params ← slot params
    return .functionDef name body params
  | .jumpTo target => do
    let target ← resolve lines target
    return .jumpTo target
  | .jumpIf cond target => do
    let cond ← slot cond
    let target ← resolve lines target
    return .jumpIf cond target
  | .jumpIfNot cond target => do
    let cond ← slot cond
    let target ← resolve lines target
    return .jumpIfNot cond target
  | .noOp => pure .noOp

/-- Links op-lines that stand in a given list, one after another. -/
def linkLines (lines : List OpLine) : List OpLine → LinkM (List LinkedOp)
  | [] => pure []
  | ⟨_, op⟩ :: rest => do
    let op ← op.link lines
    let ops ← linkLines lines rest
    return op :: ops

end

/-- Links a list of op-lines. -/
def linkSequence (lines : List OpLine) : LinkM (List LinkedOp) := do
  checkDistinct lines
  linkLines slot lines lines

mutual

/-- Links a value. -/
def Value.link : Value → LinkM ValueImage
  | .null => pure .null
  | .bool b => pure (.bool b)
  | .long n => pure (.long n)
  | .double x => pure (.double x)
  | .string s => pure (.string s)
  | .array items => do
    let items ← linkValues items
    return .array items
  | .slot id => do
    let ref ← slot id
    return .slot ref
  | .param record => do
    let default ← slot record.default
    let ops ← linkSequence slot record.ops
    return .param ⟨record.name, default, ops, record.byRef, record.typeHint⟩

/-- Links values one after another. -/
def linkValues : List Value → LinkM (List ValueImage)
  | [] => pure []
  | value :: rest => do
    let value ← value.link
    let values ← linkValues rest
    return value :: values

end

end

/-- Links a slot: one that has been met has its place, and any other gets the next one before its
content is linked. -/
def linkSlotBy (heap : Heap) (content : Value → LinkM ValueImage) (slot : SlotId) :
    LinkM SlotRef := do
  match (← get).find? slot with
  | some place => return .ofNat place
  | none =>
    let place := SlotRef.ofNat (← get).size
    let cell := heap.get slot
    modify (·.register slot cell.type)
    let value ← content cell.value
    modify (·.fill place value)
    return place

/-- Links a slot, following slots in slots down to a depth. -/
def linkSlot (heap : Heap) : Nat → SlotId → LinkM SlotRef
  | 0 => linkSlotBy heap fun _ => pure .null
  | depth + 1 => linkSlotBy heap fun value => value.link (linkSlot heap depth)

/-- Links op-lines over a heap into an image. -/
def link (heap : Heap) (lines : List OpLine) : Except LinkError Image := do
  let (ops, table) ← (linkSequence (linkSlot heap (heap.size + 1)) lines).run {}
  return ⟨ops, table.slots⟩

end Lowering
