import Lowering.Event

/-!
# The state of a compiler

Compiling adds slots to a heap, writes into them, hands out handles and reports to the log. All of
this outlives a failure: a `CompileM` that fails still returns the state it had reached.
-/

namespace Lowering

/-- Why a tree cannot be compiled. -/
inductive CompileError where
  /-- A node with this tag has no meaning to the compiler. -/
  | unsupported (tag : String)
  deriving DecidableEq

/-- The wording of an error. -/
def CompileError.message : CompileError → String
  | .unsupported tag => "compile error: cannot compile '" ++ tag ++ "' node: unsupported construct"

/-- The state of a compiler: the heap that it adds to, the number of handles it has handed out and
the log. -/
structure CompileState where
  heap : Heap := {}
  issued : Nat := 0
  log : List Event := []

/-- A step of a compiler. -/
abbrev CompileM := ExceptT CompileError (StateM CompileState)

namespace CompileM

/-- Reports an event. The log of a state has the latest event first. -/
def note (event : Event) : CompileM Unit :=
  modify fun s => { s with log := event :: s.log }

/-- Adds a slot with a given cell. -/
def newSlot (cell : Cell) : CompileM SlotId :=
  modifyGet fun s => (s.heap.next, { s with heap := s.heap.add cell })

/-- Adds an empty slot. -/
def freshSlot : CompileM SlotId :=
  newSlot {}

/-- Changes the cell of a slot. -/
def write (slot : SlotId) (change : Cell → Cell) : CompileM Unit :=
  modify fun s => { s with heap := s.heap.modify slot change }

/-- The cell of a slot. -/
def cellOf (slot : SlotId) : CompileM Cell := do
  return (← get).heap.get slot

/-- Hands out a handle. -/
def newHandle : CompileM OpId :=
  modifyGet fun s => (⟨UInt32.ofNat s.issued⟩, { s with issued := s.issued + 1 })

/-- An op-line under a new handle. -/
def emit (op : Op) : CompileM OpLine := do
  return ⟨← newHandle, op⟩

/-- A place to jump to. -/
def label : CompileM OpLine :=
  emit .noOp

end CompileM

end Lowering
