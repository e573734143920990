import Lowering.Compile.State

/-!
# Pieces of code

An `Emitter` is the compilation of a piece of a tree. It is given the slot that the piece has to write
its result into, its *context*, if there is one, and returns op-lines. Every way of compiling a node is
an operation on emitters: it takes those of the node's fields and does not look at the fields
themselves.

Slots that an emitter adds for the operands of its own op-line are new, and so is the slot of its
result when it has no context.
-/

namespace Lowering

/-- The compilation of a piece of a tree in a context. -/
abbrev Emitter := Option SlotId → CompileM (List OpLine)

namespace Emitter

open CompileM

/-- No code. -/
def skip : Emitter := fun _ => pure []

/-- The code of one piece and then that of another, in the same context. -/
def append (first second : Emitter) : Emitter := fun context => do
  let ops ← first context
  let more ← second context
  return ops ++ more

/-- Reports an event first. -/
def noting (event : Event) (emitter : Emitter) : Emitter := fun context => do
  note event
  emitter context

/-- A node that cannot be compiled. -/
def unsupported (kind : NodeKind) : Emitter := fun _ =>
  throw (.unsupported kind.tag)

/-! ## Literals -/

/-- A literal that has no effect. -/
def dropped (literal : Scalar) : Emitter := fun _ => do
  note (.literalDropped literal)
  return []

/-- A literal that is all the content of a field: it is folded into the context and has no effect
without one. -/
def folded (literal : Scalar) : Emitter
  | some context => do
    write context fun _ => .ofLiteral literal
    return []
  | none => dropped literal none

/-- A value known at compile time, with the kinds of the nodes met in place of literals. -/
structure Constant where
  value : Value
  misplaced : List NodeKind

/-- Reports the nodes met in place of literals. -/
def noteMisplaced : List NodeKind → CompileM Unit
  | [] => pure ()
  | kind :: rest => do
    note (.literalExpected kind)
    noteMisplaced rest

/-- A constant: it is assigned to the context and has no effect without one. -/
def constant (constant : Constant) : Emitter
  | some context => do
    noteMisplaced constant.misplaced
    write context fun _ => .ofValue constant.value
    return []
  | none => pure []

/-! ## Operations -/

/-- The slot that an operation writes: the context, or a new one. -/
def resultSlot : Option SlotId → CompileM SlotId
  | some context => pure context
  | none => freshSlot

/-- An operation on one operand. -/
def unary (kind : UnaryKind) (operand : Emitter) : Emitter := fun context => do
  let op1 ← freshSlot
  let ops ← operand (some op1)
  let result ← resultSlot context
  let line ← emit (.unary kind op1 result)
  return ops ++ [line]

/-- An operation on two operands. -/
def binary (kind : BinaryKind) (left right : Emitter) : Emitter := fun context => do
  let op1 ← freshSlot
  let op2 ← freshSlot
  let ops ← left (some op1)
  let more ← right (some op2)
  let result ← resultSlot context
  let line ← emit (.binary kind op1 op2 result)
  return ops ++ more ++ [line]

/-- An argument: its slot becomes the next element of the context. -/
def argument (value : Emitter) : Emitter := fun context => do
  let slot ← freshSlot
  let ops ← value (some slot)
  match context with
  | some context => write context (.push (.slot slot))
  | none => pure ()
  return ops

/-- Text between the statements, which is echoed. -/
def inlineText (text : Constant) : Emitter := fun _ => do
  noteMisplaced text.misplaced
  let op1 ← newSlot (.ofValue text.value)
  let result ← freshSlot
  let line ← emit (.unary .echoOp op1 result)
  return [line]

/-! ## Functions -/

/-- What a parameter declares beside its default value. -/
structure Declaration where
  name : String
  byRef : Bool
  typeHint : Option String

/-- A parameter: its record becomes the next element of the context. The op-lines of the default value
travel inside the record. -/
def parameter (declaration : Declaration) (default : Emitter) : Emitter := fun context => do
  let slot ← freshSlot
  let ops ← default (some slot)
  match context with
  | some context =>
    let record : ParamRecord :=
      ⟨declaration.name, slot, ops, declaration.byRef, declaration.typeHint⟩
    write context (.push (.param record))
  | none => pure ()
  return []

/-- A function declaration. -/
def function (body name params : Emitter) : Emitter := fun _ => do
  let stmts ← body none
  let nameSlot ← freshSlot
  let ops ← name (some nameSlot)
  let paramsSlot ← newSlot (.ofValue (.array []))
  let more ← params (some paramsSlot)
  let nameCell ← cellOf nameSlot
  let paramsCell ← cellOf paramsSlot
  note (.functionCompiled (← get).heap nameCell.value stmts.length
    paramsCell.value.elements.length)
  let line ← emit (.functionDef nameSlot stmts paramsSlot)
  return ops ++ more ++ [line]

/-! ## Control flow -/

/-- A condition with the statements that it guards. -/
structure Branch where
  cond : Emitter
  stmts : Emitter

/-- A guarded branch: past the guard when the condition fails, and to `exit` behind the statements. -/
def guarded (exit : OpId) (branch : Branch) : CompileM (List OpLine) := do
  let slot ← freshSlot
  let test ← branch.cond (some slot)
  let past ← label
  let guard ← emit (.jumpIfNot slot past.id)
  let stmts ← branch.stmts none
  let leave ← emit (.jumpTo exit)
  return test ++ [guard] ++ stmts ++ [leave, past]

/-- Guarded branches one after another. -/
def guardedAll (exit : OpId) : List Branch → CompileM (List OpLine)
  | [] => pure []
  | branch :: rest => do
    let ops ← guarded exit branch
    let more ← guardedAll exit rest
    return ops ++ more

/-- A conditional: the first branch whose condition holds, or else the statements behind them all. -/
def conditional (branches : List Branch) (otherwise : Emitter) : Emitter := fun _ => do
  let exit ← label
  let ops ← guardedAll exit.id branches
  let more ← otherwise none
  return ops ++ more ++ [exit]

/-- The handle of the first op-line, or another one when there is none. -/
def entry (ops : List OpLine) (fallback : OpId) : OpId :=
  match ops with
  | [] => fallback
  | line :: _ => line.id

/-- A loop that tests before each round. -/
def whileLoop (loop : Branch) : Emitter := fun _ => do
  let slot ← freshSlot
  let test ← loop.cond (some slot)
  let exit ← label
  let guard ← emit (.jumpIfNot slot exit.id)
  let stmts ← loop.stmts none
  let again ← emit (.jumpTo (entry test guard.id))
  return test ++ [guard] ++ stmts ++ [again, exit]

/-- A loop that tests after each round. One without any code jumps onto itself. -/
def doLoop (loop : Branch) : Emitter := fun _ => do
  let slot ← freshSlot
  let stmts ← loop.stmts none
  let test ← loop.cond (some slot)
  let id ← newHandle
  let round := stmts ++ test
  return round ++ [⟨id, .jumpIf slot (entry round id)⟩]

end Emitter

end Lowering
