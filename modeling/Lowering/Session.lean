import Lowering.Code.Snapshot
import Lowering.Compile
import Lowering.Link
import Lowering.Tree.Reader

/-!
# Sessions

A session keeps a heap, a compiler and what has been named so far: slots, of which several names may
mean the same one, and compiled programs. `Session.perform` carries out one step and answers it. A step
that fails leaves the names as they were; handles that a failed compilation has used stay used, and what
it has written stays written.
-/

namespace Lowering

/-- A value in which slots and programs are given by name. -/
inductive Spec where
  | null
  | scalar (s : Scalar)
  | array (items : List Spec)
  | slot (name : String)
  /-- A parameter record; its op-lines are those of a program, if one is named. -/
  | param (name default : String) (program : Option String) (byRef : Bool)
    (typeHint : Option String)

/-- A part of a program: the op-lines from one place up to another, or all from or up to an end. -/
structure Part where
  program : String
  start : Option Nat
  stop : Option Nat

/-- A step of a session. -/
inductive Step where
  | newSlot (name : String) (value : Option Spec)
  | nameAgain (name other : String)
  | assign (name : String) (value : Spec)
  | setValue (name : String) (value : Spec)
  | push (name : String) (value : Spec)
  | setLiteral (name : String) (literal : Scalar)
  | setType (name type : String)
  | rebuildType (name : String)
  | inspect (name : String)
  | elements (name : String)
  | describe (name : String)
  | compare (a b : String)
  | newCompiler
  | compile (program source : String) (context : Option String)
  | splice (program : String) (parts : List Part)
  | link (parts : List Part)
  | snapshot (parts : List Part)

/-- What a step names and the session does not have. -/
inductive Missing where
  | slot
  | program
  deriving DecidableEq

/-- The answer to a step. -/
inductive Answer where
  | done
  | json (value : Json)
  | text (s : String)
  /-- Whether two slots are the same, and whether their values are equal. -/
  | comparison (slots values : Bool)
  | handles (ids : List OpId)
  | image (image : Image)
  | unreadable (error : Json.ReadError)
  | uncompilable (error : CompileError)
  | unlinkable (error : LinkError)
  | unknown (missing : Missing)

/-- The state of a session. -/
structure Session where
  heap : Heap := {}
  issued : Nat := 0
  slots : List (String × SlotId) := []
  programs : List (String × List OpLine) := []

namespace Session

/-- The slot with a name. -/
def slot (session : Session) (name : String) : Except Missing SlotId :=
  match session.slots.lookup name with
  | some slot => .ok slot
  | none => .error .slot

/-- The program with a name. -/
def program (session : Session) (name : String) : Except Missing (List OpLine) :=
  match session.programs.lookup name with
  | some lines => .ok lines
  | none => .error .program

mutual

/-- The value that a specification stands for. -/
def value (session : Session) : Spec → Except Missing Value
  | .null => .ok .null
  | .scalar s => .ok s.toValue
  | .array items => (values session items).map .array
  | .slot name => (session.slot name).map .slot
  | .param name default program byRef typeHint => do
    let slot ← session.slot default
    let ops ← match program with
      | none => .ok []
      | some program => session.program program
    return .param ⟨name, slot, ops, byRef, typeHint⟩

/-- The values that specifications stand for. -/
def values (session : Session) : List Spec → Except Missing (List Value)
  | [] => .ok []
  | spec :: rest => do
    let value ← value session spec
    let values ← values session rest
    return value :: values

end

/-- The op-lines of a part; bounds beyond the end mean the end. -/
def part (session : Session) (part : Part) : Except Missing (List OpLine) := do
  let lines ← session.program part.program
  let stop := min (part.stop.getD lines.length) lines.length
  return (lines.take stop).drop (part.start.getD 0)

/-- The op-lines of parts one after another. -/
def parts (session : Session) : List Part → Except Missing (List OpLine)
  | [] => .ok []
  | first :: rest => do
    let lines ← session.part first
    let more ← session.parts rest
    return lines ++ more

/-- The snapshot of a slot as an answer. -/
def showSlot (session : Session) (slot : SlotId) : Answer :=
  .json (session.heap.snapshot slot)

/-- Changes the cell of a named slot and shows it. -/
def change (session : Session) (name : String) (change : Cell → Cell) :
    Except Missing (Answer × Session) := do
  let slot ← session.slot name
  let session := { session with heap := session.heap.modify slot change }
  return (session.showSlot slot, session)

/-- Changes the cell of a named slot with a value and shows it. -/
def changeBy (session : Session) (name : String) (spec : Spec) (change : Value → Cell → Cell) :
    Except Missing (Answer × Session) := do
  let value ← session.value spec
  session.change name (change value)

/-- Gives a slot a name and shows it. -/
def nameSlot (session : Session) (name : String) (slot : SlotId) : Answer × Session :=
  let session := { session with slots := (name, slot) :: session.slots }
  (session.showSlot slot, session)

/-- Gives op-lines a name and answers their handles. -/
def nameProgram (session : Session) (name : String) (lines : List OpLine) : Answer × Session :=
  let programs := (name, lines) :: session.programs
  (.handles (lines.map OpLine.id), { session with programs := programs })

/-- Answers a question about a named slot. -/
def ask (session : Session) (name : String) (question : SlotId → Answer) :
    Except Missing (Answer × Session) := do
  let slot ← session.slot name
  return (question slot, session)

/-- Answers a question about the op-lines of parts. -/
def askParts (session : Session) (parts : List Part) (question : List OpLine → Answer) :
    Except Missing (Answer × Session) := do
  let lines ← session.parts parts
  return (question lines, session)

/-- The type tag with a name. -/
def tagNamed (name : String) : Except Json.Mismatch TypeTag :=
  match TypeTag.all.find? fun tag => tag.name == name with
  | some tag => .ok tag
  | none => .error (.unknownVariant name (TypeTag.all.map TypeTag.name))

/-- The slot of a context that is given by name, if one is given. -/
def context (session : Session) : Option String → Except Missing (Option SlotId)
  | none => .ok none
  | some name => (session.slot name).map some

/-- Compiles statements into a named program, in the context of a slot if one is given. -/
def compileInto (session : Session) (program : String) (nodes : List Node)
    (context : Option SlotId) : Answer × Session :=
  let (result, state) := (Lowering.compile nodes context).run.run
    { heap := session.heap, issued := session.issued }
  let session := { session with heap := state.heap, issued := state.issued }
  match result with
  | .ok lines => session.nameProgram program lines
  | .error error => (.uncompilable error, session)

/-- The image of op-lines as an answer. -/
def linkLines (session : Session) (lines : List OpLine) : Answer :=
  match Lowering.link session.heap lines with
  | .ok image => .image image
  | .error error => .unlinkable error

/-- Carries out a step, unless it names something that is not there. A text is read before the context
of its compilation is looked up. -/
def perform? (session : Session) : Step → Except Missing (Answer × Session)
  | .newSlot name value => do
    let value ← session.value (value.getD .null)
    let heap := session.heap.add (.ofValue value)
    return { session with heap := heap }.nameSlot name session.heap.next
  | .nameAgain name other => do
    let slot ← session.slot other
    return session.nameSlot name slot
  | .assign name value => session.changeBy name value fun value _ => .ofValue value
  | .setValue name value => session.changeBy name value Cell.setValue
  | .push name value => session.changeBy name value Cell.push
  | .setLiteral name literal => session.change name fun _ => .ofLiteral literal
  | .setType name type =>
    match tagNamed type with
    | .ok tag => session.change name (Cell.setType tag)
    | .error mismatch => .ok (.unreadable (.data mismatch), session)
  | .rebuildType name => session.change name Cell.rebuildType
  | .inspect name => session.ask name session.showSlot
  | .elements name =>
    session.ask name fun slot =>
      .json (.list (session.heap.snapshotValues (session.heap.get slot).value.elements))
  | .describe name => session.ask name fun slot => .text (session.heap.describe slot)
  | .compare a b => do
    let a ← session.slot a
    let b ← session.slot b
    let values := (session.heap.get a).value.same (session.heap.get b).value
    return (.comparison (a == b) values, session)
  | .newCompiler => .ok (.done, { session with issued := 0 })
  | .compile program source context =>
    match statementsOfText source with
    | .error error => .ok (.unreadable error, session)
    | .ok nodes => do
      let slot ← session.context context
      return session.compileInto program nodes slot
  | .splice program parts => do
    let lines ← session.parts parts
    return session.nameProgram program lines
  | .link parts => session.askParts parts session.linkLines
  | .snapshot parts =>
    session.askParts parts fun lines => .json (.list (session.heap.snapshotLines lines))

/-- Carries out a step and answers it. -/
def perform (session : Session) (step : Step) : Answer × Session :=
  match session.perform? step with
  | .ok result => result
  | .error missing => (.unknown missing, session)

/-- Carries out steps one after another. -/
def performAll (session : Session) : List Step → List Answer
  | [] => []
  | step :: rest =>
    let (answer, session) := session.perform step
    answer :: session.performAll rest

end Session

end Lowering
