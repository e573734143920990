import Lowering.Compile

/-!
# Where a compilation ends

A step of the compiler ends with a result or with an error, and in a state either way.
`CompileM.Ends` is the weakest condition on the state before it under which the first or the second
of two predicates holds at the end. Its laws run a step symbolically: each primitive turns into a
change of the state, and each way of building an emitter into the ends of the emitters that it is
built from.
-/

namespace Lowering

/-! ## Changes of the state -/

namespace CompileState

/-- The state with another event in the log. -/
def noted (state : CompileState) (event : Event) : CompileState :=
  { state with log := event :: state.log }

/-- The state with another slot. -/
def added (state : CompileState) (cell : Cell) : CompileState :=
  { state with heap := state.heap.add cell }

/-- The state with the cell of a slot changed. -/
def written (state : CompileState) (slot : SlotId) (change : Cell → Cell) : CompileState :=
  { state with heap := state.heap.modify slot change }

/-- The handle that is handed out next. -/
def handle (state : CompileState) : OpId :=
  ⟨UInt32.ofNat state.issued⟩

/-- The state with another handle handed out. -/
def advanced (state : CompileState) : CompileState :=
  { state with issued := state.issued + 1 }

/-- The state with the nodes that stand in place of literals in the log. -/
def notedMisplaced (state : CompileState) : List NodeKind → CompileState
  | [] => state
  | kind :: rest => (state.noted (.literalExpected kind)).notedMisplaced rest

variable (state : CompileState)

/-- An event does not touch the heap. -/
@[simp] theorem noted_heap (event : Event) : (state.noted event).heap = state.heap := rfl

/-- An event takes no handle. -/
@[simp] theorem noted_issued (event : Event) : (state.noted event).issued = state.issued := rfl

/-- A new slot is added to the heap. -/
@[simp] theorem added_heap (cell : Cell) : (state.added cell).heap = state.heap.add cell := rfl

/-- A new slot takes no handle. -/
@[simp] theorem added_issued (cell : Cell) : (state.added cell).issued = state.issued := rfl

/-- A change of a slot is a change of its cell in the heap. -/
@[simp] theorem written_heap (slot : SlotId) (change : Cell → Cell) :
    (state.written slot change).heap = state.heap.modify slot change := rfl

/-- A change of a slot takes no handle. -/
@[simp] theorem written_issued (slot : SlotId) (change : Cell → Cell) :
    (state.written slot change).issued = state.issued := rfl

/-- A handle is handed out without touching the heap. -/
@[simp] theorem advanced_heap : state.advanced.heap = state.heap := rfl

/-- Handing out a handle takes one. -/
@[simp] theorem advanced_issued : state.advanced.issued = state.issued + 1 := rfl

/-- Reporting misplaced nodes does not touch the heap. -/
@[simp] theorem notedMisplaced_heap (kinds : List NodeKind) :
    (state.notedMisplaced kinds).heap = state.heap := by
  induction kinds generalizing state with
  | nil => rfl
  | cons kind rest ih => exact ih _

/-- Reporting misplaced nodes takes no handle. -/
@[simp] theorem notedMisplaced_issued (kinds : List NodeKind) :
    (state.notedMisplaced kinds).issued = state.issued := by
  induction kinds generalizing state with
  | nil => rfl
  | cons kind rest ih => exact ih _

/-- The slot that an operation writes: its context, or else the next one. -/
def resultOf (state : CompileState) (context : Option SlotId) : SlotId :=
  context.getD state.heap.next

/-- The state in which an operation has the slot that it writes. -/
def withResult (state : CompileState) (context : Option SlotId) : CompileState :=
  match context with
  | some _ => state
  | none => state.added {}

/-- Finding the slot to write takes no handle. -/
@[simp] theorem withResult_issued (context : Option SlotId) :
    (state.withResult context).issued = state.issued := by
  cases context <;> rfl

end CompileState

open CompileState

/-! ## Ends -/

namespace CompileM

variable {α β : Type} {state : CompileState} {failed failed' : CompileError → CompileState → Prop}

/-- A step ends with a result and a state of which `done` holds, or with an error and a state of
which `failed` holds. -/
def Ends (step : CompileM α) (state : CompileState) (done : α → CompileState → Prop)
    (failed : CompileError → CompileState → Prop) : Prop :=
  match step.run.run state with
  | (.ok a, state') => done a state'
  | (.error e, state') => failed e state'

variable {done done' : α → CompileState → Prop}

/-- What holds of all ends may be weakened. -/
theorem Ends.mono {step : CompileM α} (h : Ends step state done failed)
    (hdone : ∀ a state', done a state' → done' a state')
    (hfailed : ∀ e state', failed e state' → failed' e state') :
    Ends step state done' failed' := by
  unfold Ends at h ⊢
  rcases hrun : step.run.run state with ⟨e | a, state'⟩
  · rw [hrun] at h
    exact hfailed e state' h
  · rw [hrun] at h
    exact hdone a state' h

/-- Of one step, two conditions hold together. -/
theorem Ends.and {step : CompileM α} (h : Ends step state done failed)
    (h' : Ends step state done' failed') :
    Ends step state (fun a state' => done a state' ∧ done' a state')
      fun e state' => failed e state' ∧ failed' e state' := by
  unfold Ends at h h' ⊢
  rcases hrun : step.run.run state with ⟨e | a, state'⟩ <;> simp only [hrun] at h h' ⊢
  · exact ⟨h, h'⟩
  · exact ⟨h, h'⟩

/-- What holds at the end holds of the result of a run. -/
theorem Ends.of_run_ok {step : CompileM α} {state' : CompileState} {a : α}
    (h : Ends step state done failed) (hrun : step.run.run state = (.ok a, state')) :
    done a state' := by
  unfold Ends at h
  rwa [hrun] at h

/-- What holds at the end holds of the error of a run. -/
theorem Ends.of_run_error {step : CompileM α} {state' : CompileState} {e : CompileError}
    (h : Ends step state done failed) (hrun : step.run.run state = (.error e, state')) :
    failed e state' := by
  unfold Ends at h
  rwa [hrun] at h

/-- A step ends where its run does. -/
theorem ends_run (step : CompileM α) (state : CompileState) :
    Ends step state (fun a state' => step.run.run state = (.ok a, state'))
      fun e state' => step.run.run state = (.error e, state') := by
  unfold Ends
  rcases step.run.run state with ⟨e | a, state'⟩ <;> rfl

/-- A step that cannot fail ends with a result. -/
theorem Ends.exists_run {step : CompileM α} (h : Ends step state done fun _ _ => False) :
    ∃ a state', step.run.run state = (.ok a, state') ∧ done a state' := by
  unfold Ends at h
  rcases hrun : step.run.run state with ⟨e | a, state'⟩
  · rw [hrun] at h
    exact h.elim
  · rw [hrun] at h
    exact ⟨a, state', rfl, h⟩

/-- A step that only returns something ends in the state that it starts in. -/
@[simp] theorem ends_pure (a : α) : Ends (pure a) state done failed ↔ done a state :=
  Iff.rfl

/-- One step and then another end where the second ends after the first, or where the first fails.
-/
@[simp] theorem ends_bind (step : CompileM α) (next : α → CompileM β)
    {done : β → CompileState → Prop} :
    Ends (step >>= next) state done failed ↔
      Ends step state (fun a state' => Ends (next a) state' done failed) failed := by
  unfold Ends
  rw [ExceptT.run_bind, StateT.run_bind]
  rcases hrun : step.run.run state with ⟨e | a, state'⟩ <;> rfl

/-- A function of the result changes nothing about the state. -/
@[simp] theorem ends_map (f : α → β) (step : CompileM α) {done : β → CompileState → Prop} :
    Ends (f <$> step) state done failed ↔
      Ends step state (fun a state' => done (f a) state') failed := by
  unfold Ends
  rw [ExceptT.run_map, StateT.run_map]
  rcases hrun : step.run.run state with ⟨e | a, state'⟩ <;> rfl

/-- A step that throws fails in the state that it starts in. -/
@[simp] theorem ends_throw (e : CompileError) :
    Ends (throw e : CompileM α) state done failed ↔ failed e state :=
  Iff.rfl

/-- Reporting an event ends with the event in the log. -/
@[simp] theorem ends_note (event : Event) {done : Unit → CompileState → Prop} :
    Ends (note event) state done failed ↔ done () (state.noted event) :=
  Iff.rfl

/-- A new slot is the next one of the heap. -/
@[simp] theorem ends_newSlot (cell : Cell) {done : SlotId → CompileState → Prop} :
    Ends (newSlot cell) state done failed ↔ done state.heap.next (state.added cell) :=
  Iff.rfl

/-- A fresh slot is the next one of the heap and is empty. -/
@[simp] theorem ends_freshSlot {done : SlotId → CompileState → Prop} :
    Ends freshSlot state done failed ↔ done state.heap.next (state.added {}) :=
  Iff.rfl

/-- Writing to a slot ends with its cell changed. -/
@[simp] theorem ends_write (slot : SlotId) (change : Cell → Cell)
    {done : Unit → CompileState → Prop} :
    Ends (write slot change) state done failed ↔ done () (state.written slot change) :=
  Iff.rfl

/-- The state may be looked at without changing it. -/
@[simp] theorem ends_get {done : CompileState → CompileState → Prop} :
    Ends get state done failed ↔ done state state :=
  Iff.rfl

/-- A cell may be looked at without changing the state. -/
@[simp] theorem ends_cellOf (slot : SlotId) {done : Cell → CompileState → Prop} :
    Ends (cellOf slot) state done failed ↔ done (state.heap.get slot) state :=
  Iff.rfl

/-- A new handle is the one that comes next. -/
@[simp] theorem ends_newHandle {done : OpId → CompileState → Prop} :
    Ends newHandle state done failed ↔ done state.handle state.advanced :=
  Iff.rfl

/-- An op-line is emitted under the next handle. -/
@[simp] theorem ends_emit (op : Op) {done : OpLine → CompileState → Prop} :
    Ends (emit op) state done failed ↔ done ⟨state.handle, op⟩ state.advanced :=
  Iff.rfl

/-- A label is an op-line without effect under the next handle. -/
@[simp] theorem ends_label {done : OpLine → CompileState → Prop} :
    Ends label state done failed ↔ done ⟨state.handle, .noOp⟩ state.advanced :=
  Iff.rfl

end CompileM

/-! ## Emitters -/

namespace Emitter

open CompileM

variable {context : Option SlotId} {state : CompileState}
  {done : List OpLine → CompileState → Prop} {failed : CompileError → CompileState → Prop}

/-- No code leaves the state as it is. -/
theorem ends_skip : Ends (skip context) state done failed ↔ done [] state :=
  Iff.rfl

/-- One piece and then another in the same context return the op-lines of both, in order. -/
theorem ends_append (first second : Emitter) :
    Ends (append first second context) state done failed ↔
      Ends (first context) state (fun ops state =>
        Ends (second context) state (fun more state => done (ops ++ more) state) failed)
        failed := by
  simp [append]

/-- An event in front is in the log when the code behind it starts. -/
theorem ends_noting (event : Event) (emitter : Emitter) :
    Ends (noting event emitter context) state done failed ↔
      Ends (emitter context) (state.noted event) done failed := by
  simp [noting]

/-- A node that cannot be compiled fails with its tag and leaves the state as it is. -/
theorem ends_unsupported (kind : NodeKind) :
    Ends (unsupported kind context) state done failed ↔ failed (.unsupported kind.tag) state :=
  Iff.rfl

/-- A literal without effect is reported and has no code. -/
theorem ends_dropped (literal : Scalar) :
    Ends (dropped literal context) state done failed ↔
      done [] (state.noted (.literalDropped literal)) := by
  simp [dropped]

/-- A literal in a context takes the place of what the slot held. -/
theorem ends_folded_some (literal : Scalar) (slot : SlotId) :
    Ends (folded literal (some slot)) state done failed ↔
      done [] (state.written slot fun _ => .ofLiteral literal) := by
  simp [folded]

/-- A literal that is folded without a context is reported as dropped. -/
theorem ends_folded_none (literal : Scalar) :
    Ends (folded literal none) state done failed ↔
      done [] (state.noted (.literalDropped literal)) := by
  simp [folded, dropped]

/-- All kinds of misplaced nodes are reported, in order. -/
@[simp] theorem ends_noteMisplaced (kinds : List NodeKind) {done : Unit → CompileState → Prop} :
    Ends (noteMisplaced kinds) state done failed ↔ done () (state.notedMisplaced kinds) := by
  induction kinds generalizing state with
  | nil => exact Iff.rfl
  | cons kind rest ih => simp [noteMisplaced, notedMisplaced, ih]

/-- A constant in a context reports its misplaced nodes and takes the place of what the slot held.
-/
theorem ends_constant_some (literal : Constant) (slot : SlotId) :
    Ends (constant literal (some slot)) state done failed ↔
      done [] ((state.notedMisplaced literal.misplaced).written slot
        fun _ => .ofValue literal.value) := by
  simp [constant]

/-- A constant without a context has no effect, and its misplaced nodes go unreported. -/
theorem ends_constant_none (literal : Constant) :
    Ends (constant literal none) state done failed ↔ done [] state := by
  simp [constant]

/-- The slot to write is the context, or else the next one of the heap. -/
@[simp] theorem ends_resultSlot (context : Option SlotId) {done : SlotId → CompileState → Prop} :
    Ends (resultSlot context) state done failed ↔
      done (state.resultOf context) (state.withResult context) := by
  cases context <;> exact Iff.rfl

/-- An operation on one operand compiles it in a new slot and reads that slot last. -/
theorem ends_unary (kind : UnaryKind) (operand : Emitter) :
    Ends (unary kind operand context) state done failed ↔
      Ends (operand (some state.heap.next)) (state.added {}) (fun ops state' =>
        done (ops ++ [⟨state'.handle, .unary kind state.heap.next (state'.resultOf context)⟩])
          (state'.withResult context).advanced) failed := by
  simp [unary, handle]

/-- An operation on two operands adds both slots first, compiles each operand in its own, and reads
them last. -/
theorem ends_binary (kind : BinaryKind) (left right : Emitter) :
    Ends (binary kind left right context) state done failed ↔
      Ends (left (some state.heap.next)) ((state.added {}).added {}) (fun ops state' =>
        Ends (right (some (state.added {}).heap.next)) state' (fun more state'' =>
          done (ops ++ more ++ [⟨state''.handle, .binary kind state.heap.next
              (state.added {}).heap.next (state''.resultOf context)⟩])
            (state''.withResult context).advanced) failed) failed := by
  simp [binary, handle]

/-- An argument is compiled in a new slot, which becomes the next element of the context. -/
theorem ends_argument (value : Emitter) :
    Ends (argument value context) state done failed ↔
      Ends (value (some state.heap.next)) (state.added {}) (fun ops state' =>
        done ops (match context with
          | some context => state'.written context (.push (.slot state.heap.next))
          | none => state')) failed := by
  cases context <;> simp [argument]

/-- Text between the statements goes to a new slot and is echoed from there. -/
theorem ends_inlineText (text : Constant) :
    Ends (inlineText text context) state done failed ↔
      done [⟨state.handle, .unary .echoOp state.heap.next
          (state.added (.ofValue text.value)).heap.next⟩]
        (((state.notedMisplaced text.misplaced).added (.ofValue text.value)).added
          {}).advanced := by
  simp [inlineText, handle]

/-- A parameter compiles its default value in a new slot and hands a record with the op-lines to the
context. -/
theorem ends_parameter (declaration : Declaration) (default : Emitter) :
    Ends (parameter declaration default context) state done failed ↔
      Ends (default (some state.heap.next)) (state.added {}) (fun ops state' =>
        done [] (match context with
          | some context => state'.written context (.push (.param ⟨declaration.name,
              state.heap.next, ops, declaration.byRef, declaration.typeHint⟩))
          | none => state')) failed := by
  cases context <;> simp [parameter]

/-- A function compiles its body, its name and its parameters in this order and then declares
itself. -/
theorem ends_function (body name params : Emitter) :
    Ends (function body name params context) state done failed ↔
      Ends (body none) state (fun stmts state₁ =>
        Ends (name (some state₁.heap.next)) (state₁.added {}) (fun ops state₂ =>
          Ends (params (some state₂.heap.next)) (state₂.added (.ofValue (.array [])))
            (fun more state₃ =>
              done (ops ++ more ++ [⟨state₃.handle, .functionDef state₁.heap.next stmts
                  state₂.heap.next⟩])
                (state₃.noted (.functionCompiled state₃.heap
                  (state₃.heap.get state₁.heap.next).value stmts.length
                  (state₃.heap.get state₂.heap.next).value.elements.length)).advanced)
            failed) failed) failed := by
  simp [function, handle]

/-- A guarded branch tests, jumps past its statements if the test fails, and leaves for the exit
behind them. -/
theorem ends_guarded (exit : OpId) (branch : Branch) :
    Ends (guarded exit branch) state done failed ↔
      Ends (branch.cond (some state.heap.next)) (state.added {}) (fun test state₁ =>
        Ends (branch.stmts none) state₁.advanced.advanced (fun stmts state₂ =>
          done (test ++ [⟨state₁.advanced.handle, .jumpIfNot state.heap.next state₁.handle⟩] ++
              stmts ++ [⟨state₂.handle, .jumpTo exit⟩, ⟨state₁.handle, .noOp⟩])
            state₂.advanced) failed) failed := by
  simp [guarded]

/-- Guarded branches are compiled one after another. -/
theorem ends_guardedAll_cons (exit : OpId) (branch : Branch) (rest : List Branch) :
    Ends (guardedAll exit (branch :: rest)) state done failed ↔
      Ends (guarded exit branch) state (fun ops state =>
        Ends (guardedAll exit rest) state (fun more state => done (ops ++ more) state) failed)
        failed := by
  simp [guardedAll]

/-- A conditional compiles its branches and then the statements behind them, with its exit at the
end. -/
theorem ends_conditional (branches : List Branch) (otherwise : Emitter) :
    Ends (conditional branches otherwise context) state done failed ↔
      Ends (guardedAll state.handle branches) state.advanced (fun ops state₁ =>
        Ends (otherwise none) state₁ (fun more state₂ =>
          done (ops ++ more ++ [⟨state.handle, .noOp⟩]) state₂) failed) failed := by
  simp [conditional]

/-- A loop that tests first jumps from behind its statements back to the test. -/
theorem ends_whileLoop (loop : Branch) :
    Ends (whileLoop loop context) state done failed ↔
      Ends (loop.cond (some state.heap.next)) (state.added {}) (fun test state₁ =>
        Ends (loop.stmts none) state₁.advanced.advanced (fun stmts state₂ =>
          done (test ++ [⟨state₁.advanced.handle, .jumpIfNot state.heap.next state₁.handle⟩] ++
              stmts ++ [⟨state₂.handle, .jumpTo (entry test state₁.advanced.handle)⟩,
                ⟨state₁.handle, .noOp⟩])
            state₂.advanced) failed) failed := by
  simp [whileLoop]

/-- The code of a branch and of a loop that tests first: the two differ in where the jump behind the
statements goes, which may depend on the test and on the guard. -/
def guardedTo (target : List OpLine → OpLine → OpId) (branch : Branch) :
    CompileM (List OpLine) := do
  let slot ← freshSlot
  let test ← branch.cond (some slot)
  let past ← label
  let guard ← emit (.jumpIfNot slot past.id)
  let stmts ← branch.stmts none
  let leave ← emit (.jumpTo (target test guard))
  return test ++ [guard] ++ stmts ++ [leave, past]

/-- The branch of a conditional leaves for the same exit whatever its test is. -/
theorem guarded_eq_guardedTo (exit : OpId) (branch : Branch) :
    guarded exit branch = guardedTo (fun _ _ => exit) branch :=
  rfl

/-- A loop that tests first leaves for its own test. -/
theorem whileLoop_eq_guardedTo (loop : Branch) :
    whileLoop loop = fun _ => guardedTo (fun test guard => entry test guard.id) loop :=
  rfl

/-- A guarded branch tests, jumps past its statements if the test fails, and leaves for a target
behind them. -/
theorem ends_guardedTo (target : List OpLine → OpLine → OpId) (branch : Branch) :
    Ends (guardedTo target branch) state done failed ↔
      Ends (branch.cond (some state.heap.next)) (state.added {}) (fun test state₁ =>
        Ends (branch.stmts none) state₁.advanced.advanced (fun stmts state₂ =>
          done (test ++ [⟨state₁.advanced.handle, .jumpIfNot state.heap.next state₁.handle⟩] ++
              stmts ++ [⟨state₂.handle, .jumpTo (target test
                ⟨state₁.advanced.handle, .jumpIfNot state.heap.next state₁.handle⟩)⟩,
                ⟨state₁.handle, .noOp⟩])
            state₂.advanced) failed) failed := by
  simp [guardedTo]

/-- What holds of no code, of code behind other code and of each of some guarded branches holds of
all of them one after another. -/
theorem guardedAll_induction (p : Emitter → Prop) (hskip : p skip)
    (happend : ∀ {first second : Emitter}, p first → p second → p (append first second))
    (exit : OpId) {branches : List Branch}
    (hguarded : ∀ branch ∈ branches, p fun _ => guarded exit branch) :
    p fun _ => guardedAll exit branches := by
  induction branches with
  | nil => exact hskip
  | cons branch rest ih =>
    exact happend (hguarded branch List.mem_cons_self)
      (ih fun other hother => hguarded other (List.mem_cons_of_mem branch hother))

/-- A loop that tests last jumps back to its first op-line, which is the jump itself if it has no
other. -/
theorem ends_doLoop (loop : Branch) :
    Ends (doLoop loop context) state done failed ↔
      Ends (loop.stmts none) (state.added {}) (fun stmts state₁ =>
        Ends (loop.cond (some state.heap.next)) state₁ (fun test state₂ =>
          done (stmts ++ test ++ [⟨state₂.handle, .jumpIf state.heap.next
              (entry (stmts ++ test) state₂.handle)⟩])
            state₂.advanced) failed) failed := by
  simp [doLoop]

end Emitter

end Lowering
