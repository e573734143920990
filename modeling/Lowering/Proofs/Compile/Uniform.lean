import Lowering.Proofs.Compile.Built
import Lowering.Proofs.Compile.Ends
import Lowering.Proofs.Compile.Closed
import Lowering.Proofs.Link.Renaming

/-!
# Two runs of a compiler

A compiler looks at no handle and at no slot that it has not been given: it takes the next handle
and the next slot, whatever they are. `Renaming.Relates` says of two states that the second has a
renamed copy of the first and will go on in step with it, and `CompileM.Alike` is the weakest
condition under which two steps end alike. It has one law for sequencing and one for each primitive,
and every emitter is put together from these (`Built.uniform`): from related states, and in related
contexts, the two runs of an emitter fail with the same error, or return op-lines that differ in
names only and leave related states.
-/

namespace Lowering

open CompileM

/-! ## Runs side by side -/

namespace CompileM

variable {α β α' β' : Type} {state state' : CompileState}

/-- Two steps end alike: with results and states of which `done` holds, or with the same error. -/
def Alike (step : CompileM α) (step' : CompileM α') (state state' : CompileState)
    (done : α → α' → CompileState → CompileState → Prop) : Prop :=
  match step.run.run state, step'.run.run state' with
  | (.ok a, after), (.ok a', after') => done a a' after after'
  | (.error e, _), (.error e', _) => e' = e
  | _, _ => False

variable {done : α → α' → CompileState → CompileState → Prop}
  {done' : β → β' → CompileState → CompileState → Prop}

/-- Steps that only return something end alike if the results and the states do. -/
theorem Alike.pure {a : α} {a' : α'} (h : done a a' state state') :
    Alike (Pure.pure a) (Pure.pure a') state state' done :=
  h

/-- One step and then another end alike if the first steps do and the second do behind them. -/
theorem Alike.bind {step : CompileM α} {step' : CompileM α'} {next : α → CompileM β}
    {next' : α' → CompileM β'} (h : Alike step step' state state' done)
    (hnext : ∀ a a' after after', done a a' after after' →
      Alike (next a) (next' a') after after' done') :
    Alike (step >>= next) (step' >>= next') state state' done' := by
  unfold Alike at h ⊢
  rw [ExceptT.run_bind, StateT.run_bind, ExceptT.run_bind, StateT.run_bind]
  -- Either both first steps return or both fail, so that the next steps run in both or in neither.
  rcases hrun : step.run.run state with ⟨e | a, after⟩ <;>
    rcases hrun' : step'.run.run state' with ⟨e' | a', after'⟩ <;> rw [hrun, hrun'] at h
  · exact h
  · exact h.elim
  · exact h.elim
  · exact hnext a a' after after' h

/-- What the second of two steps that end alike returns where the first returns something. -/
theorem Alike.of_run_ok {step : CompileM α} {step' : CompileM α'} {a : α} {after : CompileState}
    (h : Alike step step' state state' done) (hrun : step.run.run state = (.ok a, after)) :
    ∃ a' after', step'.run.run state' = (.ok a', after') ∧ done a a' after after' := by
  unfold Alike at h
  rcases hrun' : step'.run.run state' with ⟨e' | a', after'⟩ <;> rw [hrun, hrun'] at h
  · exact h.elim
  · exact ⟨a', after', rfl, h⟩

/-- The second of two steps that end alike fails where the first does. -/
theorem Alike.of_run_error {step : CompileM α} {step' : CompileM α'} {e : CompileError}
    {after : CompileState} (h : Alike step step' state state' done)
    (hrun : step.run.run state = (.error e, after)) :
    ∃ after', step'.run.run state' = (.error e, after') := by
  unfold Alike at h
  rcases hrun' : step'.run.run state' with ⟨e' | a', after'⟩ <;> rw [hrun, hrun'] at h
  · exact ⟨after', by rw [show e' = e from h]⟩
  · exact h.elim

end CompileM

/-! ## Cells under new names -/

section

variable {names : Renaming}

/-- Op-lines are renamed one by one, so in two parts as well. -/
@[simp] theorem renamedLines_append (lines more : List OpLine) :
    renamedLines names (lines ++ more) = renamedLines names lines ++ renamedLines names more := by
  simp [renamedLines_eq_map]

/-- No op-lines are renamed to none. -/
@[simp] theorem renamedLines_nil : renamedLines names [] = [] := rfl

/-- Op-lines are renamed one by one. -/
@[simp] theorem renamedLines_cons (line : OpLine) (rest : List OpLine) :
    renamedLines names (line :: rest) = line.renamed names :: renamedLines names rest := by
  simp [renamedLines_eq_map]

/-- Values are renamed one by one. -/
theorem renamedValues_eq_map (values : List Value) :
    renamedValues names values = values.map (Value.renamed names) := by
  induction values with
  | nil => rfl
  | cons value rest ih => rw [renamedValues, ih, List.map_cons]

mutual

/-- A literal names nothing, so it stays as it is. -/
theorem Value.renamed_of_isLiteral : ∀ value : Value, value.IsLiteral →
    value.renamed names = value
  | .null, _ | .bool _, _ | .long _, _ | .double _, _ | .string _, _ => by rw [Value.renamed]
  | .array items, h => by
    rw [Value.IsLiteral] at h
    rw [Value.renamed, renamedValues_of_allLiteral items h]
  | .slot _, h | .param _, h => by simp [Value.IsLiteral] at h

/-- Literals name nothing, so they stay as they are. -/
theorem renamedValues_of_allLiteral : ∀ values : List Value, AllLiteral values →
    renamedValues names values = values
  | [], _ => by rw [renamedValues]
  | value :: rest, h => by
    rw [AllLiteral] at h
    rw [renamedValues, Value.renamed_of_isLiteral value h.1, renamedValues_of_allLiteral rest h.2]

end

/-- The elements of a value are renamed with it. -/
theorem Value.elements_renamed (value : Value) :
    (value.renamed names).elements = renamedValues names value.elements := by
  cases value <;> rfl

/-- An empty cell has nothing to rename. -/
theorem Cell.renamed_empty : Cell.renamed names {} = {} := rfl

/-- A value of literals has nothing to rename. -/
theorem Cell.renamed_ofValue {value : Value} (h : value.IsLiteral) :
    (Cell.ofValue value).renamed names = Cell.ofValue value := by
  unfold Cell.ofValue Cell.renamed
  rw [Value.renamed_of_isLiteral value h]

/-- A literal has nothing to rename. -/
theorem Cell.renamed_ofLiteral (literal : Scalar) :
    (Cell.ofLiteral literal).renamed names = Cell.ofLiteral literal := by
  unfold Cell.ofLiteral Cell.renamed
  rw [Value.renamed_of_isLiteral _ literal.toValue_isLiteral]

/-- An element that is appended is renamed with the cell. -/
theorem Cell.renamed_push (element : Value) (cell : Cell) :
    (cell.push element).renamed names = (cell.renamed names).push (element.renamed names) := by
  unfold Cell.push Cell.renamed
  rw [Value.elements_renamed, Value.renamed, renamedValues_eq_map, renamedValues_eq_map,
    List.map_append]
  rfl

end

/-! ## Related states -/

/-- The second state has a copy of the cells of the first under new names, and the slots and handles
that come next in it are the new names of those that come next in the first. It may have handed out
more handles. -/
structure Renaming.Relates (names : Renaming) (state state' : CompileState) : Prop where
  injective : Function.Injective names.slot
  old : ∀ slot : SlotId, slot.index < state.heap.size → (names.slot slot).index < state'.heap.size
  next : ∀ k, names.slot ⟨state.heap.size + k⟩ = ⟨state'.heap.size + k⟩
  issued_le : state.issued ≤ state'.issued
  handles : ∀ k, names.handle (.ofNat (state.issued + k)) = .ofNat (state'.issued + k)
  cells : ∀ slot, state'.heap.get (names.slot slot) = (state.heap.get slot).renamed names

namespace Renaming.Relates

variable {names : Renaming} {state state' : CompileState}

/-- The slot that comes next is renamed to the one that comes next. -/
theorem slot_next (h : names.Relates state state') :
    names.slot state.heap.next = state'.heap.next :=
  h.next 0

/-- The handle that comes next is renamed to the one that comes next. -/
theorem handle_handle (h : names.Relates state state') :
    names.handle state.handle = state'.handle :=
  h.handles 0

/-- A slot is there exactly when its new name is. -/
theorem lt_size_iff (h : names.Relates state state') (slot : SlotId) :
    (names.slot slot).index < state'.heap.size ↔ slot.index < state.heap.size := by
  refine ⟨fun hlt => ?_, h.old slot⟩
  by_contra hge
  -- A slot that is not there is one of those to come, and so is its new name.
  obtain ⟨k, hk⟩ := Nat.exists_eq_add_of_le (Nat.le_of_not_lt hge)
  have hslot : slot = ⟨state.heap.size + k⟩ := by
    cases slot
    simpa using hk
  rw [hslot, h.next k] at hlt
  have hindex : state'.heap.size + k < state'.heap.size := hlt
  omega

/-- Events may differ between related states. -/
theorem noted (h : names.Relates state state') (event event' : Event) :
    names.Relates (state.noted event) (state'.noted event') :=
  ⟨h.injective, h.old, h.next, h.issued_le, h.handles, h.cells⟩

/-- Related states hand out related handles. -/
theorem advanced (h : names.Relates state state') :
    names.Relates state.advanced state'.advanced := by
  refine ⟨h.injective, h.old, h.next, Nat.succ_le_succ h.issued_le, fun k => ?_, h.cells⟩
  have hnext := h.handles (k + 1)
  rw [CompileState.advanced_issued, CompileState.advanced_issued]
  rwa [show state.issued + 1 + k = state.issued + (k + 1) by omega,
    show state'.issued + 1 + k = state'.issued + (k + 1) by omega]

/-- A slot with a cell and one with the renamed cell keep states related. -/
theorem added (h : names.Relates state state') (cell : Cell) :
    names.Relates (state.added cell) (state'.added (cell.renamed names)) := by
  refine ⟨h.injective, fun slot hlt => ?_, fun k => ?_, h.issued_le, h.handles, fun slot => ?_⟩
  · rw [CompileState.added_heap, Heap.size_add] at hlt ⊢
    by_cases hold : slot.index < state.heap.size
    · have hold' := h.old slot hold
      omega
    · -- The slot is the one that was added.
      have hslot : slot = ⟨state.heap.size + 0⟩ := by
        cases slot
        simp only [SlotId.mk.injEq] at hlt hold ⊢
        omega
      rw [hslot, h.next 0]
      exact Nat.lt_succ_self _
  · have hnext := h.next (k + 1)
    rw [CompileState.added_heap, CompileState.added_heap, Heap.size_add, Heap.size_add]
    rwa [show state.heap.size + 1 + k = state.heap.size + (k + 1) by omega,
      show state'.heap.size + 1 + k = state'.heap.size + (k + 1) by omega]
  · rw [CompileState.added_heap, CompileState.added_heap, Heap.get_add, Heap.get_add,
      ← h.slot_next]
    by_cases hslot : slot = state.heap.next
    · rw [if_pos hslot, if_pos (congrArg names.slot hslot)]
    · rw [if_neg hslot, if_neg fun heq => hslot (h.injective heq)]
      exact h.cells slot

/-- Changes that agree up to the renaming keep states related. -/
theorem written (h : names.Relates state state') (target : SlotId) {change change' : Cell → Cell}
    (hchange : ∀ cell, (change cell).renamed names = change' (cell.renamed names)) :
    names.Relates (state.written target change) (state'.written (names.slot target) change') := by
  refine ⟨h.injective, fun slot hlt => ?_, fun k => ?_, h.issued_le, h.handles, fun slot => ?_⟩
  · rw [CompileState.written_heap, Heap.size_modify] at hlt ⊢
    exact h.old slot hlt
  · rw [CompileState.written_heap, CompileState.written_heap, Heap.size_modify, Heap.size_modify]
    exact h.next k
  · -- The slot that is written has its new name written, and no other slot has the same new name.
    rw [CompileState.written_heap, CompileState.written_heap, Heap.get_modify, Heap.get_modify]
    simp only [h.lt_size_iff target, h.injective.eq_iff]
    split
    · rw [h.cells slot, hchange]
    · exact h.cells slot

end Renaming.Relates

/-! ## Primitives -/

/-- A renaming carries one step over to another: the two end alike, in related states, and the
second returns the renamed result of the first. -/
def Renaming.Carries {α : Type} (names : Renaming) (rename : α → α) (step step' : CompileM α)
    (state state' : CompileState) : Prop :=
  Alike step step' state state' fun a a' after after' => a' = rename a ∧ names.Relates after after'

namespace Renaming.Relates

variable {names : Renaming} {state state' : CompileState}

/-- Reporting is carried over, whatever the event. -/
theorem note (h : names.Relates state state') (event event' : Event) :
    names.Carries id (note event) (note event') state state' :=
  ⟨rfl, h.noted event event'⟩

/-- Adding a slot is carried over to adding one with the renamed cell. -/
theorem newSlot (h : names.Relates state state') (cell : Cell) :
    names.Carries names.slot (newSlot cell) (newSlot (cell.renamed names)) state state' :=
  ⟨h.slot_next.symm, h.added cell⟩

/-- Adding an empty slot is carried over. -/
theorem freshSlot (h : names.Relates state state') :
    names.Carries names.slot freshSlot freshSlot state state' :=
  h.newSlot {}

/-- Changing a slot is carried over to changing the renamed one. -/
theorem write (h : names.Relates state state') (target : SlotId) {change change' : Cell → Cell}
    (hchange : ∀ cell, (change cell).renamed names = change' (cell.renamed names)) :
    names.Carries id (write target change) (write (names.slot target) change') state state' :=
  ⟨rfl, h.written target hchange⟩

/-- Looking at a cell is carried over: the renamed slot has the renamed cell. -/
theorem cellOf (h : names.Relates state state') (slot : SlotId) :
    names.Carries (Cell.renamed names) (cellOf slot) (cellOf (names.slot slot)) state state' :=
  ⟨h.cells slot, h⟩

/-- Handing out a handle is carried over to handing out the renamed one. -/
theorem newHandle (h : names.Relates state state') :
    names.Carries names.handle newHandle newHandle state state' :=
  ⟨h.handle_handle.symm, h.advanced⟩

/-- Emitting an op-line is carried over to emitting the renamed one. -/
theorem emit (h : names.Relates state state') (op : Op) :
    names.Carries (OpLine.renamed names) (emit op) (emit (op.renamed names)) state state' := by
  refine h.newHandle.bind ?_
  rintro id _ after after' ⟨rfl, hafter⟩
  exact .pure ⟨rfl, hafter⟩

/-- Making a label is carried over. -/
theorem label (h : names.Relates state state') :
    names.Carries (OpLine.renamed names) label label state state' :=
  h.emit .noOp

/-- Reporting misplaced nodes is carried over. -/
theorem noteMisplaced (h : names.Relates state state') (kinds : List NodeKind) :
    names.Carries id (Emitter.noteMisplaced kinds) (Emitter.noteMisplaced kinds) state state' := by
  induction kinds generalizing state state' with
  | nil => exact .pure ⟨rfl, h⟩
  | cons kind rest ih =>
    refine (h.note (.literalExpected kind) (.literalExpected kind)).bind ?_
    rintro _ _ after after' ⟨-, hafter⟩
    exact ih hafter

/-- Finding the slot to write is carried over to finding the renamed one. -/
theorem resultSlot (h : names.Relates state state') (context : Option SlotId) :
    names.Carries names.slot (Emitter.resultSlot context)
      (Emitter.resultSlot (context.map names.slot)) state state' := by
  cases context with
  | none => exact h.freshSlot
  | some slot => exact .pure ⟨rfl, h⟩

end Renaming.Relates

/-! ## Emitters -/

/-- An emitter makes the same of related states: the renaming carries one run over to the other. -/
def Emitter.Uniform (emitter : Emitter) : Prop :=
  ∀ (names : Renaming) (context : Option SlotId) (state state' : CompileState),
    names.Relates state state' →
    names.Carries (renamedLines names) (emitter context) (emitter (context.map names.slot)) state
      state'

namespace Emitter

/-- No code is the same in related states. -/
theorem uniform_skip : skip.Uniform :=
  fun _ _ _ _ h => .pure ⟨rfl, h⟩

/-- One piece and then another are uniform if each of them is. -/
theorem uniform_append {first second : Emitter} (hfirst : first.Uniform)
    (hsecond : second.Uniform) : (append first second).Uniform := by
  intro names context state state' h
  refine (hfirst names context _ _ h).bind ?_
  rintro ops _ state₁ state₁' ⟨rfl, h₁⟩
  refine (hsecond names context _ _ h₁).bind ?_
  rintro more _ state₂ state₂' ⟨rfl, h₂⟩
  exact .pure ⟨by simp, h₂⟩

/-- An event in front does not change what is uniform. -/
theorem uniform_noting {emitter : Emitter} (event : Event) (hemitter : emitter.Uniform) :
    (noting event emitter).Uniform := by
  intro names context state state' h
  refine (h.note event event).bind ?_
  rintro _ _ state₁ state₁' ⟨-, h₁⟩
  exact hemitter names context _ _ h₁

/-- A node that cannot be compiled fails alike in related states. -/
theorem uniform_unsupported (kind : NodeKind) : (unsupported kind).Uniform :=
  fun _ _ _ _ _ => rfl

/-- A literal without effect is only reported. -/
theorem uniform_dropped (literal : Scalar) : (dropped literal).Uniform := by
  intro names context state state' h
  refine (h.note (.literalDropped literal) (.literalDropped literal)).bind ?_
  rintro _ _ state₁ state₁' ⟨-, h₁⟩
  exact .pure ⟨rfl, h₁⟩

/-- A literal is written alike into related contexts. -/
theorem uniform_folded (literal : Scalar) : (folded literal).Uniform := by
  intro names context state state' h
  cases context with
  | none => exact uniform_dropped literal names none _ _ h
  | some slot =>
    refine (h.write slot fun _ => Cell.renamed_ofLiteral literal).bind ?_
    rintro _ _ state₁ state₁' ⟨-, h₁⟩
    exact .pure ⟨rfl, h₁⟩

/-- A constant is written alike into related contexts. -/
theorem uniform_constant {literal : Constant} (hliteral : literal.value.IsLiteral) :
    (constant literal).Uniform := by
  intro names context state state' h
  cases context with
  | none => exact .pure ⟨rfl, h⟩
  | some slot =>
    refine (h.noteMisplaced literal.misplaced).bind ?_
    rintro _ _ state₁ state₁' ⟨-, h₁⟩
    refine (h₁.write slot fun _ => Cell.renamed_ofValue hliteral).bind ?_
    rintro _ _ state₂ state₂' ⟨-, h₂⟩
    exact .pure ⟨rfl, h₂⟩

/-- An operation on one operand is uniform if its operand is. -/
theorem uniform_unary {operand : Emitter} (kind : UnaryKind) (hoperand : operand.Uniform) :
    (unary kind operand).Uniform := by
  intro names context state state' h
  refine h.freshSlot.bind ?_
  rintro op1 _ state₁ state₁' ⟨rfl, h₁⟩
  refine (hoperand names (some op1) _ _ h₁).bind ?_
  rintro ops _ state₂ state₂' ⟨rfl, h₂⟩
  refine (h₂.resultSlot context).bind ?_
  rintro result _ state₃ state₃' ⟨rfl, h₃⟩
  refine (h₃.emit (.unary kind op1 result)).bind ?_
  rintro line _ state₄ state₄' ⟨rfl, h₄⟩
  exact .pure ⟨by simp, h₄⟩

/-- An operation on two operands is uniform if its operands are. -/
theorem uniform_binary {left right : Emitter} (kind : BinaryKind) (hleft : left.Uniform)
    (hright : right.Uniform) : (binary kind left right).Uniform := by
  intro names context state state' h
  refine h.freshSlot.bind ?_
  rintro op1 _ state₁ state₁' ⟨rfl, h₁⟩
  refine h₁.freshSlot.bind ?_
  rintro op2 _ state₂ state₂' ⟨rfl, h₂⟩
  refine (hleft names (some op1) _ _ h₂).bind ?_
  rintro ops _ state₃ state₃' ⟨rfl, h₃⟩
  refine (hright names (some op2) _ _ h₃).bind ?_
  rintro more _ state₄ state₄' ⟨rfl, h₄⟩
  refine (h₄.resultSlot context).bind ?_
  rintro result _ state₅ state₅' ⟨rfl, h₅⟩
  refine (h₅.emit (.binary kind op1 op2 result)).bind ?_
  rintro line _ state₆ state₆' ⟨rfl, h₆⟩
  exact .pure ⟨by simp, h₆⟩

/-- An argument is uniform if its value is. -/
theorem uniform_argument {value : Emitter} (hvalue : value.Uniform) :
    (argument value).Uniform := by
  intro names context state state' h
  refine h.freshSlot.bind ?_
  rintro slot _ state₁ state₁' ⟨rfl, h₁⟩
  refine (hvalue names (some slot) _ _ h₁).bind ?_
  rintro ops _ state₂ state₂' ⟨rfl, h₂⟩
  cases context with
  | none => exact .pure ⟨rfl, h₂⟩
  | some target =>
    refine (h₂.write target fun cell => Cell.renamed_push (.slot slot) cell).bind ?_
    rintro _ _ state₃ state₃' ⟨-, h₃⟩
    exact .pure ⟨rfl, h₃⟩

/-- Text between the statements is uniform, since its value has nothing to rename. -/
theorem uniform_inlineText {text : Constant} (htext : text.value.IsLiteral) :
    (inlineText text).Uniform := by
  intro names context state state' h
  refine (h.noteMisplaced text.misplaced).bind ?_
  rintro _ _ state₁ state₁' ⟨-, h₁⟩
  have hslot := h₁.newSlot (Cell.ofValue text.value)
  rw [Cell.renamed_ofValue htext] at hslot
  refine hslot.bind ?_
  rintro op1 _ state₂ state₂' ⟨rfl, h₂⟩
  refine h₂.freshSlot.bind ?_
  rintro result _ state₃ state₃' ⟨rfl, h₃⟩
  refine (h₃.emit (.unary .echoOp op1 result)).bind ?_
  rintro line _ state₄ state₄' ⟨rfl, h₄⟩
  exact .pure ⟨by simp, h₄⟩

/-- A parameter is uniform if its default value is. -/
theorem uniform_parameter {default : Emitter} (declaration : Declaration)
    (hdefault : default.Uniform) : (parameter declaration default).Uniform := by
  intro names context state state' h
  refine h.freshSlot.bind ?_
  rintro slot _ state₁ state₁' ⟨rfl, h₁⟩
  refine (hdefault names (some slot) _ _ h₁).bind ?_
  rintro ops _ state₂ state₂' ⟨rfl, h₂⟩
  cases context with
  | none => exact .pure ⟨rfl, h₂⟩
  | some target =>
    refine (h₂.write target fun cell => Cell.renamed_push (.param ⟨declaration.name, slot, ops,
      declaration.byRef, declaration.typeHint⟩) cell).bind ?_
    rintro _ _ state₃ state₃' ⟨-, h₃⟩
    exact .pure ⟨rfl, h₃⟩

/-- A function is uniform if its body, its name and its parameters are. -/
theorem uniform_function {body name params : Emitter} (hbody : body.Uniform)
    (hname : name.Uniform) (hparams : params.Uniform) : (function body name params).Uniform := by
  intro names context state state' h
  refine (hbody names none _ _ h).bind ?_
  rintro stmts _ state₁ state₁' ⟨rfl, h₁⟩
  refine h₁.freshSlot.bind ?_
  rintro nameSlot _ state₂ state₂' ⟨rfl, h₂⟩
  refine (hname names (some nameSlot) _ _ h₂).bind ?_
  rintro ops _ state₃ state₃' ⟨rfl, h₃⟩
  refine (h₃.newSlot (.ofValue (.array []))).bind ?_
  rintro paramsSlot _ state₄ state₄' ⟨rfl, h₄⟩
  refine (hparams names (some paramsSlot) _ _ h₄).bind ?_
  rintro more _ state₅ state₅' ⟨rfl, h₅⟩
  refine (h₅.cellOf nameSlot).bind ?_
  rintro nameCell _ state₆ state₆' ⟨rfl, h₆⟩
  refine (h₆.cellOf paramsSlot).bind ?_
  rintro paramsCell _ state₇ state₇' ⟨rfl, h₇⟩
  -- What is reported shows the heaps, in which the two runs differ; nothing depends on it.
  have hget : Alike get get state₇ state₇' fun _ _ after after' => names.Relates after after' := h₇
  refine hget.bind ?_
  rintro shown shown' state₈ state₈' h₈
  refine (h₈.note _ _).bind ?_
  rintro _ _ state₉ state₉' ⟨-, h₉⟩
  refine (h₉.emit (.functionDef nameSlot stmts paramsSlot)).bind ?_
  rintro line _ state₁₀ state₁₀' ⟨rfl, h₁₀⟩
  exact .pure ⟨by simp, h₁₀⟩

/-- A branch whose two parts are uniform. -/
def Branch.Uniform (branch : Branch) : Prop :=
  Emitter.Uniform branch.cond ∧ Emitter.Uniform branch.stmts

/-- The code of a branch and of a loop that tests first, where the last jumps of the two runs go to a
handle and to its new name. -/
theorem carries_guardedTo {names : Renaming} {branch : Branch} (hbranch : branch.Uniform)
    {target target' : List OpLine → OpLine → OpId}
    (htarget : ∀ test guard, target' (renamedLines names test) (guard.renamed names) =
      names.handle (target test guard))
    {state state' : CompileState} (h : names.Relates state state') :
    names.Carries (renamedLines names) (guardedTo target branch) (guardedTo target' branch)
      state state' := by
  refine h.freshSlot.bind ?_
  rintro slot _ state₁ state₁' ⟨rfl, h₁⟩
  refine (hbranch.1 names (some slot) _ _ h₁).bind ?_
  rintro test _ state₂ state₂' ⟨rfl, h₂⟩
  refine h₂.label.bind ?_
  rintro past _ state₃ state₃' ⟨rfl, h₃⟩
  refine (h₃.emit (.jumpIfNot slot past.id)).bind ?_
  rintro guard _ state₄ state₄' ⟨rfl, h₄⟩
  refine (hbranch.2 names none _ _ h₄).bind ?_
  rintro stmts _ state₅ state₅' ⟨rfl, h₅⟩
  -- Only this line depends on the target, which is renamed along with the lines it is read from.
  have hjump := h₅.emit (.jumpTo (target test guard))
  rw [Op.renamed, ← htarget] at hjump
  refine hjump.bind ?_
  rintro leave _ state₆ state₆' ⟨rfl, h₆⟩
  exact .pure ⟨by simp, h₆⟩

/-- Guarded branches are carried over with their exit renamed. -/
theorem carries_guardedAll {names : Renaming} {branches : List Branch}
    (hbranches : ∀ branch ∈ branches, branch.Uniform) (exit : OpId) {state state' : CompileState}
    (h : names.Relates state state') :
    names.Carries (renamedLines names) (guardedAll exit branches)
      (guardedAll (names.handle exit) branches) state state' := by
  induction branches generalizing state state' with
  | nil => exact .pure ⟨rfl, h⟩
  | cons branch rest ih =>
    have hfirst : names.Carries (renamedLines names) (guarded exit branch)
        (guarded (names.handle exit) branch) state state' := by
      rw [guarded_eq_guardedTo, guarded_eq_guardedTo]
      exact carries_guardedTo (hbranches branch List.mem_cons_self) (fun _ _ => rfl) h
    refine hfirst.bind ?_
    rintro ops _ state₁ state₁' ⟨rfl, h₁⟩
    refine (ih (fun other hother => hbranches other (List.mem_cons_of_mem _ hother)) h₁).bind ?_
    rintro more _ state₂ state₂' ⟨rfl, h₂⟩
    exact .pure ⟨by simp, h₂⟩

/-- A conditional is uniform if its branches and the statements behind them are. -/
theorem uniform_conditional {branches : List Branch} {otherwise : Emitter}
    (hbranches : ∀ branch ∈ branches, branch.Uniform) (hotherwise : otherwise.Uniform) :
    (conditional branches otherwise).Uniform := by
  intro names context state state' h
  refine h.label.bind ?_
  rintro exit _ state₁ state₁' ⟨rfl, h₁⟩
  refine (carries_guardedAll hbranches exit.id h₁).bind ?_
  rintro ops _ state₂ state₂' ⟨rfl, h₂⟩
  refine (hotherwise names none _ _ h₂).bind ?_
  rintro more _ state₃ state₃' ⟨rfl, h₃⟩
  exact .pure ⟨by simp, h₃⟩

/-- The entry of renamed op-lines is the new name of their entry. -/
theorem entry_renamedLines (names : Renaming) (ops : List OpLine) (fallback : OpId) :
    entry (renamedLines names ops) (names.handle fallback) = names.handle (entry ops fallback) := by
  cases ops with
  | nil => rfl
  | cons line rest => rw [renamedLines_cons]; rfl

/-- A loop that tests first is uniform if its two parts are. -/
theorem uniform_whileLoop {loop : Branch} (hloop : loop.Uniform) : (whileLoop loop).Uniform := by
  intro names context state state' h
  rw [whileLoop_eq_guardedTo]
  exact carries_guardedTo hloop (fun test guard => entry_renamedLines names test guard.id) h

/-- A loop that tests last is uniform if its two parts are. -/
theorem uniform_doLoop {loop : Branch} (hloop : loop.Uniform) : (doLoop loop).Uniform := by
  intro names context state state' h
  refine h.freshSlot.bind ?_
  rintro slot _ state₁ state₁' ⟨rfl, h₁⟩
  refine (hloop.2 names none _ _ h₁).bind ?_
  rintro stmts _ state₂ state₂' ⟨rfl, h₂⟩
  refine (hloop.1 names (some slot) _ _ h₂).bind ?_
  rintro test _ state₃ state₃' ⟨rfl, h₃⟩
  refine h₃.newHandle.bind ?_
  rintro id _ state₄ state₄' ⟨rfl, h₄⟩
  refine .pure ⟨?_, h₄⟩
  rw [← renamedLines_append, entry_renamedLines, renamedLines_append _ [_], renamedLines_cons]
  rfl

/-- Every emitter that is built is uniform. -/
theorem Built.uniform {emitter : Emitter} (h : Built emitter) : emitter.Uniform := by
  induction h with
  | skip => exact uniform_skip
  | append _ _ hfirst hsecond => exact uniform_append hfirst hsecond
  | noting event _ h => exact uniform_noting event h
  | unsupported kind => exact uniform_unsupported kind
  | dropped literal => exact uniform_dropped literal
  | folded literal => exact uniform_folded literal
  | constant hliteral => exact uniform_constant hliteral
  | unary kind _ h => exact uniform_unary kind h
  | binary kind _ _ hleft hright => exact uniform_binary kind hleft hright
  | argument _ h => exact uniform_argument h
  | inlineText htext => exact uniform_inlineText htext
  | parameter declaration _ h => exact uniform_parameter declaration h
  | function _ _ _ hbody hname hparams => exact uniform_function hbody hname hparams
  | conditional _ _ _ hcond hstmts hotherwise =>
    exact uniform_conditional (fun branch hbranch => ⟨hcond branch hbranch, hstmts branch hbranch⟩)
      hotherwise
  | whileLoop _ _ hcond hstmts => exact uniform_whileLoop ⟨hcond, hstmts⟩
  | doLoop _ _ hcond hstmts => exact uniform_doLoop ⟨hcond, hstmts⟩

end Emitter

end Lowering
