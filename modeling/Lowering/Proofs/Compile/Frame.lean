import Mathlib.Order.Bounds.Defs
import Lowering.Proofs.Compile.Composition
import Lowering.Proofs.Tree.Walk

/-!
# What compiling leaves alone

Compiling adds slots and writes its context. Every other slot that was there is as it was, whether
the compilation succeeds or fails: this is the frame of `Heap.Grows`.

The context itself is written by single statements, and each of them does so at its very end: an
argument or a parameter is compiled into a slot of its own and is appended when nothing can fail any
more, and an operation only names the context. `Emitter.Settles` says this of the emitter of a
statement: where it fails, it has done nothing but add slots, and where it succeeds, what the
context holds is related to what it held before. For a list of statements it follows that a failure
leaves the context as the statements before the failing one have left it
(`failed_statement_keeps_context`), and that the elements of the context are never lost but to a
literal that takes their place (`compile_frame`).
-/

namespace Lowering

open CompileM Emitter Heap

/-! ## Single statements -/

/-- Where an emitter fails in a context that is there, it has only added slots; where it succeeds,
the cells of the context before and after are related. -/
def Emitter.Settles (emitter : Emitter) (effect : Cell → Cell → Prop) : Prop :=
  ∀ (context : SlotId) (state : CompileState), context.index < state.heap.size →
    Ends (emitter (some context)) state
      (fun _ after => effect (state.heap.get context) (after.heap.get context))
      fun _ after => Grows none state.heap after.heap

/-- The second cell still has the elements of the first, in front of others. -/
def Cell.Continues (cell cell' : Cell) : Prop :=
  cell.value.elements <+: cell'.value.elements

/-- A cell that stays as it is keeps its elements. -/
theorem Cell.continues_of_eq {cell cell' : Cell} (h : cell' = cell) : cell.Continues cell' := by
  rw [h]
  exact List.prefix_refl _

/-- A cell that takes another element keeps those that it has. -/
theorem Cell.continues_push (cell : Cell) (element : Value) :
    cell.Continues (cell.push element) :=
  List.prefix_append _ _

namespace Emitter

variable {context : SlotId} {state : CompileState}

/-- A slot that is there is as it was when an emitter has only added slots. -/
theorem get_of_adds {slots : List SlotId} {after : Heap} {slot : SlotId}
    (h : Adds none state.heap slots after) (hslot : slot.index < state.heap.size) :
    after.get slot = state.heap.get slot :=
  h.grows.frame slot hslot (by simp)

/-- An emitter that is not interested in its context does nothing to it. -/
theorem settles_of_ignored {emitter : Emitter} (h : emitter.Extends)
    (hignored : ∀ context, emitter context = emitter none) :
    emitter.Settles Cell.Continues := by
  intro context state hcontext
  rw [hignored]
  refine (h none state (by simp)).mono (fun ops after hadds => ?_) fun _ _ hgrows => hgrows
  exact Cell.continues_of_eq (get_of_adds hadds hcontext)

/-- An event in front touches no cell. -/
theorem settles_noting {emitter : Emitter} {effect : Cell → Cell → Prop} (event : Event)
    (h : emitter.Settles effect) : (noting event emitter).Settles effect := by
  intro context state hcontext
  rw [ends_noting]
  exact h context (state.noted event) hcontext

/-- A literal takes the place of what the context held. -/
theorem settles_constant (literal : Constant) :
    (constant literal).Settles fun _ cell => cell = .ofValue literal.value := by
  intro context state hcontext
  rw [ends_constant_some, CompileState.written_heap, CompileState.notedMisplaced_heap,
    get_modify, if_pos ⟨rfl, hcontext⟩]

/-- An operation on one operand does not touch the elements of its context. -/
theorem settles_unary {operand : Emitter} (kind : UnaryKind) (h : operand.Extends) :
    (unary kind operand).Settles Cell.Continues := by
  intro context state hcontext
  rw [ends_unary]
  have hnone : Adds none state.heap [] state.heap := .start (by simp)
  refine h.ends hnone.add_empty (by simp) (fun ops state₁ hops => ?_) fun _ _ hfails => hfails
  exact Cell.continues_of_eq (get_of_adds hops hcontext)

/-- An operation on two operands does not touch the elements of its context. -/
theorem settles_binary {left right : Emitter} (kind : BinaryKind) (hleft : left.Extends)
    (hright : right.Extends) : (binary kind left right).Settles Cell.Continues := by
  intro context state hcontext
  rw [ends_binary]
  have hnone : Adds none state.heap [] state.heap := .start (by simp)
  refine hleft.ends hnone.add_empty.add_empty (by simp) (fun ops state₁ hops => ?_)
    fun _ _ hfails => hfails
  refine hright.ends hops (by simp) (fun more state₂ hmore => ?_) fun _ _ hfails => hfails
  exact Cell.continues_of_eq (get_of_adds hmore hcontext)

/-- Something that was made without the context becomes its next element. -/
theorem continues_pushed {slots : List SlotId} {after : Heap} (element : Value)
    (h : Adds none state.heap slots after) (hcontext : context.index < state.heap.size) :
    (state.heap.get context).Continues
      ((after.modify context (.push element)).get context) := by
  have hthere : context.index < after.size := Nat.lt_of_lt_of_le hcontext h.grows.size_le
  rw [get_modify, if_pos ⟨rfl, hthere⟩, get_of_adds h hcontext]
  exact Cell.continues_push _ element

/-- An argument adds an element to its context once its value has been compiled. -/
theorem settles_argument {value : Emitter} (h : value.Extends) :
    (argument value).Settles Cell.Continues := by
  intro context state hcontext
  rw [ends_argument]
  have hnone : Adds none state.heap [] state.heap := .start (by simp)
  refine h.ends hnone.add_empty (by simp) (fun ops state₁ hops => ?_) fun _ _ hfails => hfails
  exact continues_pushed _ hops hcontext

/-- A parameter adds an element to its context once its default value has been compiled. -/
theorem settles_parameter {default : Emitter} (declaration : Declaration) (h : default.Extends) :
    (parameter declaration default).Settles Cell.Continues := by
  intro context state hcontext
  rw [ends_parameter]
  have hnone : Adds none state.heap [] state.heap := .start (by simp)
  refine h.ends hnone.add_empty (by simp) (fun ops state₁ hops => ?_) fun _ _ hfails => hfails
  exact continues_pushed _ hops hcontext

end Emitter

/-- The kinds of nodes whose value takes the place of what their context holds. -/
def NodeKind.literals : List NodeKind :=
  [.name, .scalarDNumber, .scalarLNumber, .scalarString]

/-- A node that is described as a literal is of one of the kinds that replace what their context
holds. -/
theorem NodeKind.mem_literals {kind : NodeKind} {field : String} {separator : Option String}
    (h : kind.descriptor? = some (.literal field separator)) : kind ∈ literals := by
  cases kind <;> simp_all [descriptor?, literals, onSides, onSidesSwapped, onTarget]

/-- What a statement does to the context that it succeeds in: a literal takes the place of its
value, and any other statement keeps its elements. -/
def Node.Effect (node : Node) (cell cell' : Cell) : Prop :=
  (node.kind ∈ NodeKind.literals ∧ ∃ value, cell' = .ofValue value) ∨ cell.Continues cell'

/-- A node does to its context what its kind says, and nothing where it fails. -/
theorem Node.emitter_settles (node : Node) : node.emitter.Settles node.Effect := by
  obtain ⟨kind, attributes, fields⟩ := node
  have hfield (name : String) : (fieldEmitter name fields).Extends :=
    (fieldEmitter_built name fields).extends
  have hkeep {emitter : Emitter} (h : emitter.Settles Cell.Continues) :
      emitter.Settles (Node.Effect ⟨kind, attributes, fields⟩) := fun context state hcontext =>
    (h context state hcontext).mono (fun _ _ => Or.inr) fun _ _ hgrows => hgrows
  have hextends := (Node.emitter_built ⟨kind, attributes, fields⟩).extends
  revert hextends
  unfold Node.emitter
  split
  · next descriptor hkind =>
    intro _
    refine settles_noting _ ?_
    split
    · exact hkeep (settles_argument (hfield _))
    -- A literal is the one kind of node that takes the place of what its context holds.
    · intro context state hcontext
      refine (settles_constant _ context state hcontext).mono (fun _ _ hcell => ?_)
        fun _ _ hgrows => hgrows
      exact Or.inl ⟨NodeKind.mem_literals hkind, _, hcell⟩
    · exact hkeep (settles_unary _ (hfield _))
    · exact hkeep (settles_binary _ (hfield _) (hfield _))
  · -- Of the kinds with a way of their own, only a parameter looks at its context.
    split
    · exact fun hextends => hkeep (settles_of_ignored hextends fun _ => rfl)
    · next routine _ =>
      cases routine with
      | param => exact fun _ => settles_noting _ (hkeep (settles_parameter _ (hfield _)))
      | _ => exact fun hextends => hkeep (settles_of_ignored hextends fun _ => rfl)

/-! ## Statements one after another -/

/-- A list of one statement is compiled as that statement is. -/
theorem compile_singleton (node : Node) : compile [node] = node.emitter :=
  append_skip node.emitter

section

variable {ast : List Node} {context : Option SlotId} {state after : CompileState}
  {lines : List OpLine} {e : CompileError}

/-- A failure is that of one statement, behind others that have been compiled. -/
theorem exists_failed_statement (h : (compile ast context).run.run state = (.error e, after)) :
    ∃ done node rest lines between, ast = done ++ node :: rest ∧
      (compile done context).run.run state = (.ok lines, between) ∧
      (compile [node] context).run.run between = (.error e, after) := by
  induction ast generalizing state with
  | nil => cases h
  | cons node rest ih =>
    rcases hnode : (compile [node] context).run.run state with ⟨e' | lines, between⟩
    · have hwhole := run_append_of_error rest hnode
      obtain ⟨⟨⟩, rfl⟩ := Prod.mk.inj (hwhole.symm.trans h)
      exact ⟨[], node, rest, [], state, rfl, rfl, hnode⟩
    · rcases hrest : (compile rest context).run.run between with ⟨e' | more, after'⟩
      · have hwhole := run_append_of_ok hnode hrest
        obtain ⟨⟨⟩, rfl⟩ := Prod.mk.inj (hwhole.symm.trans h)
        obtain ⟨done, failing, rest', lines', between', rfl, hdone, hfails⟩ := ih hrest
        exact ⟨node :: done, failing, rest', lines ++ lines', between', rfl,
          run_append_of_ok hnode hdone, hfails⟩
      · have hwhole := run_append_of_ok hnode hrest
        cases hwhole.symm.trans h

/-- Where statements are compiled behind others, those have been compiled. -/
theorem exists_run_of_append {more : List Node}
    (h : (compile (ast ++ more) context).run.run state = (.ok lines, after)) :
    ∃ first second between, (compile ast context).run.run state = (.ok first, between) ∧
      (compile more context).run.run between = (.ok second, after) := by
  rcases hast : (compile ast context).run.run state with ⟨e | first, between⟩
  · cases (run_append_of_error more hast).symm.trans h
  · rcases hmore : (compile more context).run.run between with ⟨e | second, after'⟩
    · cases (run_append_of_ok hast hmore).symm.trans h
    · obtain ⟨-, rfl⟩ := Prod.mk.inj ((run_append_of_ok hast hmore).symm.trans h)
      exact ⟨first, second, between, rfl, hmore⟩

end

/-- The heap only grows, however statements end. -/
theorem grows_of_run {ast : List Node} {context : Option SlotId} {state after : CompileState}
    (hcontext : ∀ slot ∈ context, slot.index < state.heap.size)
    {result : Except CompileError (List OpLine)}
    (h : (compile ast context).run.run state = (result, after)) :
    Grows context state.heap after.heap := by
  have hends := (compile_built ast).extends context state hcontext
  cases result with
  | ok lines => exact (hends.of_run_ok h).grows
  | error e => exact hends.of_run_error h

section

variable {ast : List Node} {context : SlotId} {state between after : CompileState}
  (hcontext : context.index < state.heap.size)

include hcontext

/-- A context that is there stays there. -/
theorem there_of_run {result : Except CompileError (List OpLine)}
    (h : (compile ast (some context)).run.run state = (result, between)) :
    context.index < between.heap.size :=
  Nat.lt_of_lt_of_le hcontext (grows_of_run (by simpa using hcontext) h).size_le

/-- A statement that fails changes no slot, and so not its context. -/
theorem get_of_failed_statement {node : Node} {e : CompileError}
    (h : (compile [node] (some context)).run.run state = (.error e, after)) {slot : SlotId}
    (hslot : slot.index < state.heap.size) : after.heap.get slot = state.heap.get slot := by
  rw [compile_singleton] at h
  have hgrows := (node.emitter_settles context state hcontext).of_run_error h
  exact hgrows.frame slot hslot (by simp)

end

/-- A failing statement contributes nothing to its context. Where statements fail, there is a first
one whose addition makes them fail, and they fail with it as they fail in all. The call with the
statements before it succeeds, and what the context holds behind that call, its value and its tag,
is what it holds behind the failed one, and so is what every other slot holds. -/
theorem failed_statement_keeps_context (ast : List Node) (context : SlotId) (state : CompileState)
    (hcontext : context.index < state.heap.size) {e : CompileError} {after : CompileState}
    (h : (compile ast (some context)).run.run state = (.error e, after)) :
    ∃ i, IsLeast {i | i < ast.length ∧ ∃ e' after',
        (compile (ast.take (i + 1)) (some context)).run.run state = (.error e', after')} i ∧
      (compile (ast.take (i + 1)) (some context)).run.run state = (.error e, after) ∧
      ∃ lines between,
        (compile (ast.take i) (some context)).run.run state = (.ok lines, between) ∧
        after.heap.get context = between.heap.get context ∧
        ∀ slot, slot.index < between.heap.size → after.heap.get slot = between.heap.get slot := by
  obtain ⟨done, node, rest, lines, between, rfl, hdone, hfails⟩ := exists_failed_statement h
  have htake : (done ++ node :: rest).take (done.length + 1) = done ++ [node] := by
    simp [List.take_append]
  have hwith : (compile (done ++ [node]) (some context)).run.run state = (.error e, after) :=
    run_append_of_ok hdone hfails
  have hthere := there_of_run hcontext hdone
  refine ⟨done.length, ⟨⟨by simp, e, after, by rw [htake, hwith]⟩, ?_⟩, by rw [htake, hwith],
    lines, between, by rw [List.take_left, hdone], get_of_failed_statement hthere hfails hthere,
    fun _ hslot => get_of_failed_statement hthere hfails hslot⟩
  -- Fewer statements do not fail, since those before the failing one do not.
  rintro k ⟨-, e', after', hk⟩
  by_contra hlt
  have hsplit : (done ++ node :: rest).take (k + 1) ++ done.drop (k + 1) = done := by
    rw [List.take_append_of_le_length (by omega), List.take_append_drop]
  have hdone' := run_append_of_error (done.drop (k + 1)) hk
  rw [hsplit, hdone] at hdone'
  cases hdone'

/-- An argument, a second one that fails behind an argument of its own, and a name. -/
def halfwayNodes : List Node :=
  [⟨.arg, [], [("value", .scalar (.long 1))]⟩,
    ⟨.arg, [], [("value", .list [.node ⟨.arg, [], [("value", .node (variableNode "x"))]⟩,
      .node ⟨.other "Expr_Closure", [], []⟩])]⟩,
    ⟨.name, [], [("parts", .list [.scalar (.string "n")])]⟩]

/-- A context that holds an array of a number and of the slot behind it. -/
def heldState : CompileState where
  heap := ⟨#[⟨.array [.long 7, .slot ⟨1⟩], .array⟩, ⟨.string "s", .ref⟩]⟩

/-- The state behind the failure of `halfwayNodes`. -/
def halfwayState : CompileState :=
  ((compile halfwayNodes (some ⟨0⟩)).run.run heldState).2

/-- Of `halfwayNodes` the first argument is in the context and nothing else. -/
theorem failed_statement_keeps_context_halfway :
    (halfwayState.heap.get ⟨0⟩).value.elements.length = 3 ∧
    ∃ i, IsLeast {i | i < halfwayNodes.length ∧ ∃ e after,
        (compile (halfwayNodes.take (i + 1)) (some ⟨0⟩)).run.run heldState = (.error e, after)} i ∧
      (compile (halfwayNodes.take (i + 1)) (some ⟨0⟩)).run.run heldState =
        (.error (.unsupported "Expr_Closure"), halfwayState) ∧
      ∃ lines between,
        (compile (halfwayNodes.take i) (some ⟨0⟩)).run.run heldState = (.ok lines, between) ∧
        halfwayState.heap.get ⟨0⟩ = between.heap.get ⟨0⟩ ∧
        ∀ slot, slot.index < between.heap.size →
          halfwayState.heap.get slot = between.heap.get slot := by
  have hrun : (compile halfwayNodes (some ⟨0⟩)).run.run heldState =
      (.error (.unsupported "Expr_Closure"), halfwayState) := by with_unfolding_all rfl
  exact ⟨by decide +kernel, failed_statement_keeps_context halfwayNodes ⟨0⟩ heldState (by decide)
    hrun⟩

/-- A literal among the statements has been compiled, and its value has taken the place of what the
context held. -/
def Replaced (ast : List Node) (context : SlotId) (state : CompileState) : Prop :=
  ∃ i node, ast[i]? = some node ∧ node.kind ∈ NodeKind.literals ∧ ∃ lines between value,
    (compile (ast.take (i + 1)) (some context)).run.run state = (.ok lines, between) ∧
      between.heap.get context = .ofValue value

/-- A literal among some statements is among them when more follow. -/
theorem Replaced.append {ast : List Node} {context : SlotId} {state : CompileState}
    (h : Replaced ast context state) (more : List Node) : Replaced (ast ++ more) context state := by
  obtain ⟨i, node, hnode, hkind, hrun⟩ := h
  obtain ⟨hlt, -⟩ := List.getElem?_eq_some_iff.mp hnode
  refine ⟨i, node, ?_, hkind, ?_⟩
  · rw [List.getElem?_append_left hlt, hnode]
  · rwa [List.take_append_of_le_length hlt]

/-- Statements that succeed keep the elements of their context, unless one of them is a literal. -/
theorem replaced_or_continues {ast : List Node} {context : SlotId} {state after : CompileState}
    {lines : List OpLine} (hcontext : context.index < state.heap.size)
    (h : (compile ast (some context)).run.run state = (.ok lines, after)) :
    Replaced ast context state ∨
      (state.heap.get context).Continues (after.heap.get context) := by
  -- The last statement that is a literal decides, so the induction takes statements off the end.
  induction ast using List.reverseRecOn generalizing lines after with
  | nil =>
    cases h
    exact Or.inr (Cell.continues_of_eq rfl)
  | append_singleton done node ih =>
    obtain ⟨first, second, between, hdone, hnode⟩ := exists_run_of_append h
    have hthere := there_of_run hcontext hdone
    rw [compile_singleton] at hnode
    rcases (node.emitter_settles context between hthere).of_run_ok hnode with
      ⟨hkind, value, hcell⟩ | hcontinues
    · refine Or.inl ⟨done.length, node, List.getElem?_concat_length, hkind, lines, after, value, ?_,
        hcell⟩
      rw [List.take_of_length_le (by simp), h]
    · rcases ih hdone with hreplaced | hdone
      · exact Or.inl (hreplaced.append [node])
      · exact Or.inr (List.IsPrefix.trans hdone hcontinues)

/-- Compiling touches no slot but its context, whether it succeeds or fails: every other slot that
was there, found from the context or not, holds what it held under the same tag. The elements that
the context had are still there, in front of others, unless a literal statement has taken their
place. -/
theorem compile_frame (ast : List Node) (context : Option SlotId) (state : CompileState)
    (hcontext : ∀ slot ∈ context, slot.index < state.heap.size) :
    (∀ slot, slot.index < state.heap.size → slot ∉ context →
      ((compile ast context).run.run state).2.heap.get slot = state.heap.get slot) ∧
    ∀ slot ∈ context, Replaced ast slot state ∨
      (state.heap.get slot).value.elements <+:
        (((compile ast context).run.run state).2.heap.get slot).value.elements := by
  rcases h : (compile ast context).run.run state with ⟨result, after⟩
  refine ⟨(grows_of_run hcontext h).frame, ?_⟩
  rintro slot ⟨⟩
  have hslot : slot.index < state.heap.size := hcontext slot rfl
  cases result with
  | ok lines => exact replaced_or_continues hslot h
  | error e =>
    -- What the context holds behind a failure is what the statements before it have left.
    obtain ⟨done, node, rest, lines, between, rfl, hdone, hfails⟩ := exists_failed_statement h
    have hthere := there_of_run hslot hdone
    rw [get_of_failed_statement hthere hfails hthere]
    exact (replaced_or_continues hslot hdone).imp_left fun hreplaced => hreplaced.append _

/-- The failure of `halfwayNodes` leaves the slot that the context holds as it was, and the elements
of the context in front of the new one. -/
theorem compile_frame_halfway :
    halfwayState.heap.get ⟨1⟩ = ⟨.string "s", .ref⟩ ∧
      (Replaced halfwayNodes ⟨0⟩ heldState ∨
        [.long 7, .slot ⟨1⟩] <+: (halfwayState.heap.get ⟨0⟩).value.elements) := by
  obtain ⟨hframe, helements⟩ := compile_frame halfwayNodes (some ⟨0⟩) heldState
    (by simp [heldState, Heap.size])
  exact ⟨hframe ⟨1⟩ (by decide) (by simp), helements ⟨0⟩ rfl⟩

end Lowering
