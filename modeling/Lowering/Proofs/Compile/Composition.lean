import Lowering.Proofs.Compile.Growth
import Lowering.Proofs.Compile.Handles
import Lowering.Proofs.Compile.History
import Lowering.Proofs.Link.Append

/-!
# Statement lists one behind the other

Compiling `a ++ b` is compiling `a` and then `b`, and without a context the two parts have nothing
to do with each other: the op-lines of each name only slots that were added while it was compiled,
and what these hold names no others (`Heap.Adds.reachable`). So the op-lines of the two parts are
programs side by side over the last heap. The image of the first part is the one it has over the
heap in which `b` was not yet compiled, because `b` changes no slot that was there, and the image of
the second is the one that any other compiler makes, by history independence.
-/

namespace Lowering

open CompileM Emitter

/-! ## Running one list and then another -/

/-- Three pieces of code one after another may be grouped either way. -/
theorem Emitter.append_assoc (first second third : Emitter) :
    append (append first second) third = append first (append second third) := by
  funext context
  simp only [append, bind_assoc, pure_bind, List.append_assoc]

/-- Statements behind others are compiled behind them. -/
theorem compile_append (a b : List Node) : compile (a ++ b) = append (compile a) (compile b) := by
  induction a with
  | nil =>
    funext context
    simp [compile, append, skip]
  | cons node rest ih => rw [List.cons_append, compile, compile, ih, append_assoc]

section

variable {a b nodes : List Node} {context : Option SlotId} {state between after : CompileState}
  {lines more : List OpLine} {e : CompileError}

/-- A statement list that fails keeps failing in the same way when more statements follow. -/
theorem run_append_of_error (b : List Node)
    (h : (compile a context).run.run state = (.error e, after)) :
    (compile (a ++ b) context).run.run state = (.error e, after) := by
  rw [compile_append, append, ExceptT.run_bind, StateT.run_bind, h]
  rfl

/-- Statements that follow are compiled in the state that those in front leave. -/
theorem run_append_of_ok {result : Except CompileError (List OpLine)}
    (h : (compile a context).run.run state = (.ok lines, between))
    (h' : (compile b context).run.run between = (result, after)) :
    (compile (a ++ b) context).run.run state = (result.map (lines ++ ·), after) := by
  rw [compile_append, append, ExceptT.run_bind, StateT.run_bind, h]
  change ((compile b context >>= _).run.run between) = _
  rw [ExceptT.run_bind, StateT.run_bind, h']
  cases result <;> rfl

/-- Handles are only ever handed out. -/
theorem issued_le_of_run {result : Except CompileError (List OpLine)}
    (h : (compile nodes context).run.run state = (result, after)) :
    state.issued ≤ after.issued := by
  have hends := (compile_built nodes).numbers context state
  cases result with
  | ok lines => exact (hends.of_run_ok h).le
  | error e => exact (hends.of_run_error h).le

/-- What is compiled without a context names only slots that were added on the way. -/
theorem adds_of_run (h : (compile nodes none).run.run state = (.ok lines, after)) :
    Heap.Adds none state.heap (lineSlots lines) after.heap :=
  ((compile_built nodes).extends none state (by simp)).of_run_ok h

end

/-- What is found from op-lines that name only slots that were added was added as well, also over a
later heap in which these slots are the same. -/
theorem Heap.Adds.reachable {before after heap : Heap} {lines : List OpLine}
    (h : Heap.Adds none before (lineSlots lines) after)
    (hagree : ∀ slot, slot.index < after.size → heap.get slot = after.get slot) {slot : SlotId}
    (hslot : slot ∈ ReachableSlots heap lines) :
    before.size ≤ slot.index ∧ slot.index < after.size := by
  induction hslot with
  | root hmem => exact (h.spans _ hmem).resolve_left (by simp)
  | @content slot next _ hnext ih =>
    rw [slotsOf, hagree slot ih.2] at hnext
    have hnext' := h.grows.newer slot ih.1 next hnext
    omega

/-! ## Images of statement lists -/

section

variable {a b : List Node} {state between after : CompileState} {lines more : List OpLine}

/-- The image of two lists compiled one behind the other is made from the image of the first, taken
before the second is compiled, and that of the second, unless there are more slots than words. -/
theorem link_append_of_runs (ha : (compile a none).run.run state = (.ok lines, between))
    (hb : (compile b none).run.run between = (.ok more, after)) (hissued : after.issued ≤ 2 ^ 32)
    (hsmall : ∀ image, link after.heap (lines ++ more) = .ok image →
      image.slots.length ≤ 2 ^ 32) :
    ∃ first second, link between.heap lines = .ok first ∧ link after.heap more = .ok second ∧
      link after.heap (lines ++ more) = .ok (first.append second) := by
  have hlines := adds_of_run ha
  have hmore := adds_of_run hb
  have hframe : ∀ slot : SlotId, slot.index < between.heap.size →
      after.heap.get slot = between.heap.get slot := fun slot hslot =>
    hmore.grows.frame slot hslot (by simp)
  have hslots : ∀ slot ∈ ReachableSlots after.heap more, slot ∉ ReachableSlots after.heap lines := by
    intro slot hslot hslot'
    have hadded := hmore.reachable (fun _ _ => rfl) hslot
    have hadded' := hlines.reachable hframe hslot'
    omega
  -- The two calls are a run of the compiler, so what each returned can still be linked at its end.
  have hstart : CompilerRun [] state [] := .start (by simp)
  have hrun := (hstart.compiled (by simp) ha).compiled (by simp) hb
  obtain ⟨first, hfirst⟩ := hrun.exists_image hissued
    (List.mem_cons_of_mem more (List.mem_singleton_self lines))
  obtain ⟨second, hsecond⟩ := hrun.exists_image hissued List.mem_cons_self
  have hwhole := hstart.compiled (by simp) (run_append_of_ok ha hb)
  obtain ⟨image, himage⟩ := hwhole.exists_image hissued List.mem_cons_self
  have hlength := length_slots_append hfirst hsecond himage hslots
  have hbound := hsmall image himage
  obtain ⟨first', hfirst'⟩ :=
    exists_image_of_run (by simp) ha ((issued_le_of_run hb).trans hissued)
  have hsame : first = first' := by
    refine image_eq_of_agree (fun slot hslot => hframe slot ?_) hfirst' hfirst (by omega)
    exact (hlines.reachable (fun _ _ => rfl) hslot).2
  have hdistinct : (handles (lines ++ more)).Nodup :=
    (hwhole.wellFormed hissued List.mem_cons_self _ List.mem_cons_self).distinct
  refine ⟨first, second, by rw [hfirst', hsame], hsecond, ?_⟩
  exact link_append hfirst hsecond hslots hdistinct (by omega)

end

/-- What becomes of statements behind others, without a context: the error of the first list if
there is one, else that of the second, and else the image of the second behind that of the first.
The three compilers may be in any states. -/
theorem outcome_append (a b : List Node) (state state₁ state₂ : CompileState)
    (hissued : ((compile (a ++ b) none).run.run state).2.issued ≤ 2 ^ 32)
    (hissued₁ : ((compile a none).run.run state₁).2.issued ≤ 2 ^ 32)
    (hissued₂ : ((compile b none).run.run state₂).2.issued ≤ 2 ^ 32)
    (hsmall : ∀ image, outcome (a ++ b) none state = .ok (.ok image) →
      image.slots.length ≤ 2 ^ 32) :
    (∃ e, outcome a none state₁ = .error e ∧ outcome (a ++ b) none state = .error e) ∨
      ∃ first, outcome a none state₁ = .ok (.ok first) ∧
        ((∃ e, outcome b none state₂ = .error e ∧ outcome (a ++ b) none state = .error e) ∨
          ∃ second, outcome b none state₂ = .ok (.ok second) ∧
            outcome (a ++ b) none state = .ok (.ok (first.append second))) := by
  rcases ha : (compile a none).run.run state with ⟨e | lines, between⟩
  · have hab := run_append_of_error b ha
    have hsame := outcome_same_of_states a state₁ state hissued₁ (by rw [ha]; rwa [hab] at hissued)
    refine Or.inl ⟨e, ?_, outcome_of_run_error hab⟩
    rw [hsame.eq, outcome_of_run_error ha]
  -- Where the first list compiles, how the whole ends is up to the second, compiled behind it.
  rcases hb : (compile b none).run.run between with ⟨result, after⟩
  have hab := run_append_of_ok ha hb
  rw [hab] at hissued
  have hbetween : between.issued ≤ 2 ^ 32 := (issued_le_of_run hb).trans hissued
  have hfirst := (outcome_same_of_states a state₁ state hissued₁ (by rw [ha]; exact hbetween)).eq
  have hsecond := (outcome_same_of_states b state₂ between hissued₂ (by rw [hb]; exact hissued)).eq
  rw [outcome_of_run_ok ha] at hfirst
  cases result with
  | error e =>
    obtain ⟨first, hlink⟩ := exists_image_of_run (by simp) ha hbetween
    refine Or.inr ⟨first, by rw [hfirst, hlink], Or.inl ⟨e, ?_, outcome_of_run_error hab⟩⟩
    rw [hsecond, outcome_of_run_error hb]
  | ok more =>
    obtain ⟨first, second, hlink, hlink', hwhole⟩ :=
      link_append_of_runs ha hb hissued fun image himage =>
        hsmall image (by rw [outcome_of_run_ok hab, himage])
    refine Or.inr ⟨first, by rw [hfirst, hlink], Or.inr ⟨second, ?_, ?_⟩⟩
    · rw [hsecond, outcome_of_run_ok hb, hlink']
    · rw [outcome_of_run_ok hab, hwhole]

/-- A loop and a fetch, and a function with a loop and a default behind them: on three compilers of
which one has failed before, the image of the whole is made from those of the parts. -/
theorem outcome_append_loop_function :
    (((compile (loopNodes ++ functionNodes) none).run.run {}).2.issued = 12 ∧
      ((compile loopNodes none).run.run refusedState).2.issued = 6 ∧
      ((compile functionNodes none).run.run {}).2.issued = 7) ∧
      (∀ image, outcome (loopNodes ++ functionNodes) none {} = .ok (.ok image) →
        image.slots.length ≤ 2 ^ 32) ∧
      ∃ first second, outcome loopNodes none refusedState = .ok (.ok first) ∧
        outcome functionNodes none {} = .ok (.ok second) ∧
        outcome (loopNodes ++ functionNodes) none {} = .ok (.ok (first.append second)) := by
  have hissued : ((compile (loopNodes ++ functionNodes) none).run.run {}).2.issued = 12 := by
    decide +kernel
  have hissued₁ : ((compile loopNodes none).run.run refusedState).2.issued = 6 := by
    decide +kernel
  have hissued₂ : ((compile functionNodes none).run.run {}).2.issued = 7 := by decide +kernel
  have hok : ((compile (loopNodes ++ functionNodes) none).run.run {}).1.toOption.isSome := by
    decide +kernel
  have hslots : ((outcome (loopNodes ++ functionNodes) none {}).toOption.bind
      fun linked => linked.toOption.map fun image => image.slots.length) = some 12 := by
    decide +kernel
  have hsmall : ∀ image, outcome (loopNodes ++ functionNodes) none {} = .ok (.ok image) →
      image.slots.length ≤ 2 ^ 32 := by
    intro image himage
    rw [himage] at hslots
    exact (Option.some.inj hslots).trans_le (by norm_num)
  refine ⟨⟨hissued, hissued₁, hissued₂⟩, hsmall, ?_⟩
  -- The statements can be compiled together, so neither part is refused.
  have hsome : ∀ e, outcome (loopNodes ++ functionNodes) none {} ≠ .error e := by
    intro e he
    rcases hrun : (compile (loopNodes ++ functionNodes) none).run.run {} with ⟨e' | lines, after⟩
    · rw [hrun] at hok
      cases hok
    · rw [outcome_of_run_ok hrun] at he
      cases he
  rcases outcome_append loopNodes functionNodes {} refusedState {} (by rw [hissued]; norm_num)
    (by rw [hissued₁]; norm_num) (by rw [hissued₂]; norm_num) hsmall with
    ⟨e, -, he⟩ | ⟨first, hfirst, ⟨e, -, he⟩ | ⟨second, hsecond, hwhole⟩⟩
  · exact absurd he (hsome e)
  · exact absurd he (hsome e)
  · exact ⟨first, second, hfirst, hsecond, hwhole⟩

end Lowering
