import Lowering.Proofs.Compile.Closed
import Lowering.Proofs.Link.Identity

/-!
# Whatever is compiled can be linked

`Emitter.Keeps` is the invariant of compiling: from a sealed state, an emitter whose context is
within the territory leaves a sealed state, also where it fails, and the op-lines that it returns
are an emission without exits. It holds of every emitter that is built (`Built.keeps`).

`CompilerRun` is a run of calls on one compiler, and `CompilerRun.linkable` says that what any of
them has returned can be linked at any later time: the slots that can be found from it are within
the territory, so all op-lines in them are sound.
-/

namespace Lowering

open CompileM Emitter

namespace Territory

variable {territory : Territory} {state state' : CompileState} {exits : List OpId} {first : Nat}
  {ops more : List OpLine}

/-- How an emitter may end: op-lines under the handles handed out since the one numbered `first`, in
a sealed state. -/
structure Emits (territory : Territory) (exits : List OpId) (first : Nat) (ops : List OpLine)
    (state : CompileState) : Prop where
  isSealed : territory.Sealed state
  le : first ≤ state.issued
  emission : territory.Emission (fun n => first ≤ n ∧ n < state.issued) state.issued exits ops

/-- How an emitter may fail: in a sealed state. -/
structure Fails (territory : Territory) (first : Nat) (state : CompileState) : Prop where
  isSealed : territory.Sealed state
  le : first ≤ state.issued

namespace Emits

/-- An emitter may return nothing and leave the state as it is. -/
theorem nil (h : territory.Sealed state) : territory.Emits exits state.issued [] state :=
  ⟨h, le_rfl, .nil⟩

/-- Op-lines and then others. -/
theorem append (h : territory.Emits exits first ops state)
    (h' : territory.Emits exits state.issued more state') :
    territory.Emits exits first (ops ++ more) state' := by
  have hle := h.le
  have hle' := h'.le
  refine ⟨h'.isSealed, hle.trans hle', ?_⟩
  have hops := h.emission.mono (fun _ hn => hn) hle' (List.Subset.refl exits)
  refine (hops.append h'.emission fun n hn hn' => ?_).mono (fun n hn => ?_) le_rfl
    (List.Subset.refl exits)
  · omega
  · omega

/-- Op-lines with nothing behind them in a later state. -/
theorem later (h : territory.Emits exits first ops state) (hsealed : territory.Sealed state')
    (hissued : state'.issued = state.issued) : territory.Emits exits first ops state' := by
  refine ⟨hsealed, by rw [hissued]; exact h.le, ?_⟩
  rw [hissued]
  exact h.emission

/-- One op-line that is no jump, under the next handle. -/
theorem single {op : Op} (hsealed : territory.Sealed state')
    (hissued : state'.issued = state.issued + 1) (hjump : op.target? = none)
    (hbodies : ∀ body ∈ op.bodies, Sound state'.issued body)
    (howned : ∀ slot ∈ op.slots, territory.Owns slot) :
    territory.Emits exits state.issued [⟨state.handle, op⟩] state' := by
  refine ⟨hsealed, by omega, ?_⟩
  refine (Emission.single state.issued (by simp [hjump]) hbodies howned).mono (fun n hn => ?_)
    le_rfl (List.Subset.refl exits)
  omega

end Emits

/-- A test, a jump past the statements, the statements, a jump and the label: the code of a branch
and of a loop that tests first. The last jump goes to an exit or back into the test. -/
theorem emits_guard {slot : SlotId} {target : OpId} {test stmts : List OpLine}
    (htest : territory.Emits [] first test state)
    (hstmts : territory.Emits [] (state.issued + 2) stmts state')
    (hslot : territory.Owns slot)
    (htarget : target ∈ exits ∨
      target ∈ handles (test ++ [⟨state.advanced.handle, .jumpIfNot slot state.handle⟩])) :
    territory.Emits exits first
      (test ++ [⟨state.advanced.handle, .jumpIfNot slot state.handle⟩] ++ stmts ++
        [⟨state'.handle, .jumpTo target⟩, ⟨state.handle, .noOp⟩])
      state'.advanced := by
  have hfirst := htest.le
  have hrest := hstmts.le
  refine ⟨hstmts.isSealed.advanced, ?_, ?_⟩
  · simp only [CompileState.advanced_issued]
    omega
  -- The exits of the parts: the label behind them all, the target of the last jump, and the given.
  generalize hall : state.handle :: target :: exits = all
  have hnil : ([] : List OpId) ⊆ all := List.nil_subset all
  have hguard : territory.Emission (· = state.issued + 1) (state'.issued + 1) all
      [⟨state.advanced.handle, .jumpIfNot slot state.handle⟩] :=
    .jump (state.issued + 1) rfl (by simp [← hall]) (by simpa [Op.slots] using hslot)
  have hleave : territory.Emission (· = state'.issued) (state'.issued + 1) all
      [⟨state'.handle, .jumpTo target⟩] :=
    .jump state'.issued rfl (by simp [← hall]) (by simp [Op.slots])
  have hlabel : territory.Emission (· = state.issued) (state'.issued + 1) all
      [⟨state.handle, .noOp⟩] := .label state.issued
  -- All parts under one bound and with the same exits; their numbers lie in different ranges.
  have htest' := htest.emission.mono (fun _ hn => hn)
    (show state.issued ≤ state'.issued + 1 by omega) hnil
  have hstmts' := hstmts.emission.mono (fun _ hn => hn) (Nat.le_succ state'.issued) hnil
  have hlines := (((htest'.append hguard fun n hn hn' => by omega).append hstmts'
    fun n hn hn' => by omega).append (hleave.append hlabel fun n hn hn' => by omega)
    fun n hn hn' => by omega)
  refine (hlines.close ?_).mono (fun n hn => ?_) le_rfl (List.Subset.refl exits)
  · -- The label is the last op-line, and a target in the test is one in the whole.
    intro t ht
    rw [← hall] at ht
    rcases List.mem_cons.mp ht with rfl | ht
    · exact Or.inr (by simp [handles])
    · rcases List.mem_cons.mp ht with rfl | ht
      · refine htarget.imp_right fun hmem => ?_
        unfold handles at hmem ⊢
        simp only [List.map_append, List.mem_append] at hmem ⊢
        exact Or.inl (Or.inl hmem)
      · exact Or.inl ht
  · simp only [CompileState.advanced_issued]
    omega

end Territory

open Territory

variable {territory : Territory}

/-! ## Emitters keep to a territory -/

/-- An emitter keeps to a territory: it adds to it and writes its context, and returns op-lines that
stay within it. -/
def Emitter.Keeps (territory : Territory) (emitter : Emitter) : Prop :=
  ∀ context state, (∀ slot ∈ context, territory.Owns slot) → territory.Sealed state →
    Ends (emitter context) state (territory.Emits [] state.issued)
      (fun _ => territory.Fails state.issued)

/-- What holds after every emission and every failure holds after an emitter that keeps to a
territory. -/
theorem Emitter.Keeps.ends {emitter : Emitter} (h : emitter.Keeps territory)
    {context : Option SlotId} {state : CompileState} {done : List OpLine → CompileState → Prop}
    {failed : CompileError → CompileState → Prop}
    (hcontext : ∀ slot ∈ context, territory.Owns slot) (hsealed : territory.Sealed state)
    (hdone : ∀ ops state', territory.Emits [] state.issued ops state' → done ops state')
    (hfailed : ∀ e state', territory.Fails state.issued state' → failed e state') :
    Ends (emitter context) state done failed :=
  (h context state hcontext hsealed).mono hdone hfailed

/-- No context is within every territory. -/
theorem owns_none (territory : Territory) :
    ∀ slot ∈ (none : Option SlotId), territory.Owns slot := by
  simp

/-- A context that is given is the slot that has to be within the territory. -/
theorem owns_some {slot : SlotId} (h : territory.Owns slot) :
    ∀ other ∈ some slot, territory.Owns other := by
  simpa using h

/-- A piece of code fails if what comes behind its first part does. -/
theorem Territory.Fails.trans {first : Nat} {ops : List OpLine} {state state' : CompileState}
    {exits : List OpId} (h : territory.Emits exits first ops state)
    (h' : territory.Fails state.issued state') : territory.Fails first state' :=
  ⟨h'.isSealed, h.le.trans h'.le⟩

namespace Emitter

/-- No code keeps to every territory. -/
theorem keeps_skip : skip.Keeps territory :=
  fun _ _ _ hsealed => ends_skip.mpr (.nil hsealed)

/-- One piece and then another keep to a territory if each of them does. -/
theorem keeps_append {first second : Emitter} (hfirst : first.Keeps territory)
    (hsecond : second.Keeps territory) : (append first second).Keeps territory := by
  intro context state hcontext hsealed
  rw [ends_append]
  refine hfirst.ends hcontext hsealed (fun ops state₁ hops => ?_) fun _ _ hfails => hfails
  refine hsecond.ends hcontext hops.isSealed (fun more state₂ hmore => ?_)
    fun _ _ hfails => hfails.trans hops
  exact hops.append hmore

/-- An event in front touches no slot. -/
theorem keeps_noting {emitter : Emitter} (event : Event) (h : emitter.Keeps territory) :
    (noting event emitter).Keeps territory := by
  intro context state hcontext hsealed
  rw [ends_noting]
  exact h context (state.noted event) hcontext (hsealed.noted event)

/-- A node that cannot be compiled touches no slot. -/
theorem keeps_unsupported (kind : NodeKind) : (unsupported kind).Keeps territory :=
  fun _ _ _ hsealed => (ends_unsupported kind).mpr ⟨hsealed, le_rfl⟩

/-- A literal without effect touches no slot. -/
theorem keeps_dropped (literal : Scalar) : (dropped literal).Keeps territory := by
  intro context state _ hsealed
  rw [ends_dropped]
  exact .nil (hsealed.noted (.literalDropped literal))

/-- A literal writes its context only. -/
theorem keeps_folded (literal : Scalar) : (folded literal).Keeps territory := by
  intro context state hcontext hsealed
  cases context with
  | none =>
    rw [ends_folded_none]
    exact .nil (hsealed.noted (.literalDropped literal))
  | some slot =>
    rw [ends_folded_some]
    have hwritten : territory.Sealed (state.written slot fun _ => .ofLiteral literal) :=
      hsealed.written fun _ => sealedValue_of_isLiteral literal.toValue_isLiteral
    exact .nil hwritten

/-- A constant writes its context only, and its value names no slots. -/
theorem keeps_constant {literal : Constant} (hliteral : literal.value.IsLiteral) :
    (constant literal).Keeps territory := by
  intro context state hcontext hsealed
  cases context with
  | none =>
    rw [ends_constant_none]
    exact .nil hsealed
  | some slot =>
    rw [ends_constant_some]
    refine (Emits.nil hsealed).later ((hsealed.notedMisplaced _).written fun _ => ?_) (by simp)
    exact sealedValue_of_isLiteral hliteral

/-- An operation on one operand names the slot that it has added for it and the one that it writes.
-/
theorem keeps_unary {operand : Emitter} (kind : UnaryKind) (h : operand.Keeps territory) :
    (unary kind operand).Keeps territory := by
  intro context state hcontext hsealed
  rw [ends_unary]
  refine h.ends (owns_some hsealed.owns_next) hsealed.added_empty (fun ops state₁ hops => ?_)
    fun _ _ hfails => hfails
  refine hops.append (.single (hops.isSealed.withResult context).advanced (by simp)
    (by simp [Op.target?]) (by simp [Op.bodies]) ?_)
  have hresult := hops.isSealed.owns_resultOf hcontext
  simpa [Op.slots] using ⟨hsealed.owns_next, hresult⟩

/-- An operation on two operands names the slots that it has added for them and the one that it
writes. -/
theorem keeps_binary {left right : Emitter} (kind : BinaryKind) (hleft : left.Keeps territory)
    (hright : right.Keeps territory) : (binary kind left right).Keeps territory := by
  intro context state hcontext hsealed
  rw [ends_binary]
  have hop1 := hsealed.owns_next
  have hop2 := hsealed.added_empty.owns_next
  refine hleft.ends (owns_some hop1) hsealed.added_empty.added_empty (fun ops state₁ hops => ?_)
    fun _ _ hfails => hfails
  refine hright.ends (owns_some hop2) hops.isSealed (fun more state₂ hmore => ?_)
    fun _ _ hfails => hfails.trans hops
  refine (hops.append hmore).append (.single (hmore.isSealed.withResult context).advanced (by simp)
    (by simp [Op.target?]) (by simp [Op.bodies]) ?_)
  have hresult := hmore.isSealed.owns_resultOf hcontext
  simpa [Op.slots] using ⟨hop1, hop2, hresult⟩

/-- An argument writes the slot that it has added into its context. -/
theorem keeps_argument {value : Emitter} (h : value.Keeps territory) :
    (argument value).Keeps territory := by
  intro context state hcontext hsealed
  rw [ends_argument]
  refine h.ends (owns_some hsealed.owns_next) hsealed.added_empty (fun ops state₁ hops => ?_)
    fun _ _ hfails => hfails
  cases context with
  | none => exact hops
  | some slot =>
    refine hops.later (hops.isSealed.written fun hslot => ?_) rfl
    refine (hops.isSealed.values slot hslot).push ⟨?_, by simp [Value.sequences]⟩
    simpa [Value.slots] using hsealed.owns_next

/-- Text between the statements names the two slots that it has added. -/
theorem keeps_inlineText {text : Constant} (htext : text.value.IsLiteral) :
    (inlineText text).Keeps territory := by
  intro context state _ hsealed
  rw [ends_inlineText]
  have hvalue : territory.SealedValue state.issued (Cell.ofValue text.value).value :=
    sealedValue_of_isLiteral htext
  have hadded := (hsealed.notedMisplaced text.misplaced).added (by simpa using hvalue)
  refine Emits.single hadded.added_empty.advanced (by simp) (by simp [Op.target?])
    (by simp [Op.bodies]) ?_
  have hop1 := hsealed.owns_next
  have hresult := (hsealed.added hvalue).owns_next
  simpa [Op.slots] using ⟨hop1, hresult⟩

/-- A parameter writes its record into its context, with op-lines whose jumps stay inside. -/
theorem keeps_parameter {default : Emitter} (declaration : Declaration)
    (h : default.Keeps territory) : (parameter declaration default).Keeps territory := by
  intro context state hcontext hsealed
  rw [ends_parameter]
  refine h.ends (owns_some hsealed.owns_next) hsealed.added_empty (fun ops state₁ hops => ?_)
    fun _ _ hfails => hfails
  -- The op-lines of the default leave the sequence for the record, where they are sound.
  have hnone : territory.Emits [] state.issued [] state₁ := ⟨hops.isSealed, hops.le, .nil⟩
  cases context with
  | none => exact hnone
  | some slot =>
    refine hnone.later (hops.isSealed.written fun hslot => ?_) rfl
    refine (hops.isSealed.values slot hslot).push ⟨?_, ?_⟩
    · intro other hother
      rcases List.mem_cons.mp hother with rfl | hother
      · exact hsealed.owns_next
      · exact hops.emission.owned other hother
    · intro lines hlines
      rcases List.mem_cons.mp hlines with rfl | hlines
      · exact hops.emission.sound fun n hn => hn.2
      · exact hops.emission.bodies lines hlines

/-- A function names the slots that it has added, and the jumps of its body stay inside. -/
theorem keeps_function {body name params : Emitter} (hbody : body.Keeps territory)
    (hname : name.Keeps territory) (hparams : params.Keeps territory) :
    (function body name params).Keeps territory := by
  intro context state _ hsealed
  rw [ends_function]
  refine hbody.ends (owns_none territory) hsealed (fun stmts state₁ hstmts => ?_)
    fun _ _ hfails => hfails
  have hslot := hstmts.isSealed.owns_next
  refine hname.ends (owns_some hslot) hstmts.isSealed.added_empty (fun ops state₂ hops => ?_)
    fun _ _ hfails => hfails.trans hstmts
  have hslot' := hops.isSealed.owns_next
  have hliteral : (Cell.ofValue (.array [])).value.IsLiteral := by
    simp [Cell.ofValue, Value.IsLiteral, AllLiteral]
  have hadded : territory.Sealed (state₂.added (.ofValue (.array []))) :=
    hops.isSealed.added (sealedValue_of_isLiteral hliteral)
  refine hparams.ends (owns_some hslot') hadded (fun more state₃ hmore => ?_)
    fun _ _ hfails => (hfails.trans hops).trans hstmts
  -- The body leaves the sequence for its op-line; only its handles stay used.
  have hnone : territory.Emits [] state.issued [] state₁ := ⟨hstmts.isSealed, hstmts.le, .nil⟩
  have hle := hops.le
  have hle' := hmore.le
  refine ((hnone.append hops).append hmore).append
    (.single (hmore.isSealed.noted _).advanced (by simp) (by simp [Op.target?]) ?_ ?_)
  · have hbound : state₁.issued ≤ state₃.issued + 1 := (hle.trans hle').trans (Nat.le_succ _)
    intro lines hlines
    rcases List.mem_cons.mp hlines with rfl | hlines
    · exact (hstmts.emission.sound fun n hn => hn.2).mono hbound
    · exact (hstmts.emission.bodies lines hlines).mono hbound
  · intro other hother
    simp only [Op.slots, List.mem_cons, List.mem_append, List.not_mem_nil, or_false] at hother
    rcases hother with rfl | hother | rfl
    · exact hslot
    · exact hstmts.emission.owned other hother
    · exact hslot'

/-- The code of a guarded branch needs the exit that it is given. -/
theorem ends_guarded_of_keeps {branch : Branch} (exit : OpId) {state : CompileState}
    (hcond : branch.cond.Keeps territory) (hstmts : branch.stmts.Keeps territory)
    (hsealed : territory.Sealed state) :
    Ends (guarded exit branch) state (territory.Emits [exit] state.issued)
      (fun _ => territory.Fails state.issued) := by
  rw [ends_guarded]
  have hslot := hsealed.owns_next
  refine hcond.ends (owns_some hslot) hsealed.added_empty (fun test state₁ htest => ?_)
    fun _ _ hfails => hfails
  refine hstmts.ends (owns_none territory) htest.isSealed.advanced.advanced
    (fun stmts state₂ hstmts => ?_) fun _ _ hfails => ⟨hfails.isSealed, ?_⟩
  · exact emits_guard htest hstmts hslot (Or.inl (List.mem_singleton_self exit))
  · have hle := htest.le
    have hle' := hfails.le
    simp only [CompileState.added_issued, CompileState.advanced_issued] at hle hle'
    omega

/-- Guarded branches keep to a territory, and the only exit that they need is the common one. -/
theorem ends_guardedAll_of_keeps (exit : OpId) {branches : List Branch} {state : CompileState}
    (hcond : ∀ branch ∈ branches, branch.cond.Keeps territory)
    (hstmts : ∀ branch ∈ branches, branch.stmts.Keeps territory)
    (hsealed : territory.Sealed state) :
    Ends (guardedAll exit branches) state (territory.Emits [exit] state.issued)
      (fun _ => territory.Fails state.issued) := by
  induction branches generalizing state with
  | nil => exact .nil hsealed
  | cons branch rest ih =>
    rw [ends_guardedAll_cons]
    refine (ends_guarded_of_keeps exit (hcond branch List.mem_cons_self)
      (hstmts branch List.mem_cons_self) hsealed).mono (fun ops state₁ hops => ?_)
      fun _ _ hfails => hfails
    refine (ih (fun b hb => hcond b (List.mem_cons_of_mem _ hb))
      (fun b hb => hstmts b (List.mem_cons_of_mem _ hb)) hops.isSealed).mono
      (fun more state₂ hmore => ?_) fun _ _ hfails => hfails.trans hops
    exact hops.append hmore

/-- A conditional provides the exit that its branches need. -/
theorem keeps_conditional {branches : List Branch} {otherwise : Emitter}
    (hcond : ∀ branch ∈ branches, branch.cond.Keeps territory)
    (hstmts : ∀ branch ∈ branches, branch.stmts.Keeps territory)
    (hotherwise : otherwise.Keeps territory) :
    (conditional branches otherwise).Keeps territory := by
  intro context state _ hsealed
  rw [ends_conditional]
  have hstart : ∀ {state'}, territory.Fails (state.issued + 1) state' →
      territory.Fails state.issued state' :=
    fun h => ⟨h.isSealed, (Nat.le_succ _).trans h.le⟩
  refine (ends_guardedAll_of_keeps state.handle hcond hstmts hsealed.advanced).mono
    (fun ops state₁ hops => ?_) fun _ _ hfails => hstart hfails
  refine hotherwise.ends (owns_none territory) hops.isSealed (fun more state₂ hmore => ?_)
    fun _ _ hfails => hstart (hfails.trans hops)
  -- The label of the exit got its handle first and stands last.
  have hmore' : territory.Emits [state.handle] state₁.issued more state₂ :=
    ⟨hmore.isSealed, hmore.le, hmore.emission.mono (fun _ hn => hn) le_rfl (List.nil_subset _)⟩
  have hlines := hops.append hmore'
  have hle := hlines.le
  simp only [CompileState.advanced_issued] at hle
  have hlabel : territory.Emission (· = state.issued) state₂.issued [state.handle]
      [⟨state.handle, .noOp⟩] := .label state.issued
  refine ⟨hmore.isSealed, by omega, ?_⟩
  refine ((hlines.emission.append hlabel fun n hn hn' => ?_).mono (fun n hn => ?_) le_rfl
    (List.Subset.refl _)).close ?_
  · simp only [CompileState.advanced_issued] at hn
    omega
  · simp only [CompileState.advanced_issued] at hn
    omega
  · intro target htarget
    obtain rfl := List.mem_singleton.mp htarget
    exact Or.inr (by simp [handles])

/-- The entry of some op-lines is one of them or the fallback. -/
theorem entry_mem (ops : List OpLine) (line : OpLine) :
    entry ops line.id ∈ handles (ops ++ [line]) := by
  cases ops <;> simp [entry, handles]

/-- A loop that tests first provides the labels that it jumps to. -/
theorem keeps_whileLoop {loop : Branch} (hcond : loop.cond.Keeps territory)
    (hstmts : loop.stmts.Keeps territory) : (whileLoop loop).Keeps territory := by
  intro context state _ hsealed
  rw [ends_whileLoop]
  have hslot := hsealed.owns_next
  refine hcond.ends (owns_some hslot) hsealed.added_empty (fun test state₁ htest => ?_)
    fun _ _ hfails => hfails
  refine hstmts.ends (owns_none territory) htest.isSealed.advanced.advanced
    (fun stmts state₂ hstmts => ?_) fun _ _ hfails => ⟨hfails.isSealed, ?_⟩
  · -- The jump back goes to the first op-line of the test, or to the guard where the test has none.
    refine emits_guard htest hstmts hslot (Or.inr ?_)
    exact entry_mem test ⟨state₁.advanced.handle, .jumpIfNot state.heap.next state₁.handle⟩
  · have hle := htest.le
    have hle' := hfails.le
    simp only [CompileState.added_issued, CompileState.advanced_issued] at hle hle'
    omega

/-- A loop that tests last jumps to one of its own op-lines. -/
theorem keeps_doLoop {loop : Branch} (hcond : loop.cond.Keeps territory)
    (hstmts : loop.stmts.Keeps territory) : (doLoop loop).Keeps territory := by
  intro context state _ hsealed
  rw [ends_doLoop]
  have hslot := hsealed.owns_next
  refine hstmts.ends (owns_none territory) hsealed.added_empty (fun stmts state₁ hstmts => ?_)
    fun _ _ hfails => hfails
  refine hcond.ends (owns_some hslot) hstmts.isSealed (fun test state₂ htest => ?_)
    fun _ _ hfails => hfails.trans hstmts
  have hround := hstmts.append htest
  have hle := hround.le
  simp only [CompileState.added_issued] at hle
  -- The jump goes back to the first op-line of the round, or onto itself where the round has none.
  generalize hentry : entry (stmts ++ test) state₂.handle = target
  have hjump : territory.Emission (· = state₂.issued) (state₂.issued + 1) [target]
      [⟨state₂.handle, .jumpIf state.heap.next target⟩] :=
    .jump state₂.issued rfl (List.mem_singleton_self target) (by simpa [Op.slots] using hslot)
  have hround' := hround.emission.mono (fun _ hn => hn) (Nat.le_succ state₂.issued)
    (List.nil_subset [target])
  refine ⟨htest.isSealed.advanced, ?_, ?_⟩
  · simp only [CompileState.advanced_issued]
    omega
  refine ((hround'.append hjump fun n hn hn' => ?_).mono (fun n hn => ?_) le_rfl
    (List.Subset.refl _)).close ?_
  · omega
  · simp only [CompileState.added_issued, CompileState.advanced_issued] at hn ⊢
    omega
  · intro t ht
    obtain rfl := List.mem_singleton.mp ht
    rw [← hentry]
    exact Or.inr (entry_mem (stmts ++ test) ⟨state₂.handle, .jumpIf state.heap.next _⟩)

/-- Every emitter that is built keeps to every territory. -/
theorem Built.keeps {emitter : Emitter} (h : Built emitter) : emitter.Keeps territory := by
  induction h with
  | skip => exact keeps_skip
  | append _ _ hfirst hsecond => exact keeps_append hfirst hsecond
  | noting event _ h => exact keeps_noting event h
  | unsupported kind => exact keeps_unsupported kind
  | dropped literal => exact keeps_dropped literal
  | folded literal => exact keeps_folded literal
  | constant hliteral => exact keeps_constant hliteral
  | unary kind _ h => exact keeps_unary kind h
  | binary kind _ _ hleft hright => exact keeps_binary kind hleft hright
  | argument _ h => exact keeps_argument h
  | inlineText htext => exact keeps_inlineText htext
  | parameter declaration _ h => exact keeps_parameter declaration h
  | function _ _ _ hbody hname hparams => exact keeps_function hbody hname hparams
  | conditional _ _ _ hcond hstmts hotherwise => exact keeps_conditional hcond hstmts hotherwise
  | whileLoop _ _ hcond hstmts => exact keeps_whileLoop hcond hstmts
  | doLoop _ _ hcond hstmts => exact keeps_doLoop hcond hstmts

end Emitter

/-! ## Runs of a compiler -/

/-- A run of calls on one compiler: the slots that serve as contexts, the state that the run has
reached and the op-lines that its calls have returned. A context is empty when the run begins or is
added empty on the way, and each call is made without a context or with one of these; nothing else
writes slots. Calls may fail. -/
inductive CompilerRun : List SlotId → CompileState → List (List OpLine) → Prop where
  | start {contexts : List SlotId} {state : CompileState} :
      (∀ slot ∈ contexts, state.heap.get slot = {}) → CompilerRun contexts state []
  | context {contexts : List SlotId} {state : CompileState} {programs : List (List OpLine)} :
      CompilerRun contexts state programs →
        CompilerRun (state.heap.next :: contexts) (state.added {}) programs
  | compiled {contexts : List SlotId} {state state' : CompileState}
      {programs : List (List OpLine)} {nodes : List Node} {context : Option SlotId}
      {lines : List OpLine} : CompilerRun contexts state programs →
        (∀ slot ∈ context, slot ∈ contexts) →
        (compile nodes context).run.run state = (.ok lines, state') →
        CompilerRun contexts state' (lines :: programs)
  | refused {contexts : List SlotId} {state state' : CompileState}
      {programs : List (List OpLine)} {nodes : List Node} {context : Option SlotId}
      {e : CompileError} : CompilerRun contexts state programs →
        (∀ slot ∈ context, slot ∈ contexts) →
        (compile nodes context).run.run state = (.error e, state') →
        CompilerRun contexts state' programs

/-- What a run keeps: its contexts are within the territory, its state is sealed, and what it has
returned is an emission. -/
structure Territory.Covers (territory : Territory) (contexts : List SlotId) (state : CompileState)
    (programs : List (List OpLine)) : Prop where
  contexts : ∀ slot ∈ contexts, territory.Owns slot
  isSealed : territory.Sealed state
  programs : ∀ lines ∈ programs, territory.Emission (· < state.issued) state.issued [] lines

/-- A run covers at least what it covered before, in every later sealed state. -/
theorem Territory.Covers.later {contexts : List SlotId} {state state' : CompileState}
    {programs : List (List OpLine)} (h : territory.Covers contexts state programs)
    (hsealed : territory.Sealed state') (hle : state.issued ≤ state'.issued) :
    territory.Covers contexts state' programs :=
  ⟨h.contexts, hsealed, fun lines hlines => (h.programs lines hlines).mono
    (fun _ hn => Nat.lt_of_lt_of_le hn hle) hle (List.Subset.refl [])⟩

/-- Every run has a territory. -/
theorem CompilerRun.covered {contexts : List SlotId} {state : CompileState}
    {programs : List (List OpLine)} (h : CompilerRun contexts state programs) :
    ∃ territory : Territory, territory.Covers contexts state programs := by
  induction h with
  | @start contexts state hempty =>
    -- The territory is given the contexts; these and the slots that are not there yet are empty.
    refine ⟨⟨(· ∈ contexts), state.heap.size⟩, fun slot => Or.inl, ⟨le_rfl, ?_⟩, by simp⟩
    intro slot hslot
    have hcell : state.heap.get slot = {} := hslot.elim (hempty slot) Heap.get_of_size_le
    rw [hcell]
    exact sealedValue_of_isLiteral (by simp [Value.IsLiteral])
  | @context contexts state programs _ ih =>
    obtain ⟨territory, hcovers⟩ := ih
    have hlater := hcovers.later hcovers.isSealed.added_empty le_rfl
    refine ⟨territory, ?_, hlater.isSealed, hlater.programs⟩
    intro slot hslot
    rcases List.mem_cons.mp hslot with rfl | hslot
    · exact hcovers.isSealed.owns_next
    · exact hcovers.contexts slot hslot
  | @compiled contexts state state' programs nodes context lines _ hcontext hrun ih =>
    obtain ⟨territory, hcovers⟩ := ih
    have hends := (compile_built nodes).keeps context state
      (fun slot hslot => hcovers.contexts slot (hcontext slot hslot)) hcovers.isSealed
    have hemits := hends.of_run_ok hrun
    have hlater := hcovers.later hemits.isSealed hemits.le
    refine ⟨territory, hlater.contexts, hlater.isSealed, ?_⟩
    intro other hother
    rcases List.mem_cons.mp hother with rfl | hother
    · exact hemits.emission.mono (fun _ hn => hn.2) le_rfl (List.Subset.refl [])
    · exact hlater.programs other hother
  | @refused contexts state state' programs nodes context e _ hcontext hrun ih =>
    obtain ⟨territory, hcovers⟩ := ih
    have hends := (compile_built nodes).keeps context state
      (fun slot hslot => hcovers.contexts slot (hcontext slot hslot)) hcovers.isSealed
    -- What a failed call has left in the slots is sealed as well.
    have hfails := hends.of_run_error hrun
    exact ⟨territory, hcovers.later hfails.isSealed hfails.le⟩

/-- The slots that can be found from slots within a sealed territory are within it. -/
theorem Territory.Sealed.owns_of_reach {state : CompileState} {roots : List SlotId}
    (h : territory.Sealed state) (hroots : ∀ slot ∈ roots, territory.Owns slot)
    {slot : SlotId} (hreach : Reach state.heap roots slot) : territory.Owns slot := by
  induction hreach with
  | root hmem => exact hroots _ hmem
  | content _ hnext ih => exact (h.values _ ih).owned _ hnext

section

variable {contexts : List SlotId} {state : CompileState} {programs : List (List OpLine)}
  {lines : List OpLine}

/-- The op-lines that a run has returned are well-formed, and so are the bodies inside them. -/
theorem CompilerRun.wellFormed (h : CompilerRun contexts state programs)
    (hissued : state.issued ≤ 2 ^ 32) (hlines : lines ∈ programs) :
    ∀ body ∈ lines :: lineBodies lines, WellFormed body := by
  obtain ⟨territory, hcovers⟩ := h.covered
  have hprogram := hcovers.programs lines hlines
  intro body hbody
  rcases List.mem_cons.mp hbody with rfl | hbody
  · exact (hprogram.sound fun _ hn => hn).wellFormed hissued
  · exact (hprogram.bodies body hbody).wellFormed hissued

/-- The op-lines of the records that can be found from what a run has returned are well-formed. -/
theorem CompilerRun.wellFormed_reachable (h : CompilerRun contexts state programs)
    (hissued : state.issued ≤ 2 ^ 32) (hlines : lines ∈ programs) :
    ∀ slot ∈ ReachableSlots state.heap lines,
      ∀ body ∈ (state.heap.get slot).value.sequences, WellFormed body := by
  obtain ⟨territory, hcovers⟩ := h.covered
  intro slot hslot body hbody
  have howns := hcovers.isSealed.owns_of_reach (hcovers.programs lines hlines).owned hslot
  exact ((hcovers.isSealed.values slot howns).sound body hbody).wellFormed hissued

/-- What a run has returned has an image. -/
theorem CompilerRun.exists_image (h : CompilerRun contexts state programs)
    (hissued : state.issued ≤ 2 ^ 32) (hlines : lines ∈ programs) :
    ∃ image, link state.heap lines = .ok image := by
  rcases hlink : link state.heap lines with e | image
  · rcases link_eq_error hlink with ⟨body, hbody, hfault⟩ | ⟨slot, hslot, body, hbody, hfault⟩
    · exact absurd hfault ((h.wellFormed hissued hlines body hbody).no_fault e)
    · exact absurd hfault ((h.wellFormed_reachable hissued hlines slot hslot body hbody).no_fault e)
  · exact ⟨image, rfl⟩

/-- Whatever a run of a compiler has returned can be linked, then and at any later time of the run:
as long as no more handles than there are words have been handed out, each list of op-lines that can
be found from it, at the top level, in a function or in the record of a parameter, has different
handles and jumps within itself, so `link` has no reason to refuse. -/
theorem CompilerRun.linkable (h : CompilerRun contexts state programs)
    (hissued : state.issued ≤ 2 ^ 32) (hlines : lines ∈ programs) :
    (∃ image, link state.heap lines = .ok image) ∧
      (∀ body ∈ lines :: lineBodies lines, WellFormed body) ∧
      ∀ slot ∈ ReachableSlots state.heap lines,
        ∀ body ∈ (state.heap.get slot).value.sequences, WellFormed body :=
  ⟨h.exists_image hissued hlines, h.wellFormed hissued hlines,
    h.wellFormed_reachable hissued hlines⟩

end

/-- A node that fetches a variable. -/
def variableNode (name : String) : Node :=
  ⟨.exprVariable, [], [("name", .scalar (.string name))]⟩

/-- Statements of which the first leaves a record in its context and the second cannot be compiled.
-/
def refusedNodes : List Node :=
  [⟨.param, [], [("default", .node (variableNode "d")), ("name", .scalar (.string "p"))]⟩,
    ⟨.other "Stmt_Goto", [], []⟩]

/-- A loop and a statement whose result goes to the context. -/
def loopNodes : List Node :=
  [⟨.stmtWhile, [], [("cond", .node (variableNode "x"))]⟩, variableNode "z"]

/-- The op-lines of `loopNodes` behind the failure of `refusedNodes` in the same context. -/
def loopLines : List OpLine :=
  [⟨⟨1⟩, .unary .fetchVariable ⟨4⟩ ⟨3⟩⟩, ⟨⟨3⟩, .jumpIfNot ⟨3⟩ ⟨2⟩⟩, ⟨⟨4⟩, .jumpTo ⟨1⟩⟩,
    ⟨⟨2⟩, .noOp⟩, ⟨⟨5⟩, .unary .fetchVariable ⟨5⟩ ⟨0⟩⟩]

/-- The state behind the failure of `refusedNodes` in a new context. -/
def refusedState : CompileState :=
  ((compile refusedNodes (some ⟨0⟩)).run.run (CompileState.added {} {})).2

/-- The state behind `loopNodes` in the same context. -/
def loopState : CompileState :=
  ((compile loopNodes (some ⟨0⟩)).run.run refusedState).2

/-- What is compiled behind a failure can be linked, with the record that the failed call left in
the context. -/
theorem CompilerRun.linkable_after_failure :
    (∃ image, link loopState.heap loopLines = .ok image) ∧
      (∀ body ∈ loopLines :: lineBodies loopLines, WellFormed body) ∧
      ∀ slot ∈ ReachableSlots loopState.heap loopLines,
        ∀ body ∈ (loopState.heap.get slot).value.sequences, WellFormed body := by
  have hstart : CompilerRun [] {} [] := .start (by simp)
  have hrefused : (compile refusedNodes (some ⟨0⟩)).run.run (CompileState.added {} {}) =
      (.error (.unsupported "Stmt_Goto"), refusedState) := rfl
  have hcompiled : (compile loopNodes (some ⟨0⟩)).run.run refusedState =
      (.ok loopLines, loopState) := Prod.ext rfl (by rw [loopState])
  have hissued : loopState.issued = 6 := rfl
  have hcontext : ∀ slot ∈ some (⟨0⟩ : SlotId), slot ∈ [(⟨0⟩ : SlotId)] := by simp
  have hrun := (hstart.context.refused hcontext hrefused).compiled hcontext hcompiled
  exact hrun.linkable (by rw [hissued]; norm_num) List.mem_cons_self

end Lowering
