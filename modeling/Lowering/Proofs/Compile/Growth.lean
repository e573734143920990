import Lowering.Proofs.Compile.Closed

/-!
# What compiling does to a heap

An emitter adds slots to the heap and writes its context. `Heap.Grows` says so of the heaps before
and after: no other slot changes, a slot that was added names only slots that were added behind it,
and the context comes to name nothing but slots that were added. Growth in one context can be
followed by growth in another, as long as that is the same context or a slot added on the way
(`Grows.trans`); each emitter is a chain of such steps. `Built.extends` is the result: every emitter
makes the heap grow, also where it fails, and its op-lines name its context and slots that it added.
-/

namespace Lowering

open CompileM Emitter

namespace Heap

/-- What an emitter may name: its context, and slots added between two heaps. -/
def Spans (context : Option SlotId) (before after : Heap) (slot : SlotId) : Prop :=
  slot ∈ context ∨ (before.size ≤ slot.index ∧ slot.index < after.size)

/-- A slot was added between two heaps. -/
def Added (before after : Heap) (slot : SlotId) : Prop :=
  before.size ≤ slot.index ∧ slot.index < after.size

/-- How a heap changes when an emitter runs in a context that is there. -/
structure Grows (context : Option SlotId) (before after : Heap) : Prop where
  there : ∀ slot ∈ context, slot.index < before.size
  size_le : before.size ≤ after.size
  frame : ∀ slot, slot.index < before.size → slot ∉ context → after.get slot = before.get slot
  newer : ∀ slot, before.size ≤ slot.index →
    ∀ next ∈ after.slotsOf slot, slot.index < next.index ∧ next.index < after.size
  named : ∀ slot ∈ context, ∀ next ∈ after.slotsOf slot,
    next ∈ before.slotsOf slot ∨ (before.size ≤ next.index ∧ next.index < after.size)

variable {context context' : Option SlotId} {before between after : Heap} {cell : Cell}
  {slot : SlotId}

namespace Spans

/-- What was added up to one heap was added up to a later one. -/
theorem later (h : Spans context before between slot) (hle : between.size ≤ after.size) :
    Spans context before after slot :=
  h.imp_right fun hslot => ⟨hslot.1, Nat.lt_of_lt_of_le hslot.2 hle⟩

/-- What spans the second of two steps spans both. -/
theorem trans (h : Spans context' between after slot)
    (hcontext : ∀ slot ∈ context', Spans context before between slot)
    (hle : before.size ≤ between.size) (hle' : between.size ≤ after.size) :
    Spans context before after slot := by
  rcases h with hslot | ⟨hslot, hlt⟩
  · exact (hcontext slot hslot).later hle'
  · exact Or.inr ⟨hle.trans hslot, hlt⟩

/-- A slot that is added. -/
theorem next (hle : before.size ≤ between.size) (cell : Cell) :
    Spans context before (between.add cell) between.next := by
  refine Or.inr ⟨hle, ?_⟩
  rw [size_add]
  exact Nat.lt_succ_self _

end Spans

namespace Grows

/-- A slot that is not there names nothing. -/
theorem slotsOf_of_size_le (h : before.size ≤ slot.index) : before.slotsOf slot = [] := by
  rw [slotsOf, get_of_size_le h, Value.slots]
  all_goals simp

/-- A heap grows from itself by nothing. -/
theorem refl {heap : Heap} (there : ∀ slot ∈ context, slot.index < heap.size) :
    Grows context heap heap where
  there := there
  size_le := le_rfl
  frame := fun _ _ _ => rfl
  newer := by
    intro slot hslot next hnext
    rw [slotsOf_of_size_le hslot] at hnext
    cases hnext
  named := fun _ _ _ hnext => Or.inl hnext

/-- What an emitter may name is there. -/
theorem lt_size (h : Grows context before after) (hslot : Spans context before after slot) :
    slot.index < after.size := by
  rcases hslot with hslot | hslot
  · exact Nat.lt_of_lt_of_le (h.there slot hslot) h.size_le
  · exact hslot.2

/-- Growth in one context and then in another, which is the same or was added on the way. -/
theorem trans (h : Grows context before between) (h' : Grows context' between after)
    (hcontext : ∀ slot ∈ context', Spans context before between slot) :
    Grows context before after := by
  have hle := h.size_le
  have hle' := h'.size_le
  refine ⟨h.there, hle.trans hle', fun slot hslot hnot => ?_, fun slot hslot next hnext => ?_,
    fun slot hslot next hnext => ?_⟩
  · -- A slot from before that is not the first context is not the second.
    have hnot' : slot ∉ context' := fun hmem =>
      (hcontext slot hmem).elim hnot fun hadded => by omega
    rw [h'.frame slot (by omega) hnot', h.frame slot hslot hnot]
  · -- A slot added by the first step may be the context of the second, and then names newer slots.
    by_cases hadded : between.size ≤ slot.index
    · exact h'.newer slot hadded next hnext
    · by_cases hmem : slot ∈ context'
      · rcases h'.named slot hmem next hnext with hold | hnew
        · have hnext' := h.newer slot hslot next hold
          omega
        · omega
      · rw [slotsOf, h'.frame slot (by omega) hmem] at hnext
        have hnext' := h.newer slot hslot next hnext
        omega
  · by_cases hadded : between.size ≤ slot.index
    · have hnext' := h'.newer slot hadded next hnext
      exact Or.inr (by omega)
    · have hold : next ∈ between.slotsOf slot ∨
          (between.size ≤ next.index ∧ next.index < after.size) := by
        by_cases hmem : slot ∈ context'
        · exact h'.named slot hmem next hnext
        · rw [slotsOf, h'.frame slot (by omega) hmem] at hnext
          exact Or.inl hnext
      rcases hold with hold | hnew
      · rcases h.named slot hslot next hold with hold | hnew
        · exact Or.inl hold
        · exact Or.inr (by omega)
      · exact Or.inr (by omega)

/-- Adding a slot that names nothing. -/
theorem add (heap : Heap) (hcell : cell.value.slots = []) : Grows none heap (heap.add cell) := by
  have hslots : ∀ slot, (heap.add cell).slotsOf slot = heap.slotsOf slot ∨
      (heap.add cell).slotsOf slot = [] := by
    intro slot
    rw [slotsOf, get_add]
    split
    · exact Or.inr hcell
    · exact Or.inl rfl
  refine ⟨by simp, ?_, fun slot hslot _ => get_add_of_lt cell hslot,
    fun slot hslot next hnext => ?_, by simp⟩
  · rw [size_add]
    exact Nat.le_succ _
  · rcases hslots slot with heq | heq <;> rw [heq] at hnext
    · rw [slotsOf_of_size_le hslot] at hnext
      cases hnext
    · cases hnext

/-- Writing the context with something that names no more than it did and slots that were added. -/
theorem modify (h : Grows context before after) (hslot : slot ∈ context) {change : Cell → Cell}
    (hchange : ∀ next ∈ (change (after.get slot)).value.slots, next ∈ after.slotsOf slot ∨
      (before.size ≤ next.index ∧ next.index < after.size)) :
    Grows context before (after.modify slot change) := by
  have hlt := h.there slot hslot
  refine ⟨h.there, ?_, fun other hother hnot => ?_, fun other hother next hnext => ?_,
    fun other hother next hnext => ?_⟩
  · rw [size_modify]
    exact h.size_le
  -- The frame and the newer slots do not speak of the slot that is changed.
  · have hne : ¬ (slot = other ∧ slot.index < after.size) := by
      rintro ⟨rfl, -⟩
      exact hnot hslot
    rw [get_modify, if_neg hne]
    exact h.frame other hother hnot
  · have hne : ¬ (slot = other ∧ slot.index < after.size) := by
      rintro ⟨rfl, -⟩
      omega
    rw [slotsOf, get_modify, if_neg hne] at hnext
    rw [size_modify]
    exact h.newer other hother next hnext
  · rw [slotsOf, get_modify] at hnext
    rw [size_modify]
    -- What the changed slot names was named before or is what the change brings.
    split at hnext
    · next heq =>
      obtain ⟨rfl, -⟩ := heq
      rcases hchange next hnext with hold | hnew
      · exact h.named slot hslot next hold
      · exact Or.inr hnew
    · exact h.named other hother next hnext

end Grows

/-- The slots of a cell after something has been appended to it. -/
theorem mem_slots_push {element : Value} {next : SlotId}
    (h : next ∈ (cell.push element).value.slots) :
    next ∈ cell.value.slots ∨ next ∈ element.slots := by
  obtain ⟨value, type⟩ := cell
  simp only [Cell.push, Value.slots, Territory.valueSlots_append, valueSlots, List.append_nil] at h
  refine (List.mem_append.mp h).imp_left fun hold => ?_
  cases value <;> simp_all [Value.elements, Value.slots, valueSlots]

/-- How an emitter stands: the heap has grown, and it may name given slots. -/
structure Adds (context : Option SlotId) (before : Heap) (slots : List SlotId) (after : Heap) :
    Prop where
  grows : Grows context before after
  spans : ∀ slot ∈ slots, Spans context before after slot

namespace Adds

variable {slots slots' : List SlotId}

/-- Nothing has been done. -/
theorem start (there : ∀ slot ∈ context, slot.index < before.size) :
    Adds context before [] before :=
  ⟨.refl there, by simp⟩

/-- An emitter that may name some slots may name fewer. -/
theorem mono (h : Adds context before slots after) (hsub : slots' ⊆ slots) :
    Adds context before slots' after :=
  ⟨h.grows, fun slot hslot => h.spans slot (hsub hslot)⟩

/-- One step and then another, whose context is the same or may be named by then. -/
theorem append (h : Adds context before slots between) (h' : Adds context' between slots' after)
    (hcontext : ∀ slot ∈ context', slot ∈ context ∨ slot ∈ slots) :
    Adds context before (slots ++ slots') after := by
  have hspans : ∀ slot ∈ context', Spans context before between slot := fun slot hslot =>
    (hcontext slot hslot).elim Or.inl (h.spans slot)
  refine ⟨h.grows.trans h'.grows hspans, List.forall_mem_append.mpr ⟨?_, ?_⟩⟩
  · exact fun slot hslot => (h.spans slot hslot).later h'.grows.size_le
  · exact fun slot hslot => (h'.spans slot hslot).trans hspans h.grows.size_le h'.grows.size_le

/-- One more slot, which names nothing. -/
theorem add (h : Adds context before slots between) (hcell : cell.value.slots = []) :
    Adds context before (slots ++ [between.next]) (between.add cell) := by
  refine h.append ⟨Grows.add between hcell, ?_⟩ (by simp)
  simpa using Spans.next le_rfl cell

/-- An emitter may name the slot that it adds. -/
theorem add_empty (h : Adds context before slots between) :
    Adds context before (slots ++ [between.next]) (between.add {}) :=
  h.add (by simp [Value.slots])

/-- What is done without a context may be done in any. -/
theorem inContext (h : Adds none before slots after)
    (there : ∀ slot ∈ context, slot.index < before.size) : Adds context before slots after :=
  (Adds.start there).append h (by simp)

/-- Something that was made without the context is appended to what the context holds. -/
theorem push {element : Value} (h : Adds none before slots after)
    (hslot : slot.index < before.size) (helement : element.slots ⊆ slots) :
    Adds (some slot) before slots (after.modify slot (.push element)) := by
  have hadds : Adds (some slot) before slots after := h.inContext (by simpa using hslot)
  refine ⟨hadds.grows.modify rfl fun next hnext => ?_, fun next hnext => ?_⟩
  · refine (mem_slots_push hnext).imp_right fun hmem => ?_
    exact (h.spans next (helement hmem)).resolve_left (by simp)
  · refine (hadds.spans next hnext).later ?_
    rw [size_modify]

end Adds

end Heap

open Heap

/-! ## Emitters -/

/-- An emitter makes the heap grow, and its op-lines name its context and what it added. -/
def Emitter.Extends (emitter : Emitter) : Prop :=
  ∀ context state, (∀ slot ∈ context, slot.index < state.heap.size) →
    Ends (emitter context) state
      (fun ops after => Adds context state.heap (lineSlots ops) after.heap)
      (fun _ after => Grows context state.heap after.heap)

/-- An emitter that runs behind other steps, in their context or in a slot that they may name. -/
theorem Emitter.Extends.ends {emitter : Emitter} (h : emitter.Extends)
    {context context' : Option SlotId} {state : CompileState} {before : Heap} {slots : List SlotId}
    {done : List OpLine → CompileState → Prop} {failed : CompileError → CompileState → Prop}
    (hslots : Adds context before slots state.heap)
    (hcontext : ∀ slot ∈ context', slot ∈ context ∨ slot ∈ slots)
    (hdone : ∀ ops after, Adds context before (slots ++ lineSlots ops) after.heap → done ops after)
    (hfailed : ∀ e after, Grows context before after.heap → failed e after) :
    Ends (emitter context') state done failed := by
  have hspans : ∀ slot ∈ context', Spans context before state.heap slot := fun slot hslot =>
    (hcontext slot hslot).elim Or.inl (hslots.spans slot)
  have hthere : ∀ slot ∈ context', slot.index < state.heap.size := fun slot hslot =>
    hslots.grows.lt_size (hspans slot hslot)
  refine (h context' state hthere).mono (fun ops after hops => ?_) fun e after hgrows => ?_
  · exact hdone ops after (hslots.append hops hcontext)
  · exact hfailed e after (hslots.grows.trans hgrows hspans)

namespace Emitter

variable {context : Option SlotId} {state : CompileState} {before : Heap} {slots : List SlotId}

/-- The slot of a result may be named once it is taken. -/
theorem adds_withResult (h : Adds context before slots state.heap) :
    Adds context before (slots ++ [state.resultOf context]) (state.withResult context).heap := by
  cases context with
  | none => exact h.add_empty
  | some slot =>
    refine ⟨h.grows, List.forall_mem_append.mpr ⟨h.spans, ?_⟩⟩
    exact List.forall_mem_singleton.mpr (Or.inl rfl)

/-- A literal in place of what the context holds. -/
theorem adds_written {slot : SlotId} {cell : Cell} (hcell : cell.value.IsLiteral)
    (hslot : slot.index < before.size) :
    Adds (some slot) before [] (before.modify slot fun _ => cell) := by
  have hthere : ∀ other ∈ some slot, other.index < before.size := by simpa using hslot
  refine ⟨(Grows.refl hthere).modify rfl fun next hnext => ?_, by simp⟩
  rw [(Territory.slots_of_isLiteral _ hcell).1] at hnext
  cases hnext

/-- No code adds nothing. -/
theorem extends_skip : skip.Extends :=
  fun _ _ hcontext => ends_skip.mpr (.start hcontext)

/-- One piece and then another name what either of them names. -/
theorem extends_append {first second : Emitter} (hfirst : first.Extends)
    (hsecond : second.Extends) : (append first second).Extends := by
  intro context state hcontext
  rw [ends_append]
  refine hfirst.ends (.start hcontext) (fun _ => Or.inl) (fun ops state₁ hops => ?_)
    fun _ _ hfails => hfails
  refine hsecond.ends hops (fun _ => Or.inl) (fun more state₂ hmore => ?_) fun _ _ hfails => hfails
  rw [lineSlots_append]
  exact hmore

/-- An event in front names no slot. -/
theorem extends_noting {emitter : Emitter} (event : Event) (h : emitter.Extends) :
    (noting event emitter).Extends := by
  intro context state hcontext
  rw [ends_noting]
  exact h context (state.noted event) hcontext

/-- A node that cannot be compiled leaves the heap as it is. -/
theorem extends_unsupported (kind : NodeKind) : (unsupported kind).Extends :=
  fun _ _ hcontext => (ends_unsupported kind).mpr (.refl hcontext)

/-- A literal without effect leaves the heap as it is. -/
theorem extends_dropped (literal : Scalar) : (dropped literal).Extends := by
  intro context state hcontext
  rw [ends_dropped]
  exact .start hcontext

/-- A literal touches no slot but the context. -/
theorem extends_folded (literal : Scalar) : (folded literal).Extends := by
  intro context state hcontext
  cases context with
  | none =>
    rw [ends_folded_none]
    exact .start hcontext
  | some slot =>
    rw [ends_folded_some]
    exact adds_written literal.toValue_isLiteral (hcontext slot rfl)

/-- A constant touches no slot but the context, and a value of literals names none. -/
theorem extends_constant {literal : Constant} (hliteral : literal.value.IsLiteral) :
    (constant literal).Extends := by
  intro context state hcontext
  cases context with
  | none =>
    rw [ends_constant_none]
    exact .start hcontext
  | some slot =>
    rw [ends_constant_some, CompileState.written_heap, CompileState.notedMisplaced_heap]
    exact adds_written hliteral (hcontext slot rfl)

/-- An operation on one operand adds a slot for it, and for its result unless there is a context. -/
theorem extends_unary {operand : Emitter} (kind : UnaryKind) (h : operand.Extends) :
    (unary kind operand).Extends := by
  intro context state hcontext
  rw [ends_unary]
  refine h.ends (Adds.start hcontext).add_empty (by simp) (fun ops state₁ hops => ?_)
    fun _ _ hfails => hfails
  refine (adds_withResult hops).mono fun slot hslot => ?_
  simp only [lineSlots_append, lineSlots, Op.slots, List.mem_append, List.mem_cons] at hslot ⊢
  tauto

/-- An operation on two operands adds slots for them, and for its result unless there is a context.
-/
theorem extends_binary {left right : Emitter} (kind : BinaryKind) (hleft : left.Extends)
    (hright : right.Extends) : (binary kind left right).Extends := by
  intro context state hcontext
  rw [ends_binary]
  refine hleft.ends (Adds.start hcontext).add_empty.add_empty (by simp) (fun ops state₁ hops => ?_)
    fun _ _ hfails => hfails
  refine hright.ends hops (by simp) (fun more state₂ hmore => ?_) fun _ _ hfails => hfails
  refine (adds_withResult hmore).mono fun slot hslot => ?_
  simp only [lineSlots_append, lineSlots, Op.slots, List.mem_append, List.mem_cons,
    CompileState.added_heap] at hslot ⊢
  tauto

/-- An argument adds a slot for its value and leaves it in the context. -/
theorem extends_argument {value : Emitter} (h : value.Extends) : (argument value).Extends := by
  intro context state hcontext
  rw [ends_argument]
  have hnone : Adds none state.heap [] state.heap := .start (by simp)
  refine h.ends hnone.add_empty (by simp) (fun ops state₁ hops => ?_)
    fun _ _ hfails => (Grows.refl hcontext).trans hfails (by simp)
  cases context with
  | none => exact hops.mono (List.subset_append_right _ _)
  | some target =>
    refine (hops.push (hcontext target rfl) ?_).mono (List.subset_append_right _ _)
    simp [Value.slots]

/-- Text between the statements adds a slot for itself and one for its echo. -/
theorem extends_inlineText {text : Constant} (htext : text.value.IsLiteral) :
    (inlineText text).Extends := by
  intro context state hcontext
  rw [ends_inlineText]
  simp only [CompileState.advanced_heap, CompileState.added_heap, CompileState.notedMisplaced_heap]
  have hcell : (Cell.ofValue text.value).value.slots = [] :=
    (Territory.slots_of_isLiteral _ htext).1
  refine ((Adds.start hcontext).add hcell).add_empty.mono fun slot hslot => ?_
  simpa [lineSlots, Op.slots] using hslot

/-- A parameter adds a slot for its default value, and the record that it leaves names only what it
has added. -/
theorem extends_parameter {default : Emitter} (declaration : Declaration) (h : default.Extends) :
    (parameter declaration default).Extends := by
  intro context state hcontext
  rw [ends_parameter]
  have hnone : Adds none state.heap [] state.heap := .start (by simp)
  refine h.ends hnone.add_empty (by simp) (fun ops state₁ hops => ?_)
    fun _ _ hfails => (Grows.refl hcontext).trans hfails (by simp)
  cases context with
  | none => exact hops.mono (List.nil_subset _)
  | some target =>
    refine (hops.push (hcontext target rfl) ?_).mono (List.nil_subset _)
    simp [Value.slots]

/-- A function adds slots for its name and its parameters behind what its body adds. -/
theorem extends_function {body name params : Emitter} (hbody : body.Extends)
    (hname : name.Extends) (hparams : params.Extends) : (function body name params).Extends := by
  intro context state hcontext
  rw [ends_function]
  refine hbody.ends (.start hcontext) (by simp) (fun stmts state₁ hstmts => ?_)
    fun _ _ hfails => hfails
  refine hname.ends hstmts.add_empty (by simp) (fun ops state₂ hops => ?_) fun _ _ hfails => hfails
  have hcell : (Cell.ofValue (.array [])).value.slots = [] := by
    simp [Cell.ofValue, Value.slots, valueSlots]
  refine hparams.ends (hops.add hcell) (by simp) (fun more state₃ hmore => ?_)
    fun _ _ hfails => hfails
  -- The op-line names the two slots and whatever its body names.
  refine hmore.mono fun slot hslot => ?_
  simp only [lineSlots_append, lineSlots, Op.slots, List.mem_append, List.mem_cons] at hslot ⊢
  tauto

/-- A guarded branch adds a slot for its test and whatever its two parts add. -/
theorem extends_guardedTo {branch : Branch} (target : List OpLine → OpLine → OpId)
    (hcond : branch.cond.Extends) (hstmts : branch.stmts.Extends) :
    Extends fun _ => guardedTo target branch := by
  intro context state hcontext
  rw [ends_guardedTo]
  refine hcond.ends (Adds.start hcontext).add_empty (by simp) (fun test state₁ htest => ?_)
    fun _ _ hfails => hfails
  refine hstmts.ends htest (by simp) (fun stmts state₂ hstmts => ?_) fun _ _ hfails => hfails
  refine hstmts.mono fun slot hslot => ?_
  simp only [lineSlots_append, lineSlots, Op.slots, List.mem_append, List.mem_cons] at hslot ⊢
  tauto

/-- A loop that tests first adds what its guarded statements add. -/
theorem extends_whileLoop {loop : Branch} (hcond : loop.cond.Extends)
    (hstmts : loop.stmts.Extends) : (whileLoop loop).Extends := by
  rw [whileLoop_eq_guardedTo]
  exact extends_guardedTo _ hcond hstmts

/-- A loop that tests last adds a slot for its test and whatever its two parts add. -/
theorem extends_doLoop {loop : Branch} (hcond : loop.cond.Extends) (hstmts : loop.stmts.Extends) :
    (doLoop loop).Extends := by
  intro context state hcontext
  rw [ends_doLoop]
  refine hstmts.ends (Adds.start hcontext).add_empty (by simp) (fun stmts state₁ hstmts => ?_)
    fun _ _ hfails => hfails
  refine hcond.ends hstmts (by simp) (fun test state₂ htest => ?_) fun _ _ hfails => hfails
  refine htest.mono fun slot hslot => ?_
  simp only [lineSlots_append, lineSlots, Op.slots, List.mem_append, List.mem_cons] at hslot ⊢
  tauto

/-- A conditional adds what its branches and the statements behind them add. -/
theorem extends_conditional {branches : List Branch} {otherwise : Emitter}
    (hcond : ∀ branch ∈ branches, branch.cond.Extends)
    (hstmts : ∀ branch ∈ branches, branch.stmts.Extends) (hotherwise : otherwise.Extends) :
    (conditional branches otherwise).Extends := by
  intro context state hcontext
  rw [ends_conditional]
  have hguarded : Extends fun _ => guardedAll state.handle branches :=
    guardedAll_induction Extends extends_skip extends_append state.handle fun branch hbranch =>
      extends_guardedTo _ (hcond branch hbranch) (hstmts branch hbranch)
  refine @Extends.ends _ hguarded _ none state.advanced _ _ _ _ (.start hcontext) (by simp)
    (fun ops state₁ hops => ?_) fun _ _ hfails => hfails
  refine hotherwise.ends hops (by simp) (fun more state₂ hmore => ?_) fun _ _ hfails => hfails
  refine hmore.mono fun slot hslot => ?_
  simpa [lineSlots_append, lineSlots, Op.slots] using hslot

/-- Every emitter that is built makes the heap grow. -/
theorem Built.extends {emitter : Emitter} (h : Built emitter) : emitter.Extends := by
  induction h with
  | skip => exact extends_skip
  | append _ _ hfirst hsecond => exact extends_append hfirst hsecond
  | noting event _ h => exact extends_noting event h
  | unsupported kind => exact extends_unsupported kind
  | dropped literal => exact extends_dropped literal
  | folded literal => exact extends_folded literal
  | constant hliteral => exact extends_constant hliteral
  | unary kind _ h => exact extends_unary kind h
  | binary kind _ _ hleft hright => exact extends_binary kind hleft hright
  | argument _ h => exact extends_argument h
  | inlineText htext => exact extends_inlineText htext
  | parameter declaration _ h => exact extends_parameter declaration h
  | function _ _ _ hbody hname hparams => exact extends_function hbody hname hparams
  | conditional _ _ _ hcond hstmts hotherwise => exact extends_conditional hcond hstmts hotherwise
  | whileLoop _ _ hcond hstmts => exact extends_whileLoop hcond hstmts
  | doLoop _ _ hcond hstmts => exact extends_doLoop hcond hstmts

end Emitter

end Lowering
