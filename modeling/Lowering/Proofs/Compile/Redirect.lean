import Lowering.Proofs.Compile.Composition

/-!
# Results that go elsewhere

One compiler adds a slot for a result where another is given a slot to write. `Moves` says of two
steps that they have added the same slots behind two heaps: a step that is uniform does so behind
any two states in which the same handle comes next (`alike_moves`), because both runs are renamed
copies of the run of a new compiler. `Redirects` lets one of the heaps have slots that the other
lacks: these are empty, and a slot that was there before, the context, has taken their place. It is
kept by whatever the two compilers do next (`Redirects.trans`), and the slots that are added later
are renamed in another way.
-/

namespace Lowering

open CompileM Emitter

/-! ## The same step in two places -/

/-- Two steps that end like a third end alike. -/
theorem CompileM.Alike.of_third {α β γ : Type} {step : CompileM α} {first : CompileM β}
    {second : CompileM γ} {state state₁ state₂ : CompileState}
    {done₁ : α → β → CompileState → CompileState → Prop}
    {done₂ : α → γ → CompileState → CompileState → Prop}
    {done : β → γ → CompileState → CompileState → Prop}
    (h₁ : Alike step first state state₁ done₁) (h₂ : Alike step second state state₂ done₂)
    (h : ∀ a b c after after₁ after₂, done₁ a b after after₁ → done₂ a c after after₂ →
      done b c after₁ after₂) : Alike first second state₁ state₂ done := by
  unfold Alike
  rcases hrun : step.run.run state with ⟨e | a, after⟩
  · obtain ⟨after₁, hrun₁⟩ := h₁.of_run_error hrun
    obtain ⟨after₂, hrun₂⟩ := h₂.of_run_error hrun
    rw [hrun₁, hrun₂]
  · obtain ⟨b, after₁, hrun₁, hdone₁⟩ := h₁.of_run_ok hrun
    obtain ⟨c, after₂, hrun₂, hdone₂⟩ := h₂.of_run_ok hrun
    rw [hrun₁, hrun₂]
    exact h a b c after after₁ after₂ hdone₁ hdone₂

/-- What holds of two runs that succeed alike may be weakened, with both runs at hand. -/
theorem CompileM.Alike.mono_of_runs {α α' : Type} {step : CompileM α} {step' : CompileM α'}
    {state state' : CompileState} {done done' : α → α' → CompileState → CompileState → Prop}
    (h : Alike step step' state state' done)
    (hdone : ∀ a a' after after', step.run.run state = (.ok a, after) →
      step'.run.run state' = (.ok a', after') → done a a' after after' →
        done' a a' after after') : Alike step step' state state' done' := by
  unfold Alike at h ⊢
  rcases hrun : step.run.run state with ⟨e | a, after⟩ <;>
    rcases hrun' : step'.run.run state' with ⟨e' | a', after'⟩ <;> rw [hrun, hrun'] at h
  · exact h
  · exact h
  · exact h
  · exact hdone a a' after after' hrun hrun' h

/-- What two steps that end alike have returned. -/
theorem CompileM.Alike.runs {α α' : Type} {step : CompileM α} {step' : CompileM α'}
    {state state' : CompileState} {done : α → α' → CompileState → CompileState → Prop}
    (h : Alike step step' state state' done) :
    Alike step step' state state' fun a a' after after' =>
      step.run.run state = (.ok a, after) ∧ step'.run.run state' = (.ok a', after') ∧
        done a a' after after' :=
  h.mono_of_runs fun _ _ _ _ hrun hrun' hdone => ⟨hrun, hrun', hdone⟩

/-- A slot moved from behind a number of slots to behind another. -/
def SlotId.moved (count count' : Nat) (slot : SlotId) : SlotId :=
  ⟨count' + (slot.index - count)⟩

/-- The slots to come in one heap take the place of those to come in another. -/
def Renaming.between (heap heap' : Heap) : Renaming :=
  .ofSlots (.moved heap.size heap'.size)

/-- What has been added behind one state has been added behind another as well. -/
structure Moves (before before' after after' : CompileState) : Prop where
  handle : after'.handle = after.handle
  size : ∃ count, after.heap.size = before.heap.size + count ∧
    after'.heap.size = before'.heap.size + count
  cells : ∀ slot : SlotId, before.heap.size ≤ slot.index →
    after'.heap.get (slot.moved before.heap.size before'.heap.size) =
      (after.heap.get slot).renamed (.between before.heap before'.heap)

/-- Where nothing is added, nothing moves. -/
theorem Moves.refl {state state' after' : CompileState} (hhandle : after'.handle = state.handle)
    (hheap : after'.heap = state'.heap) : Moves state state' state after' := by
  refine ⟨hhandle, ⟨0, rfl, by rw [hheap]; rfl⟩, fun slot hslot => ?_⟩
  have hslot' : state'.heap.size ≤ (slot.moved state.heap.size state'.heap.size).index :=
    Nat.le_add_right _ _
  rw [hheap, Heap.get_of_size_le hslot, Heap.get_of_size_le hslot', Cell.renamed_empty]

/-- Where the next handles are the same, moving by either number of handles is the same. -/
theorem OpId.shift_of_handle {state state' : CompileState}
    (hhandle : state'.handle = state.handle) :
    OpId.shift state'.issued = OpId.shift state.issued := by
  have hnumber : UInt32.ofNat state'.issued = UInt32.ofNat state.issued :=
    congrArg OpId.number hhandle
  unfold OpId.shift
  rw [hnumber]

/-- What a new compiler has added is moved behind the first state and from there behind the
second. -/
theorem Renaming.shift_andThen_between {state state' : CompileState}
    (hhandle : state'.handle = state.handle) :
    (shift state.heap.size state.issued).andThen (.between state.heap state'.heap) =
      shift state'.heap.size state'.issued := by
  unfold shift andThen between ofSlots SlotId.moved
  rw [OpId.shift_of_handle hhandle]
  simp

/-- Related runs of a new compiler and of two others, whose next handles are the same. -/
theorem Moves.of_relates {state state' base after after' : CompileState}
    (hhandle : state'.handle = state.handle)
    (h : (Renaming.shift state.heap.size state.issued).Relates base after)
    (h' : (Renaming.shift state'.heap.size state'.issued).Relates base after') :
    Moves state state' after after' where
  handle := by
    rw [← h.handle_handle, ← h'.handle_handle]
    exact congrFun (OpId.shift_of_handle hhandle) base.handle
  size := by
    have hsize := congrArg SlotId.index h.slot_next
    have hsize' := congrArg SlotId.index h'.slot_next
    exact ⟨base.heap.size, hsize.symm, hsize'.symm⟩
  cells := by
    rintro ⟨index⟩ hslot
    -- What was added as number `k` is a copy of slot `k` of the new compiler in both heaps.
    obtain ⟨k, rfl⟩ := Nat.exists_eq_add_of_le hslot
    have hcell' := h'.cells ⟨k⟩
    rw [← Renaming.shift_andThen_between hhandle, ← Cell.renamed_renamed, ← h.cells ⟨k⟩] at hcell'
    exact hcell'

/-- A step that is uniform does the same behind any two states. -/
theorem CompileM.alike_moves {α : Type} {step : CompileM α} {rename : Renaming → α → α}
    (hstep : ∀ (names : Renaming) (state state' : CompileState), names.Relates state state' →
      names.Carries (rename names) step step state state')
    (hrename : ∀ names names' a, rename names' (rename names a) = rename (names.andThen names') a)
    {state state' : CompileState} (hhandle : state'.handle = state.handle) :
    Alike step step state state' fun a a' after after' =>
      a' = rename (.between state.heap state'.heap) a ∧ Moves state state' after after' := by
  refine (hstep _ _ _ (Renaming.relates_shift state)).of_third
    (hstep _ _ _ (Renaming.relates_shift state')) ?_
  rintro a _ _ base after after' ⟨rfl, h⟩ ⟨rfl, h'⟩
  refine ⟨?_, .of_relates hhandle h h'⟩
  rw [hrename, Renaming.shift_andThen_between hhandle]

/-- A step that is uniform and names slots that were added does the same behind any two states. -/
theorem CompileM.alike_moves_adds {α : Type} {step : CompileM α} {rename : Renaming → α → α}
    {slots : α → List SlotId}
    (hstep : ∀ (names : Renaming) (state state' : CompileState), names.Relates state state' →
      names.Carries (rename names) step step state state')
    (hrename : ∀ names names' a, rename names' (rename names a) = rename (names.andThen names') a)
    {state state' : CompileState} (hhandle : state'.handle = state.handle)
    (hadds : Ends step state (fun a after => Heap.Adds none state.heap (slots a) after.heap)
      fun _ _ => True) :
    Alike step step state state' fun a a' after after' =>
      a' = rename (.between state.heap state'.heap) a ∧ Moves state state' after after' ∧
        Heap.Adds none state.heap (slots a) after.heap := by
  refine (alike_moves hstep hrename hhandle).mono_of_runs ?_
  rintro a _ after after' hrun - ⟨rfl, hmoves⟩
  exact ⟨rfl, hmoves, hadds.of_run_ok hrun⟩

/-! ## Where results go -/

/-- What a run in a context has made of the slots that a run without one has added: some, which are
empty, have given way to the context, and the others have copies of their own. -/
structure Redirects (context : SlotId) (results : List SlotId) (rename : SlotId → SlotId)
    (before before' after after' : Heap) : Prop where
  added : ∀ slot ∈ results, before.Added after slot
  empty : ∀ slot ∈ results, after.get slot = {}
  redirected : ∀ slot ∈ results, rename slot = context
  copied : ∀ slot, before.Added after slot → slot ∉ results → before'.Added after' (rename slot)
  injective : ∀ slot other, before.Added after slot → before.Added after other →
    slot ∉ results → other ∉ results → rename slot = rename other → slot = other
  cells : ∀ slot, before.Added after slot → slot ∉ results →
    after'.get (rename slot) = (after.get slot).renamed (.ofSlots rename)

namespace Redirects

variable {context : SlotId} {results results' : List SlotId} {rename rename' : SlotId → SlotId}
  {before before' between between' after after' : Heap}

/-- Exactly the results are sent to the context. -/
theorem eq_context_iff (h : Redirects context results rename before before' after after')
    (hcontext : context.index < before'.size) {slot : SlotId} (hslot : before.Added after slot) :
    rename slot = context ↔ slot ∈ results := by
  refine ⟨fun heq => ?_, h.redirected slot⟩
  by_contra hnot
  have hcopy := (h.copied slot hslot hnot).1
  rw [heq] at hcopy
  omega

/-- Writing the context changes no copy. -/
theorem modify (h : Redirects context results rename before before' after after')
    (hcontext : context.index < before'.size) (change : Cell → Cell) :
    Redirects context results rename before before' after (after'.modify context change) where
  added := h.added
  empty := h.empty
  redirected := h.redirected
  copied := by
    unfold Heap.Added
    rw [Heap.size_modify]
    exact h.copied
  injective := h.injective
  cells := by
    intro slot hslot hnot
    have hne : ¬(context = rename slot ∧ context.index < after'.size) := by
      rintro ⟨heq, -⟩
      exact hnot ((h.eq_context_iff hcontext hslot).mp heq.symm)
    rw [Heap.get_modify, if_neg hne]
    exact h.cells slot hslot hnot

/-- Two ways to rename, the first for the slots of a heap and the second for those behind them. -/
def glued (heap : Heap) (rename rename' : SlotId → SlotId) (slot : SlotId) : SlotId :=
  if slot.index < heap.size then rename slot else rename' slot

/-- The first way to rename is for the slots of the heap. -/
theorem glued_of_lt {slot : SlotId} (h : slot.index < between.size) :
    glued between rename rename' slot = rename slot :=
  if_pos h

/-- The second way to rename is for the slots behind the heap. -/
theorem glued_of_le {slot : SlotId} (h : between.size ≤ slot.index) :
    glued between rename rename' slot = rename' slot :=
  if_neg (Nat.not_lt.mpr h)

/-- A copy that the first of two runs has made is still there behind the second. -/
theorem cells_of_first (h : Redirects context results rename before before' between between')
    (hgrows : Heap.Grows none before between) (hgrows' : Heap.Grows none between after)
    (hcopy : Heap.Grows (some context) before' between')
    (hcopy' : Heap.Grows (some context) between' after') {slot : SlotId}
    (hslot : before.Added between slot) (hnot : slot ∉ results) :
    after'.get (rename slot) =
      (after.get slot).renamed (.ofSlots (glued between rename rename')) := by
  have hcontext : context.index < before'.size := hcopy.there context rfl
  obtain ⟨hge, hlt⟩ := h.copied slot hslot hnot
  have hne : rename slot ∉ some context := by
    rintro ⟨heq⟩
    omega
  -- Neither side changes the slot later on, and older slots keep their names in the glued renaming.
  calc after'.get (rename slot) = between'.get (rename slot) := hcopy'.frame _ hlt hne
    _ = (between.get slot).renamed (.ofSlots rename) := h.cells slot hslot hnot
    _ = (between.get slot).renamed (.ofSlots (glued between rename rename')) := by
        refine Heap.renamed_congr between slot fun next hnext => ?_
        exact (glued_of_lt (hgrows.newer slot hslot.1 next hnext).2).symm
    _ = (after.get slot).renamed (.ofSlots (glued between rename rename')) := by
        rw [hgrows'.frame slot hslot.2 (by simp)]

/-- A copy that the second of two runs has made names what the second has made. -/
theorem cells_of_second (h : Redirects context results' rename' between between' after after')
    (hgrows : Heap.Grows none between after) {slot : SlotId} (hslot : between.Added after slot)
    (hnot : slot ∉ results') :
    after'.get (rename' slot) =
      (after.get slot).renamed (.ofSlots (glued between rename rename')) := by
  rw [h.cells slot hslot hnot]
  refine Heap.renamed_congr after slot fun next hnext => (glued_of_le ?_).symm
  have hnext' := (hgrows.newer slot hslot.1 next hnext).1
  have hge := hslot.1
  omega

/-- A slot that two runs have added was added by one of them, and so was its copy. -/
theorem split (h : Redirects context results rename before before' between between')
    (h' : Redirects context results' rename' between between' after after') {slot : SlotId}
    (hslot : before.Added after slot) (hnot : slot ∉ results ++ results') :
    (before.Added between slot ∧ slot ∉ results ∧ glued between rename rename' slot = rename slot ∧
      before'.Added between' (rename slot)) ∨
    (between.Added after slot ∧ slot ∉ results' ∧
      glued between rename rename' slot = rename' slot ∧
      between'.Added after' (rename' slot)) := by
  rw [List.mem_append, not_or] at hnot
  by_cases hlt : slot.index < between.size
  · have hadded : before.Added between slot := ⟨hslot.1, hlt⟩
    exact Or.inl ⟨hadded, hnot.1, glued_of_lt hlt, h.copied slot hadded hnot.1⟩
  · have hge : between.size ≤ slot.index := Nat.le_of_not_lt hlt
    have hadded : between.Added after slot := ⟨hge, hslot.2⟩
    exact Or.inr ⟨hadded, hnot.2, glued_of_le hge, h'.copied slot hadded hnot.2⟩

/-- One run behind another. -/
theorem trans (h : Redirects context results rename before before' between between')
    (h' : Redirects context results' rename' between between' after after')
    (hgrows : Heap.Grows none before between) (hgrows' : Heap.Grows none between after)
    (hcopy : Heap.Grows (some context) before' between')
    (hcopy' : Heap.Grows (some context) between' after') :
    Redirects context (results ++ results') (glued between rename rename')
      before before' after after' where
  added := by
    refine List.forall_mem_append.mpr ⟨fun slot hslot => ?_, fun slot hslot => ?_⟩
    · exact (h.added slot hslot).imp_right fun hlt => Nat.lt_of_lt_of_le hlt hgrows'.size_le
    · exact (h'.added slot hslot).imp_left fun hle => Nat.le_trans hgrows.size_le hle
  empty := by
    refine List.forall_mem_append.mpr ⟨fun slot hslot => ?_, h'.empty⟩
    rw [hgrows'.frame slot (h.added slot hslot).2 (by simp)]
    exact h.empty slot hslot
  redirected := by
    refine List.forall_mem_append.mpr ⟨fun slot hslot => ?_, fun slot hslot => ?_⟩
    · rw [glued_of_lt (h.added slot hslot).2]
      exact h.redirected slot hslot
    · rw [glued_of_le (h'.added slot hslot).1]
      exact h'.redirected slot hslot
  copied := by
    intro slot hslot hnot
    rcases h.split h' hslot hnot with ⟨-, -, hglued, hcopied⟩ | ⟨-, -, hglued, hcopied⟩ <;>
      rw [hglued]
    · exact hcopied.imp_right fun hlt => Nat.lt_of_lt_of_le hlt hcopy'.size_le
    · exact hcopied.imp_left fun hle => Nat.le_trans hcopy.size_le hle
  injective := by
    intro slot other hslot hother hnot hnot' heq
    rcases h.split h' hslot hnot with ⟨hadded, hout, hglued, hcopied⟩ |
      ⟨hadded, hout, hglued, hcopied⟩ <;>
    rcases h.split h' hother hnot' with ⟨hadded', hout', hglued', hcopied'⟩ |
      ⟨hadded', hout', hglued', hcopied'⟩ <;>
    rw [hglued, hglued'] at heq
    · exact h.injective slot other hadded hadded' hout hout' heq
    · -- Copies that different runs have made are different.
      rw [heq] at hcopied
      exact absurd hcopied.2 (Nat.not_lt.mpr hcopied'.1)
    · rw [heq] at hcopied
      exact absurd hcopied'.2 (Nat.not_lt.mpr hcopied.1)
    · exact h'.injective slot other hadded hadded' hout hout' heq
  cells := by
    intro slot hslot hnot
    rcases h.split h' hslot hnot with ⟨hadded, hout, hglued, -⟩ | ⟨hadded, hout, hglued, -⟩ <;>
      rw [hglued]
    · exact h.cells_of_first hgrows hgrows' hcopy hcopy' hadded hout
    · exact h'.cells_of_second hgrows' hadded hout

end Redirects

/-- A step that does the same in two places redirects nothing. -/
theorem Moves.redirects {before before' after after' : CompileState}
    (h : Moves before before' after after') (context : SlotId) :
    Redirects context [] (.moved before.heap.size before'.heap.size) before.heap before'.heap
      after.heap after'.heap where
  added := by simp
  empty := by simp
  redirected := by simp
  copied := by
    intro slot hslot _
    -- Both heaps have grown by the same number of slots, so the move stays within bounds.
    obtain ⟨count, hsize, hsize'⟩ := h.size
    unfold Heap.Added SlotId.moved at *
    dsimp only
    omega
  injective := by
    rintro ⟨a⟩ ⟨b⟩ ha hb _ _ heq
    have hindex := congrArg SlotId.index heq
    unfold Heap.Added SlotId.moved at *
    dsimp only at *
    rw [show a = b by omega]
  cells := fun slot hslot _ => h.cells slot hslot.1

/-- A slot sent to a context, and all others moved. -/
def SlotId.movedBut (result context : SlotId) (count count' : Nat) (slot : SlotId) : SlotId :=
  if slot = result then context else slot.moved count count'

/-- A step that does the same in two places, and behind it a new slot for a result in one of them
and the context in the other. -/
theorem Moves.redirects_result {before before' after after' : CompileState}
    (h : Moves before before' after after') (hgrows : Heap.Grows none before.heap after.heap)
    (context : SlotId) :
    Redirects context [after.heap.next]
      (.movedBut after.heap.next context before.heap.size before'.heap.size) before.heap
      before'.heap (after.heap.add {}) after'.heap := by
  have hmoves := h.redirects context
  have hbut : ∀ slot : SlotId, slot ≠ after.heap.next →
      SlotId.movedBut after.heap.next context before.heap.size before'.heap.size slot =
        slot.moved before.heap.size before'.heap.size := fun slot hne => if_neg hne
  -- But for the result itself, what was added was added by the run that moves.
  have hsplit : ∀ slot, before.heap.Added (after.heap.add {}) slot → slot ∉ [after.heap.next] →
      slot ≠ after.heap.next ∧ before.heap.Added after.heap slot := by
    rintro ⟨index⟩ hslot hnot
    rw [List.mem_singleton] at hnot
    refine ⟨hnot, hslot.1, ?_⟩
    have hne : index ≠ after.heap.size := fun heq => hnot (congrArg SlotId.mk heq)
    have hlt := hslot.2
    rw [Heap.size_add] at hlt
    dsimp only at hlt ⊢
    omega
  refine ⟨?_, ?_, ?_, fun slot hslot hnot => ?_, fun slot other hslot hother hnot hnot' heq => ?_,
    fun slot hslot hnot => ?_⟩
  · rw [List.forall_mem_singleton]
    exact ⟨hgrows.size_le, by rw [Heap.size_add]; exact Nat.lt_succ_self _⟩
  · rw [List.forall_mem_singleton]
    exact Heap.get_add_next _ _
  · rw [List.forall_mem_singleton]
    exact if_pos rfl
  · obtain ⟨hne, hadded⟩ := hsplit slot hslot hnot
    rw [hbut slot hne]
    exact hmoves.copied slot hadded (by simp)
  · obtain ⟨hne, hadded⟩ := hsplit slot hslot hnot
    obtain ⟨hne', hadded'⟩ := hsplit other hother hnot'
    rw [hbut slot hne, hbut other hne'] at heq
    exact hmoves.injective slot other hadded hadded' (by simp) (by simp) heq
  · obtain ⟨hne, hadded⟩ := hsplit slot hslot hnot
    rw [hbut slot hne, Heap.get_add_of_lt _ hadded.2, hmoves.cells slot hadded (by simp)]
    refine Heap.renamed_congr after.heap slot fun next hnext => (hbut next ?_).symm
    -- No cell of the run names the result, which was added behind it.
    rintro rfl
    exact Nat.lt_irrefl _ (hgrows.newer slot hadded.1 _ hnext).2

end Lowering
