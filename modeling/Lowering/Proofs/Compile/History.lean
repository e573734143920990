import Lowering.Proofs.Compile.Linkable
import Lowering.Proofs.Compile.Uniform
import Lowering.Proofs.Link.Mirror

/-!
# Images do not depend on history

Two compilers that differ in the handles they have handed out and in the slots that exist return
different op-lines for the same statements, over different heaps. A linked image has neither handles
nor slots. `outcome_of_relates` says that the outcomes of two related compilers are the same, and
`outcome_eq_new` compares any compiler with a new one: the renaming between them moves all slots and
handles by what there is already, and takes the one context to the other.
-/

namespace Lowering

open CompileM

/-- What becomes of statements: the error of compiling them, or what linking their op-lines
gives. -/
def outcome (nodes : List Node) (context : Option SlotId) (state : CompileState) :
    Except CompileError (Except LinkError Image) :=
  match (compile nodes context).run.run state with
  | (.error e, _) => .error e
  | (.ok lines, after) => .ok (link after.heap lines)

section

variable {nodes : List Node} {context : Option SlotId} {state after : CompileState}

/-- Statements that cannot be compiled come to the error of compiling them. -/
theorem outcome_of_run_error {e : CompileError}
    (hrun : (compile nodes context).run.run state = (.error e, after)) :
    outcome nodes context state = .error e := by
  rw [outcome, hrun]

/-- Statements that are compiled come to what linking their op-lines gives. -/
theorem outcome_of_run_ok {lines : List OpLine}
    (hrun : (compile nodes context).run.run state = (.ok lines, after)) :
    outcome nodes context state = .ok (link after.heap lines) := by
  rw [outcome, hrun]

/-- Op-lines that are compiled without a context or in an empty one have an image. -/
theorem exists_image_of_run {lines : List OpLine}
    (hcontext : ∀ slot ∈ context, state.heap.get slot = {})
    (hrun : (compile nodes context).run.run state = (.ok lines, after))
    (hissued : after.issued ≤ 2 ^ 32) : ∃ image, link after.heap lines = .ok image := by
  have hstart : CompilerRun context.toList state [] := .start fun slot hslot =>
    hcontext slot (Option.mem_toList.mp hslot)
  have hcompiled := hstart.compiled (fun slot hslot => Option.mem_toList.mpr hslot) hrun
  exact hcompiled.exists_image hissued List.mem_cons_self

end

/-- Two outcomes are the same: one error, or one image. -/
def SameOutcome (first second : Except CompileError (Except LinkError Image)) : Prop :=
  (∃ e, first = .error e ∧ second = .error e) ∨
    ∃ image, first = .ok (.ok image) ∧ second = .ok (.ok image)

/-- Outcomes that are the same are equal. -/
theorem SameOutcome.eq {first second : Except CompileError (Except LinkError Image)}
    (h : SameOutcome first second) : first = second := by
  rcases h with ⟨e, hfirst, hsecond⟩ | ⟨image, hfirst, hsecond⟩ <;> rw [hfirst, hsecond]

/-- Related compilers make the same of statements, without a context and in an empty one. -/
theorem outcome_of_relates {names : Renaming} {state state' : CompileState}
    (h : names.Relates state state') (hhandle : Function.Injective names.handle)
    (nodes : List Node) (context : Option SlotId)
    (hcontext : ∀ slot ∈ context, state.heap.get slot = {})
    (hissued : ((compile nodes (context.map names.slot)).run.run state').2.issued ≤ 2 ^ 32) :
    SameOutcome (outcome nodes (context.map names.slot) state') (outcome nodes context state) := by
  have hcarries := (compile_built nodes).uniform names context state state' h
  -- The first run decides how both end; where they return, their op-lines differ in names only.
  rcases hrun : (compile nodes context).run.run state with ⟨e | lines, after⟩
  · obtain ⟨after', hrun'⟩ := hcarries.of_run_error hrun
    exact Or.inl ⟨e, outcome_of_run_error hrun', outcome_of_run_error hrun⟩
  · obtain ⟨lines', after', hrun', rfl, hafter⟩ := hcarries.of_run_ok hrun
    rw [hrun'] at hissued
    obtain ⟨image, hlink⟩ :=
      exists_image_of_run hcontext hrun (hafter.issued_le.trans hissued)
    have hlink' : link after'.heap (renamedLines names lines) = .ok image := by
      rw [link_of_renamed hafter.injective hhandle hafter.cells, hlink]
      rfl
    refine Or.inr ⟨image, ?_, ?_⟩
    · rw [outcome_of_run_ok hrun', hlink']
    · rw [outcome_of_run_ok hrun, hlink]

/-! ## New compilers -/

/-- A handle moved by a number. -/
def OpId.shift (count : Nat) (id : OpId) : OpId :=
  ⟨UInt32.ofNat count + id.number⟩

/-- Handles moved by a number stay different. -/
theorem OpId.shift_injective (count : Nat) : Function.Injective (OpId.shift count) := by
  intro a b heq
  have hnumber : UInt32.ofNat count + a.number = UInt32.ofNat count + b.number :=
    congrArg OpId.number heq
  cases a
  cases b
  simpa using hnumber

/-- A moved handle has its number and that by which it is moved together. -/
theorem OpId.shift_ofNat (count number : Nat) :
    OpId.shift count (.ofNat number) = .ofNat (count + number) := by
  unfold OpId.shift OpId.ofNat
  rw [UInt32.ofNat_add]

namespace Renaming

/-- All slots and handles moved by given numbers. -/
def shift (slots handles : Nat) : Renaming where
  slot := fun slot => ⟨slots + slot.index⟩
  handle := OpId.shift handles

/-- The first slot taken to a context, and all other slots and all handles moved by given
numbers. -/
def shiftInto (context : SlotId) (slots handles : Nat) : Renaming where
  slot
    | ⟨0⟩ => context
    | ⟨index + 1⟩ => ⟨slots + index⟩
  handle := OpId.shift handles

/-- A new compiler is related to every compiler. -/
theorem relates_shift (state : CompileState) :
    (shift state.heap.size state.issued).Relates {} state where
  injective := by
    intro a b heq
    have hindex : state.heap.size + a.index = state.heap.size + b.index :=
      congrArg SlotId.index heq
    cases a
    cases b
    simpa using hindex
  old := by
    intro slot hlt
    exact absurd hlt (Nat.not_lt_zero _)
  next := by
    intro k
    exact congrArg SlotId.mk (by simp [Heap.size])
  issued_le := Nat.zero_le _
  handles := by
    intro k
    rw [Nat.zero_add]
    exact OpId.shift_ofNat _ k
  cells := by
    intro slot
    have hle : state.heap.size ≤ state.heap.size + slot.index := Nat.le_add_right _ _
    -- Nothing was stored on either side, so both cells are empty.
    have hnew : ({} : Heap).get slot = {} := Heap.get_of_size_le (Nat.zero_le slot.index)
    exact (Heap.get_of_size_le hle).trans (by rw [hnew, Cell.renamed_empty])

/-- A new compiler with a new slot as its context is related to every compiler with an empty slot as
its context. -/
theorem relates_shiftInto {state : CompileState} {context : SlotId}
    (hlt : context.index < state.heap.size) (hempty : state.heap.get context = {}) :
    (shiftInto context state.heap.size state.issued).Relates (.added {} {}) state where
  injective := by
    -- Slot 0 stands for the context, and every other slot for one that is yet to be added.
    rintro ⟨a | a⟩ ⟨b | b⟩ heq
    · rfl
    · have hindex : context.index = state.heap.size + b := congrArg SlotId.index heq
      omega
    · have hindex : state.heap.size + a = context.index := congrArg SlotId.index heq
      omega
    · have hindex : state.heap.size + a = state.heap.size + b := congrArg SlotId.index heq
      rw [Nat.add_left_cancel hindex]
  old := by
    rintro ⟨_ | index⟩ hslot
    · exact hlt
    · simp [Heap.size, Heap.add] at hslot
  next := by
    intro k
    have hsize : (CompileState.added {} {}).heap.size + k = k + 1 := Nat.add_comm 1 k
    rw [hsize]
    rfl
  issued_le := Nat.zero_le _
  handles := by
    intro k
    have hissued : (CompileState.added {} {}).issued + k = k := Nat.zero_add k
    rw [hissued]
    exact OpId.shift_ofNat _ k
  cells := by
    rintro ⟨_ | index⟩
    · exact hempty
    · have hle : state.heap.size ≤ state.heap.size + index := Nat.le_add_right _ _
      exact Heap.get_of_size_le hle

end Renaming

/-- Without a context, statements have one outcome, whatever the state of the compiler. -/
theorem outcome_same_of_states (nodes : List Node) (state state' : CompileState)
    (hissued : ((compile nodes none).run.run state).2.issued ≤ 2 ^ 32)
    (hissued' : ((compile nodes none).run.run state').2.issued ≤ 2 ^ 32) :
    SameOutcome (outcome nodes none state) (outcome nodes none state') := by
  have hnew : ∀ state : CompileState, ((compile nodes none).run.run state).2.issued ≤ 2 ^ 32 →
      SameOutcome (outcome nodes none state) (outcome nodes none {}) := fun state hissued =>
    outcome_of_relates (Renaming.relates_shift state) (OpId.shift_injective _) nodes none (by simp)
      hissued
  rw [(hnew state' hissued').eq]
  exact hnew state hissued

/-- What a new compiler makes of statements, over a heap with nothing but the context. -/
def newOutcome (nodes : List Node) (context : Option SlotId) :
    Except CompileError (Except LinkError Image) :=
  match context with
  | none => outcome nodes none {}
  | some _ => outcome nodes (some ⟨0⟩) (.added {} {})

/-- What a compiler makes of statements does not depend on what it has done before or on the slots
that there are: in every state, without a context or in an empty slot, it returns the error of a new
compiler, or op-lines with the image that those of a new compiler have. -/
theorem outcome_same_as_new (nodes : List Node) (context : Option SlotId) (state : CompileState)
    (hcontext : ∀ slot ∈ context, slot.index < state.heap.size ∧ state.heap.get slot = {})
    (hissued : ((compile nodes context).run.run state).2.issued ≤ 2 ^ 32) :
    SameOutcome (outcome nodes context state) (newOutcome nodes context) := by
  cases context with
  | none =>
    exact outcome_of_relates (Renaming.relates_shift state) (OpId.shift_injective _) nodes none
      (by simp) hissued
  | some slot =>
    obtain ⟨hlt, hempty⟩ := hcontext slot rfl
    have hnew : ∀ other ∈ some ⟨0⟩, (CompileState.added {} {}).heap.get other = {} := by
      rintro _ ⟨rfl⟩
      rfl
    exact outcome_of_relates (Renaming.relates_shiftInto hlt hempty) (OpId.shift_injective _) nodes
      (some ⟨0⟩) hnew hissued

/-- A function with a loop in its body and a parameter with a default, and a fetch. -/
def functionNodes : List Node :=
  [⟨.stmtFunction, [], [("name", .scalar (.string "f")),
      ("params", .list [.node ⟨.param, [], [("name", .scalar (.string "p")),
        ("default", .node (variableNode "d"))]⟩]),
      ("stmts", .list [.node ⟨.stmtWhile, [], [("cond", .node (variableNode "x"))]⟩])]⟩,
    variableNode "z"]

/-- A compiler that has failed before, with a new slot for a context, makes of `functionNodes` what
a new compiler does. -/
theorem outcome_same_as_new_after_failure :
    ((3 < (refusedState.added {}).heap.size ∧ (refusedState.added {}).heap.get ⟨3⟩ = {}) ∧
      ((compile functionNodes (some ⟨3⟩)).run.run (refusedState.added {})).2.issued = 8) ∧
      SameOutcome (outcome functionNodes (some ⟨3⟩) (refusedState.added {}))
        (newOutcome functionNodes (some ⟨3⟩)) := by
  have hfresh : 3 < (refusedState.added {}).heap.size ∧
      (refusedState.added {}).heap.get ⟨3⟩ = {} := ⟨by decide, rfl⟩
  have hissued : ((compile functionNodes (some ⟨3⟩)).run.run (refusedState.added {})).2.issued =
      8 := by decide +kernel
  refine ⟨⟨hfresh, hissued⟩, outcome_same_as_new functionNodes (some ⟨3⟩) _ ?_ ?_⟩
  · rintro _ ⟨rfl⟩
    exact hfresh
  · rw [hissued]
    norm_num

end Lowering
