import Lowering.Proofs.Compile.Redirect
import Lowering.Proofs.Tree.Walk

/-!
# What a context changes

The same statements are compiled twice, without a context and in one. An operation writes a new slot
in the first run and the context in the second (`redirected_unary`, `redirected_binary`). An
argument, a parameter and a constant write the context in the second run and do nothing instead in
the first, and all other statements do not look at it. So the op-lines differ in names of slots
only, and of the slots that the first run names exactly the results of the operations among the
statements have the context for their new name (`compile_in_context`).
-/

namespace Lowering

open CompileM Emitter

/-! ## Statements -/

/-- The slot that the last of some op-lines writes. -/
def closingResult? (lines : List OpLine) : Option SlotId :=
  lines.getLast?.bind fun line => line.op.result?

/-- An emitter does the same in a context as without one, except that the context takes the place of
given slots of those that are added without it. -/
def Emitter.Redirected (emitter : Emitter) (results : List OpLine → List SlotId) : Prop :=
  ∀ (context : SlotId) (state state' : CompileState), state'.handle = state.handle →
    context.index < state'.heap.size →
    Alike (emitter none) (emitter (some context)) state state' fun ops ops' after after' =>
      after'.handle = after.handle ∧ ∃ rename, ops' = renamedLines (.ofSlots rename) ops ∧
        Redirects context (results ops) rename state.heap state'.heap after.heap after'.heap

/-- The next handle is the one with the next number. -/
theorem CompileState.handle_advanced (state : CompileState) :
    state.advanced.handle = ⟨state.handle.number + 1⟩ := by
  simp [CompileState.handle, UInt32.ofNat_add]

namespace Emitter

/-- A new slot, and a piece of code that has it for its context. -/
def operand (emitter : Emitter) : CompileM (SlotId × List OpLine) := do
  let slot ← freshSlot
  let ops ← emitter (some slot)
  return (slot, ops)

/-- Two new slots, and pieces of code that have them for their contexts. -/
def operands (left right : Emitter) : CompileM (SlotId × SlotId × List OpLine) := do
  let op1 ← freshSlot
  let op2 ← freshSlot
  let ops ← left (some op1)
  let more ← right (some op2)
  return (op1, op2, ops ++ more)

/-- An operation on one operand compiles its operand and then writes the result. -/
theorem unary_eq_operand (kind : UnaryKind) (emitter : Emitter) (context : Option SlotId) :
    unary kind emitter context = operand emitter >>= fun (op1, ops) => do
      let result ← resultSlot context
      let line ← emit (.unary kind op1 result)
      return ops ++ [line] := by
  simp [unary, operand]

/-- An operation on two operands compiles them both and then writes the result. -/
theorem binary_eq_operands (kind : BinaryKind) (left right : Emitter) (context : Option SlotId) :
    binary kind left right context = operands left right >>= fun (op1, op2, ops) => do
      let result ← resultSlot context
      let line ← emit (.binary kind op1 op2 result)
      return ops ++ [line] := by
  simp [binary, operands]

/-- An argument compiles its value and then hands the slot to the context. -/
theorem argument_eq_operand (value : Emitter) (context : Option SlotId) :
    argument value context = operand value >>= fun (slot, ops) => do
      match context with
      | some context => write context (.push (.slot slot))
      | none => pure ()
      return ops := by
  cases context <;> simp [argument, operand]

/-- A parameter compiles its default value and then hands a record of it to the context. -/
theorem parameter_eq_operand (declaration : Declaration) (default : Emitter)
    (context : Option SlotId) :
    parameter declaration default context = operand default >>= fun (slot, ops) => do
      match context with
      | some context =>
        write context (.push (.param
          ⟨declaration.name, slot, ops, declaration.byRef, declaration.typeHint⟩))
      | none => pure ()
      return [] := by
  cases context <;> simp [parameter, operand]

variable {state state' : CompileState}

/-- The code of an operand is the same in two places, and names slots that were added. -/
theorem alike_operand {emitter : Emitter} (h : Built emitter)
    (hhandle : state'.handle = state.handle) :
    Alike (operand emitter) (operand emitter) state state' fun piece piece' after after' =>
      piece' = (piece.1.moved state.heap.size state'.heap.size,
        renamedLines (.between state.heap state'.heap) piece.2) ∧
      Moves state state' after after' ∧
      Heap.Adds none state.heap (piece.1 :: lineSlots piece.2) after.heap := by
  -- Related states run alike: the new slot has the new name, and the code in it is uniform.
  have hcarries : ∀ (names : Renaming) (state state' : CompileState), names.Relates state state' →
      names.Carries (fun piece => (names.slot piece.1, renamedLines names piece.2))
        (operand emitter) (operand emitter) state state' := by
    intro names state state' hrelates
    refine hrelates.freshSlot.bind ?_
    rintro slot _ state₁ state₁' ⟨rfl, h₁⟩
    refine (h.uniform names (some slot) _ _ h₁).bind ?_
    rintro ops _ state₂ state₂' ⟨rfl, h₂⟩
    exact .pure ⟨rfl, h₂⟩
  -- What the run names is the new slot and what the code behind it adds.
  have hadds : Ends (operand emitter) state (fun piece after =>
      Heap.Adds none state.heap (piece.1 :: lineSlots piece.2) after.heap) fun _ _ => True := by
    simp only [operand, ends_bind, ends_freshSlot, ends_pure]
    exact h.extends.ends (Heap.Adds.start (by simp)).add_empty (by simp) (fun _ _ hops => hops)
      fun _ _ _ => trivial
  refine alike_moves_adds hcarries (fun names names' piece => ?_) hhandle hadds
  simp only [renamedLines_renamedLines]
  rfl

/-- The code of two operands is the same in two places, and names slots that were added. -/
theorem alike_operands {left right : Emitter} (hleft : Built left) (hright : Built right)
    (hhandle : state'.handle = state.handle) :
    Alike (operands left right) (operands left right) state state' fun piece piece' after after' =>
      piece' = (piece.1.moved state.heap.size state'.heap.size,
        piece.2.1.moved state.heap.size state'.heap.size,
        renamedLines (.between state.heap state'.heap) piece.2.2) ∧
      Moves state state' after after' ∧
      Heap.Adds none state.heap (piece.1 :: piece.2.1 :: lineSlots piece.2.2) after.heap := by
  -- Related states run alike: both new slots have new names, and the code in them is uniform.
  have hcarries : ∀ (names : Renaming) (state state' : CompileState), names.Relates state state' →
      names.Carries
        (fun piece => (names.slot piece.1, names.slot piece.2.1, renamedLines names piece.2.2))
        (operands left right) (operands left right) state state' := by
    intro names state state' hrelates
    refine hrelates.freshSlot.bind ?_
    rintro op1 _ state₁ state₁' ⟨rfl, h₁⟩
    refine h₁.freshSlot.bind ?_
    rintro op2 _ state₂ state₂' ⟨rfl, h₂⟩
    refine (hleft.uniform names (some op1) _ _ h₂).bind ?_
    rintro ops _ state₃ state₃' ⟨rfl, h₃⟩
    refine (hright.uniform names (some op2) _ _ h₃).bind ?_
    rintro more _ state₄ state₄' ⟨rfl, h₄⟩
    exact .pure ⟨by simp, h₄⟩
  -- What the run names is the two new slots and what the code behind them adds.
  have hadds : Ends (operands left right) state (fun piece after =>
      Heap.Adds none state.heap (piece.1 :: piece.2.1 :: lineSlots piece.2.2) after.heap)
      fun _ _ => True := by
    simp only [operands, ends_bind, ends_freshSlot, ends_pure, lineSlots_append]
    have hnone : Heap.Adds none state.heap [] state.heap := .start (by simp)
    refine hleft.extends.ends hnone.add_empty.add_empty (by simp) (fun ops after hops => ?_)
      fun _ _ _ => trivial
    refine hright.extends.ends hops (by simp) (fun more after hmore => ?_) fun _ _ _ => trivial
    simpa using hmore
  refine alike_moves_adds hcarries (fun names names' piece => ?_) hhandle hadds
  simp only [renamedLines_renamedLines]
  rfl

/-- An operation on operands that are the same in two places writes a new slot in one of them and
the context in the other. -/
theorem alike_result {between between' : CompileState} {context : SlotId} {slots : List SlotId}
    {ops : List OpLine} {make make' : SlotId → Op} (hmoves : Moves state state' between between')
    (hadds : Heap.Adds none state.heap slots between.heap) (hops : lineSlots ops ⊆ slots)
    (hresult : ∀ result, (make result).result? = some result)
    (hmake : ∀ (rename : SlotId → SlotId) (result : SlotId),
      (∀ slot ∈ slots, rename slot = slot.moved state.heap.size state'.heap.size) →
        (make result).renamed (.ofSlots rename) = make' (rename result)) :
    Alike (do
        let result ← resultSlot none
        let line ← emit (make result)
        return ops ++ [line])
      (do
        let result ← resultSlot (some context)
        let line ← emit (make' result)
        return renamedLines (.between state.heap state'.heap) ops ++ [line])
      between between' fun lines lines' after after' =>
        after'.handle = after.handle ∧ ∃ rename, lines' = renamedLines (.ofSlots rename) lines ∧
          Redirects context (closingResult? lines).toList rename state.heap state'.heap after.heap
            after'.heap := by
  let rename := SlotId.movedBut between.heap.next context state.heap.size state'.heap.size
  have hnext : rename between.heap.next = context := if_pos rfl
  have hslots : ∀ slot ∈ slots, rename slot = slot.moved state.heap.size state'.heap.size := by
    intro slot hslot
    refine if_neg ?_
    rintro rfl
    exact Nat.lt_irrefl _ ((hadds.spans _ hslot).resolve_left (by simp)).2
  have hlines := renamedLines_congr ops fun slot hslot => hslots slot (hops hslot)
  have hredirects := hmoves.redirects_result hadds.grows context
  have hhandle : between'.handle = (between.added {}).handle := hmoves.handle
  -- Both results are at hand, and both op-lines get their handles.
  change between'.advanced.handle = (between.added {}).advanced.handle ∧ ∃ rename,
    renamedLines (.between state.heap state'.heap) ops ++ [⟨between'.handle, make' context⟩] =
      renamedLines (.ofSlots rename)
        (ops ++ [⟨(between.added {}).handle, make between.heap.next⟩]) ∧
    Redirects context
      (closingResult? (ops ++ [⟨(between.added {}).handle, make between.heap.next⟩])).toList rename
      state.heap state'.heap (between.heap.add {}) between'.heap
  refine ⟨?_, rename, ?_, ?_⟩
  · rw [CompileState.handle_advanced, CompileState.handle_advanced, hhandle]
  · rw [renamedLines_append, hlines, renamedLines_cons, renamedLines_nil, OpLine.renamed,
      hmake rename _ hslots, hnext, hhandle]
    rfl
  · have hclosing : closingResult?
        (ops ++ [⟨(between.added {}).handle, make between.heap.next⟩]) =
          some between.heap.next := by simp [closingResult?, hresult]
    rw [hclosing]
    exact hredirects

/-- An operation on one operand sends its result, and nothing else, to the context. -/
theorem redirected_unary {emitter : Emitter} (kind : UnaryKind) (h : Built emitter) :
    (unary kind emitter).Redirected fun lines => (closingResult? lines).toList := by
  intro context state state' hhandle hcontext
  rw [unary_eq_operand, unary_eq_operand]
  refine (alike_operand h hhandle).bind ?_
  rintro ⟨op1, ops⟩ _ between between' ⟨rfl, hmoves, hadds⟩
  refine alike_result hmoves hadds (by simp) (fun _ => rfl) fun rename result hslots => ?_
  simp only [Op.renamed, Renaming.ofSlots]
  rw [hslots op1 List.mem_cons_self]

/-- An operation on two operands sends its result, and nothing else, to the context. -/
theorem redirected_binary {left right : Emitter} (kind : BinaryKind) (hleft : Built left)
    (hright : Built right) :
    (binary kind left right).Redirected fun lines => (closingResult? lines).toList := by
  intro context state state' hhandle hcontext
  rw [binary_eq_operands, binary_eq_operands]
  refine (alike_operands hleft hright hhandle).bind ?_
  rintro ⟨op1, op2, ops⟩ _ between between' ⟨rfl, hmoves, hadds⟩
  refine alike_result hmoves hadds (by simp) (fun _ => rfl) fun rename result hslots => ?_
  simp only [Op.renamed, Renaming.ofSlots]
  rw [hslots op1 List.mem_cons_self, hslots op2 (by simp)]

/-- An argument has no result that the context takes the place of. -/
theorem redirected_argument {value : Emitter} (h : Built value) :
    (argument value).Redirected fun _ => [] := by
  intro context state state' hhandle hcontext
  rw [argument_eq_operand, argument_eq_operand]
  refine (alike_operand h hhandle).bind ?_
  rintro ⟨slot, ops⟩ _ between between' ⟨rfl, hmoves, -⟩
  exact ⟨hmoves.handle, _, rfl, (hmoves.redirects context).modify hcontext _⟩

/-- A parameter has no result that the context takes the place of. -/
theorem redirected_parameter {default : Emitter} (declaration : Declaration) (h : Built default) :
    (parameter declaration default).Redirected fun _ => [] := by
  intro context state state' hhandle hcontext
  rw [parameter_eq_operand, parameter_eq_operand]
  refine (alike_operand h hhandle).bind ?_
  rintro ⟨slot, ops⟩ _ between between' ⟨rfl, hmoves, -⟩
  exact ⟨hmoves.handle, _, rfl, (hmoves.redirects context).modify hcontext _⟩

/-- An emitter that does not look at its context redirects nothing. -/
theorem redirected_of_ignored {emitter : Emitter} (h : Built emitter)
    (hignored : ∀ context, emitter (some context) = emitter none) :
    emitter.Redirected fun _ => [] := by
  intro context state state' hhandle hcontext
  rw [hignored]
  refine (alike_moves (fun names _ _ => h.uniform names none _ _) renamedLines_renamedLines
    hhandle).mono_of_runs ?_
  rintro ops _ after after' - - ⟨rfl, hmoves⟩
  exact ⟨hmoves.handle, _, rfl, hmoves.redirects context⟩

/-- A constant has no result that the context takes the place of. -/
theorem redirected_constant (literal : Constant) : (constant literal).Redirected fun _ => [] := by
  intro context state state' hhandle hcontext
  let after' := (state'.notedMisplaced literal.misplaced).written context
    fun _ => .ofValue literal.value
  -- Without a context a constant is not even looked at, and its misplaced nodes are not noted.
  have hends : Ends (constant literal (some context)) state'
      (fun ops after => ops = [] ∧ after = after') fun _ _ => False :=
    (ends_constant_some literal context).mpr ⟨rfl, rfl⟩
  obtain ⟨_, _, hrun, rfl, rfl⟩ := hends.exists_run
  have hmoves : Moves state state' state (state'.notedMisplaced literal.misplaced) := by
    refine .refl ?_ (by simp)
    rw [← hhandle]
    simp [CompileState.handle]
  unfold Alike
  rw [hrun]
  exact ⟨hmoves.handle, _, rfl,
    (hmoves.redirects context).modify hcontext fun _ => .ofValue literal.value⟩

/-- An event in front changes nothing about what goes to the context. -/
theorem redirected_noting {emitter : Emitter} {results : List OpLine → List SlotId} (event : Event)
    (h : emitter.Redirected results) : (noting event emitter).Redirected results :=
  fun context state state' hhandle hcontext =>
    h context (state.noted event) (state'.noted event) hhandle hcontext

end Emitter

/-- The slot that an operation writes last, given its op-lines; other nodes have none. -/
def Node.closingResults (node : Node) (lines : List OpLine) : List SlotId :=
  if node.kind.isOperation then (closingResult? lines).toList else []

/-- A node sends what it writes last to the context if it is an operation, and nothing otherwise. -/
theorem Node.emitter_redirected (node : Node) : node.emitter.Redirected node.closingResults := by
  have hbuilt := Node.emitter_built node
  obtain ⟨kind, attributes, fields⟩ := node
  unfold Node.closingResults NodeKind.isOperation
  unfold Node.emitter at hbuilt ⊢
  rcases hdescriptor : kind.descriptor? with _ | descriptor
  · simp only [hdescriptor] at hbuilt ⊢
    rcases hroutine : kind.routine? with _ | routine
    · exact redirected_of_ignored (.unsupported kind) fun _ => rfl
    · simp only [hroutine] at hbuilt ⊢
      -- Of the routines only the one of parameters looks at the context.
      cases routine with
      | param => exact redirected_noting _ (redirected_parameter _ (fieldEmitter_built _ fields))
      | _ => exact redirected_of_ignored hbuilt fun _ => rfl
  · simp only
    refine redirected_noting _ ?_
    cases descriptor with
    | argument field => exact redirected_argument (fieldEmitter_built _ fields)
    | literal field separator => exact redirected_constant _
    | unary operation field => exact redirected_unary _ (fieldEmitter_built _ fields)
    | binary operation left right =>
      exact redirected_binary _ (fieldEmitter_built _ fields) (fieldEmitter_built _ fields)

/-! ## Statement lists -/

/-- The slots that the top-level statements that are operations write last, when they are compiled
without a context. -/
def closingResults : List Node → CompileState → List SlotId
  | [], _ => []
  | node :: rest, state =>
    match (node.emitter none).run.run state with
    | (.ok lines, after) => node.closingResults lines ++ closingResults rest after
    | (.error _, _) => []

/-- The closing results of statements are those of the first and then those of the others. -/
theorem closingResults_cons {node : Node} {state after : CompileState} {lines : List OpLine}
    (hrun : (node.emitter none).run.run state = (.ok lines, after)) (rest : List Node) :
    closingResults (node :: rest) state =
      node.closingResults lines ++ closingResults rest after := by
  rw [closingResults, hrun]

/-- What an operation writes last is named by its op-lines. -/
theorem Node.closingResults_subset (node : Node) (lines : List OpLine) :
    node.closingResults lines ⊆ lineSlots lines := by
  intro slot hslot
  unfold Node.closingResults at hslot
  split at hslot
  · rw [Option.mem_toList] at hslot
    obtain ⟨line, hlast, hresult⟩ := Option.bind_eq_some_iff.mp hslot
    obtain ⟨init, rfl⟩ := List.getLast?_eq_some_iff.mp hlast
    rw [lineSlots_append, lineSlots_cons]
    have hmem : slot ∈ line.op.slots := by
      cases hop : line.op <;> simp_all [Op.result?, Op.slots]
    simp [hmem]
  · cases hslot

/-- Statements compiled without a context and in one. -/
theorem compile_redirected (nodes : List Node) (context : SlotId) (state state' : CompileState)
    (hhandle : state'.handle = state.handle) (hcontext : context.index < state'.heap.size) :
    Alike (compile nodes none) (compile nodes (some context)) state state'
      fun lines lines' after after' => after'.handle = after.handle ∧
        closingResults nodes state ⊆ lineSlots lines ∧
        ∃ rename, lines' = renamedLines (.ofSlots rename) lines ∧
          Redirects context (closingResults nodes state) rename state.heap state'.heap after.heap
            after'.heap := by
  induction nodes generalizing state state' with
  | nil =>
    exact .pure ⟨hhandle, List.nil_subset _, _, rfl, (Moves.refl hhandle rfl).redirects context⟩
  | cons node rest ih =>
    -- Each statement is related by itself, and its slots keep their new names in the whole.
    refine (node.emitter_redirected context state state' hhandle hcontext).runs.bind ?_
    rintro ops _ between between' ⟨hrun, hrun', hbetween, rename, rfl, hfirst⟩
    have hadds := ((Node.emitter_built node).extends none state (by simp)).of_run_ok hrun
    have hadds' := ((Node.emitter_built node).extends (some context) state'
      (by simpa using hcontext)).of_run_ok hrun'
    have hthere : context.index < between'.heap.size :=
      Nat.lt_of_lt_of_le hcontext hadds'.grows.size_le
    refine (ih between between' hbetween hthere).runs.bind ?_
    rintro more _ after after' ⟨hrest, hrest', hafter, hnamed, rename', rfl, hsecond⟩
    have hmore := adds_of_run hrest
    have hmore' := ((compile_built rest).extends (some context) between'
      (by simpa using hthere)).of_run_ok hrest'
    refine .pure ⟨hafter, ?_, Redirects.glued between.heap rename rename', ?_, ?_⟩
    · rw [closingResults_cons hrun, lineSlots_append]
      exact List.append_subset.mpr
        ⟨List.subset_append_of_subset_left _ (node.closingResults_subset ops),
          List.subset_append_of_subset_right _ hnamed⟩
    · rw [renamedLines_append]
      congr 1
      · refine renamedLines_congr ops fun slot hslot => (Redirects.glued_of_lt ?_).symm
        exact ((hadds.spans slot hslot).resolve_left (by simp)).2
      · refine renamedLines_congr more fun slot hslot => (Redirects.glued_of_le ?_).symm
        exact ((hmore.spans slot hslot).resolve_left (by simp)).1
    · rw [closingResults_cons hrun]
      exact hfirst.trans hsecond hadds.grows hmore.grows hadds'.grows hmore'.grows

/-- The new name of a slot that can be found from op-lines can be found from the renamed ones. -/
theorem Redirects.reachable {context : SlotId} {results : List SlotId} {rename : SlotId → SlotId}
    {before before' after after' : Heap} {lines : List OpLine}
    (h : Redirects context results rename before before' after after')
    (hadds : Heap.Adds none before (lineSlots lines) after) {slot : SlotId}
    (hslot : slot ∈ ReachableSlots after lines) :
    rename slot ∈ ReachableSlots after' (renamedLines (.ofSlots rename) lines) := by
  induction hslot with
  | @root slot hmem =>
    refine .root ?_
    rw [lineSlots_renamedLines]
    exact List.mem_map_of_mem hmem
  | @content slot next hreach hnext ih =>
    have hadded : before.Added after slot := hadds.reachable (fun _ _ => rfl) hreach
    -- A slot that has given way to the context is empty and leads nowhere.
    have hnot : slot ∉ results := by
      intro hmem
      rw [Heap.slotsOf, h.empty slot hmem] at hnext
      simp [Value.slots] at hnext
    refine .content ih ?_
    rw [Heap.slotsOf, h.cells slot hadded hnot, Cell.renamed, Value.slots_renamed]
    exact List.mem_map_of_mem hnext

/-- A context changes only where top-level results go. Without a context and in a slot that is
there, compilers that hand out the same handle next fail with the same error, or both succeed and
again hand out the same handle next. Then the op-lines in the context are those without it under new
names for slots. Of the slots that can be found from the latter, exactly the results of the
operations among the statements are sent to the context; all others have new names of their own, and
the cells behind these are theirs under new names. -/
theorem compile_in_context (nodes : List Node) (state state' : CompileState) (context : SlotId)
    (hhandle : state'.handle = state.handle) (hcontext : context.index < state'.heap.size) :
    (∃ e, ((compile nodes none).run.run state).1 = .error e ∧
        ((compile nodes (some context)).run.run state').1 = .error e) ∨
      ∃ lines after after' rename,
        (compile nodes none).run.run state = (.ok lines, after) ∧
        (compile nodes (some context)).run.run state' =
          (.ok (renamedLines (.ofSlots rename) lines), after') ∧
        after'.handle = after.handle ∧
        (∀ slot ∈ ReachableSlots after.heap lines,
          rename slot ∈ ReachableSlots after'.heap (renamedLines (.ofSlots rename) lines)) ∧
        (∀ slot, slot ∈ closingResults nodes state ↔
          slot ∈ ReachableSlots after.heap lines ∧ rename slot = context) ∧
        Set.InjOn rename {slot | slot ∈ ReachableSlots after.heap lines ∧ rename slot ≠ context} ∧
        ∀ slot ∈ ReachableSlots after.heap lines, rename slot ≠ context →
          after'.heap.get (rename slot) = (after.heap.get slot).renamed (.ofSlots rename) := by
  have halike := compile_redirected nodes context state state' hhandle hcontext
  rcases hrun : (compile nodes none).run.run state with ⟨e | lines, after⟩
  · obtain ⟨after', hrun'⟩ := halike.of_run_error hrun
    exact Or.inl ⟨e, rfl, by rw [hrun']⟩
  · obtain ⟨_, after', hrun', hafter, hnamed, rename, rfl, hredirects⟩ := halike.of_run_ok hrun
    have hadds := adds_of_run hrun
    have hadded : ∀ slot ∈ ReachableSlots after.heap lines, state.heap.Added after.heap slot :=
      fun slot hslot => hadds.reachable (fun _ _ => rfl) hslot
    -- Of the slots that can be found, just the closing results have given way to the context.
    have hiff : ∀ slot ∈ ReachableSlots after.heap lines,
        (rename slot = context ↔ slot ∈ closingResults nodes state) := fun slot hslot =>
      hredirects.eq_context_iff hcontext (hadded slot hslot)
    refine Or.inr ⟨lines, after, after', rename, rfl, hrun', hafter,
      fun slot hslot => hredirects.reachable hadds hslot, fun slot => ?_, ?_,
      fun slot hslot hne => ?_⟩
    · constructor
      · intro hslot
        have hreach : slot ∈ ReachableSlots after.heap lines := .root (hnamed hslot)
        exact ⟨hreach, (hiff slot hreach).mpr hslot⟩
      · rintro ⟨hslot, heq⟩
        exact (hiff slot hslot).mp heq
    · rintro slot ⟨hslot, hne⟩ other ⟨hother, hne'⟩ heq
      exact hredirects.injective slot other (hadded slot hslot) (hadded other hother)
        (fun hmem => hne ((hiff slot hslot).mpr hmem))
        (fun hmem => hne' ((hiff other hother).mpr hmem)) heq
    · exact hredirects.cells slot (hadded slot hslot) fun hmem => hne ((hiff slot hslot).mpr hmem)

/-- A function and a fetch, compiled behind a failure without a context and in a new slot: the
result of the fetch is all that goes there. -/
theorem compile_in_context_function :
    ((refusedState.added {}).handle = refusedState.handle ∧
      3 < (refusedState.added {}).heap.size ∧ (refusedState.added {}).heap.get ⟨3⟩ = {}) ∧
      ∃ lines after after' rename,
        (compile functionNodes none).run.run refusedState = (.ok lines, after) ∧
        (compile functionNodes (some ⟨3⟩)).run.run (refusedState.added {}) =
          (.ok (renamedLines (.ofSlots rename) lines), after') ∧
        ∀ slot, slot ∈ ReachableSlots after.heap lines ∧ rename slot = ⟨3⟩ ↔ slot = ⟨10⟩ := by
  have hhandle : (refusedState.added {}).handle = refusedState.handle := rfl
  have hthere : 3 < (refusedState.added {}).heap.size := by decide
  have hok : ((compile functionNodes none).run.run refusedState).1.toOption.isSome := by
    decide +kernel
  have hclosing : closingResults functionNodes refusedState = [⟨10⟩] := by decide +kernel
  refine ⟨⟨hhandle, hthere, rfl⟩, ?_⟩
  rcases compile_in_context functionNodes refusedState (refusedState.added {}) ⟨3⟩ hhandle hthere
    with ⟨e, he, -⟩ | ⟨lines, after, after', rename, hrun, hrun', -, -, hresults, -⟩
  · rw [he] at hok
    cases hok
  · refine ⟨lines, after, after', rename, hrun, hrun', fun slot => ?_⟩
    rw [← hresults slot, hclosing, List.mem_singleton]

end Lowering
