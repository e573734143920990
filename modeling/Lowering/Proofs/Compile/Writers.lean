import Lowering.Proofs.Compile.Composition
import Lowering.Proofs.Compile.Roles
import Lowering.Proofs.Tree.Walk

/-!
# Who writes a slot

An operation writes its context, or a slot that was added for it. A field that is compiled into a
slot has that slot for the context of every node in it, so a slot has as many writers as there are
operations in its field, through nested lists. `Emitter.Writes` counts how often an emitter has its
context as a result; what it adds it writes once at most, as long as no field has two operations
(`Node.emitter_writes`). Then every slot has at most one writer (`writer_unique`). Statements that
echo two variables show that the condition is needed (`writer_not_unique`).
-/

namespace Lowering

open CompileM Emitter

/-- The slots that an operation writes. -/
def Op.results (op : Op) : List SlotId :=
  op.result?.toList

/-- An emitter has its context as a result at most a number of times, and every slot that it adds at
most once. -/
def Emitter.Writes (emitter : Emitter) (limit : Nat) : Prop :=
  ∀ context state, (∀ slot ∈ context, slot.index < state.heap.size) →
    Ends (emitter context) state
      (fun ops after => Spreads Op.results context limit state after (lineNames Op.results ops) [])
      fun _ _ => True

namespace Emitter

variable {emitter first second : Emitter} {limit limit' count : Nat} {context : Option SlotId}
  {before state : CompileState} {hand free rest : List SlotId} {slot : SlotId}
  {done : List OpLine → CompileState → Prop}

/-- An emitter that runs behind other steps, without a context. -/
theorem Writes.ends_behind (h : emitter.Writes limit)
    (hstate : Spreads Op.results context count before state hand free)
    (hdone : ∀ ops after,
      Spreads Op.results context count before after (hand ++ lineNames Op.results ops) free →
        done ops after) : Ends (emitter none) state done fun _ _ => True := by
  refine (h none state (by simp)).mono (fun ops after hops => hdone ops after ?_)
    fun _ _ _ => trivial
  simpa using hstate.behind hops

/-- An emitter that runs behind other steps, in the same context. -/
theorem Writes.ends_again (h : emitter.Writes limit)
    (hstate : Spreads Op.results context count before state hand free)
    (hdone : ∀ ops after, Spreads Op.results context (count + limit) before after
      (hand ++ lineNames Op.results ops) [] → done ops after) :
    Ends (emitter context) state done fun _ _ => True := by
  have hthere : ∀ slot ∈ context, slot.index < state.heap.size := fun slot hslot =>
    Nat.lt_of_lt_of_le (hstate.there slot hslot) hstate.size_le
  exact (h context state hthere).mono (fun ops after hops => hdone ops after (hstate.again hops))
    fun _ _ _ => trivial

/-- An emitter that runs behind other steps and has a free slot for its context. -/
theorem Writes.ends_into (h : emitter.Writes 1)
    (hstate : Spreads Op.results context count before state hand free) (hslot : slot ∈ free)
    (hrest : ∀ other ∈ rest, other ∈ free ∧ other ≠ slot)
    (hdone : ∀ ops after,
      Spreads Op.results context count before after (hand ++ lineNames Op.results ops) rest →
        done ops after) : Ends (emitter (some slot)) state done fun _ _ => True := by
  have hthere : ∀ other ∈ some slot, other.index < state.heap.size := by
    rintro _ ⟨rfl⟩
    exact hstate.lt_size_of_free hslot
  exact (h (some slot) state hthere).mono
    (fun ops after hops => hdone ops after (hstate.into hops (Nat.le_refl 1) hslot hrest))
    fun _ _ _ => trivial

/-- A greater limit holds as well. -/
theorem Writes.mono (h : emitter.Writes limit) (hle : limit ≤ limit') : emitter.Writes limit' :=
  fun context state hcontext =>
    (h context state hcontext).mono (fun _ _ hops => hops.mono hle) fun _ _ hfails => hfails

/-- No code writes nothing. -/
theorem writes_skip : skip.Writes 0 :=
  fun _ _ hcontext => ends_skip.mpr (.start hcontext)

/-- One piece and then another write the context as often as both of them together. -/
theorem writes_append (hfirst : first.Writes limit) (hsecond : second.Writes limit') :
    (append first second).Writes (limit + limit') := by
  intro context state hcontext
  rw [ends_append]
  refine hfirst.ends_again (.start hcontext) fun ops state₁ hops => ?_
  refine hsecond.ends_again hops fun more state₂ hmore => ?_
  simpa using hmore

/-- An event in front writes nothing. -/
theorem writes_noting (event : Event) (h : emitter.Writes limit) :
    (noting event emitter).Writes limit := by
  intro context state hcontext
  rw [ends_noting]
  refine h.ends_again ((Spreads.start hcontext).noted event) fun ops after hops => ?_
  simpa using hops

/-- A node that cannot be compiled returns nothing, within every limit. -/
theorem writes_unsupported (kind : NodeKind) : (unsupported kind).Writes limit :=
  fun _ _ _ => (ends_unsupported kind).mpr trivial

/-- A literal without effect writes nothing. -/
theorem writes_dropped (literal : Scalar) : (dropped literal).Writes 0 := by
  intro context state hcontext
  rw [ends_dropped]
  exact (Spreads.start hcontext).noted _

/-- A literal has no op-lines. -/
theorem sequences_of_isLiteral {value : Value} (h : value.IsLiteral) : value.sequences = [] :=
  (Territory.slots_of_isLiteral value h).2

/-- A literal is no op-line, so it writes nothing in the sense of one. -/
theorem writes_folded (literal : Scalar) : (folded literal).Writes 0 := by
  intro context state hcontext
  cases context with
  | none =>
    rw [ends_folded_none]
    exact (Spreads.start hcontext).noted _
  | some slot =>
    rw [ends_folded_some]
    exact (Spreads.start hcontext).written slot fun _ =>
      Or.inl (sequences_of_isLiteral literal.toValue_isLiteral)

/-- A constant is no op-line, so it writes nothing in the sense of one. -/
theorem writes_constant {literal : Constant} (hliteral : literal.value.IsLiteral) :
    (constant literal).Writes 0 := by
  intro context state hcontext
  cases context with
  | none =>
    rw [ends_constant_none]
    exact .start hcontext
  | some slot =>
    rw [ends_constant_some]
    exact ((Spreads.start hcontext).notedMisplaced _).written slot fun _ =>
      Or.inl (sequences_of_isLiteral hliteral)

/-- The slot of a result is used once it is taken. -/
theorem spreads_withResult (h : Spreads Op.results context 0 before state hand []) :
    Spreads Op.results context 1 before (state.withResult context).advanced
      (hand ++ [state.resultOf context]) [] := by
  refine Spreads.advanced ?_
  cases context with
  | none =>
    exact (h.added_empty.take (List.mem_singleton_self _) (List.forall_mem_nil _)).mono
      (Nat.zero_le 1)
  | some slot =>
    -- The operands were compiled into slots of their own, so this is the only use of the context.
    exact h.take_context

/-- An operation on one operand writes its context once. -/
theorem writes_unary {operand : Emitter} (kind : UnaryKind) (h : operand.Writes 1) :
    (unary kind operand).Writes 1 := by
  intro context state hcontext
  rw [ends_unary]
  refine h.ends_into (Spreads.start hcontext).added_empty (by simp) (List.forall_mem_nil _)
    fun ops state₁ hops => ?_
  simpa [Op.results, Op.result?, Op.innerNames] using spreads_withResult hops

/-- An operation on two operands writes its context once. -/
theorem writes_binary {left right : Emitter} (kind : BinaryKind) (hleft : left.Writes 1)
    (hright : right.Writes 1) : (binary kind left right).Writes 1 := by
  intro context state hcontext
  rw [ends_binary]
  -- Both operands have their slots before the first is compiled, which leaves the other free.
  have hother : ∀ other ∈ [(state.added {}).heap.next],
      other ∈ [] ++ [state.heap.next] ++ [(state.added {}).heap.next] ∧
        other ≠ state.heap.next := by
    simp [Heap.next, Heap.size_add]
  refine hleft.ends_into (Spreads.start hcontext).added_empty.added_empty (by simp) hother
    fun ops state₁ hops => ?_
  refine hright.ends_into hops (by simp) (List.forall_mem_nil _) fun more state₂ hmore => ?_
  simpa [Op.results, Op.result?, Op.innerNames] using spreads_withResult hmore

/-- An argument changes its context, but no op-line writes it. -/
theorem writes_argument {value : Emitter} (h : value.Writes 1) : (argument value).Writes 0 := by
  intro context state hcontext
  rw [ends_argument]
  refine h.ends_into (Spreads.start hcontext).added_empty (by simp) (List.forall_mem_nil _)
    fun ops state₁ hops => ?_
  cases context with
  | none => exact hops
  | some target =>
    refine hops.written target fun cell => ?_
    simpa [Value.sequences] using Cell.sequences_push (.slot state.heap.next) cell

/-- Text between the statements is echoed into a slot of its own. -/
theorem writes_inlineText {text : Constant} (htext : text.value.IsLiteral) :
    (inlineText text).Writes 0 := by
  intro context state hcontext
  rw [ends_inlineText]
  have hcell : (Cell.ofValue text.value).value.sequences = [] := sequences_of_isLiteral htext
  have hstart : Spreads Op.results context 0 state state [] [] := .start hcontext
  have hslots := ((hstart.notedMisplaced text.misplaced).added hcell).added_empty
  have htaken := (hslots.take (List.mem_append_right _ (List.mem_singleton_self _))
    (List.forall_mem_nil _)).advanced
  simpa [Op.results, Op.result?, Op.innerNames, Heap.next, Heap.size_add] using htaken

/-- A parameter changes its context, but no op-line writes it. -/
theorem writes_parameter {default : Emitter} (declaration : Declaration) (h : default.Writes 1) :
    (parameter declaration default).Writes 0 := by
  intro context state hcontext
  rw [ends_parameter]
  -- The context is not handed on: it gets the record, and the default has a slot of its own.
  have hnone : Spreads Op.results none 0 state state [] [] := .start (by simp)
  refine h.ends_into hnone.added_empty (by simp) (List.forall_mem_nil _) fun ops state₁ hops => ?_
  cases context with
  | none => exact hops.drop
  | some target =>
    exact Spreads.store ⟨declaration.name, _, ops, declaration.byRef, declaration.typeHint⟩ hops
      (hcontext target rfl)

/-- A function has no op-line that writes its context. -/
theorem writes_function {body name params : Emitter} (hbody : body.Writes limit)
    (hname : name.Writes 1) (hparams : params.Writes 1) : (function body name params).Writes 0 := by
  intro context state hcontext
  rw [ends_function]
  refine hbody.ends_behind (.start hcontext) fun stmts state₁ hstmts => ?_
  refine hname.ends_into hstmts.added_empty (by simp) (List.forall_mem_nil _)
    fun ops state₂ hops => ?_
  have hcell : (Cell.ofValue (.array [])).value.sequences = [] := by
    simp [Cell.ofValue, Value.sequences, valueSequences]
  refine hparams.ends_into (hops.added hcell) (by simp) (List.forall_mem_nil _)
    fun more state₃ hmore => ?_
  refine ((hmore.noted _).advanced).perm ?_
  -- The body is compiled first and stands in the last op-line.
  simp only [lineNames_append, lineNames_cons, lineNames_nil, Op.results, Op.result?, Op.innerNames,
    Option.toList_none, List.nil_append, List.append_nil]
  rw [List.append_assoc (lineNames _ stmts)]
  exact List.perm_append_comm

/-- A guarded branch has no op-line that writes its context. -/
theorem writes_guardedTo {branch : Branch} (target : List OpLine → OpLine → OpId)
    (hcond : branch.cond.Writes 1) (hstmts : branch.stmts.Writes limit) :
    Writes (fun _ => guardedTo target branch) 0 := by
  intro context state hcontext
  rw [ends_guardedTo]
  refine hcond.ends_into (Spreads.start hcontext).added_empty (by simp) (List.forall_mem_nil _)
    fun test state₁ htest => ?_
  refine hstmts.ends_behind htest.advanced.advanced fun stmts state₂ hstmts => ?_
  simpa [Op.results, Op.result?, Op.innerNames] using hstmts.advanced

/-- A loop that tests first has no op-line that writes its context. -/
theorem writes_whileLoop {loop : Branch} (hcond : loop.cond.Writes 1)
    (hstmts : loop.stmts.Writes limit) : (whileLoop loop).Writes 0 := by
  rw [whileLoop_eq_guardedTo]
  exact writes_guardedTo _ hcond hstmts

/-- A loop that tests last has no op-line that writes its context. -/
theorem writes_doLoop {loop : Branch} (hcond : loop.cond.Writes 1)
    (hstmts : loop.stmts.Writes limit) : (doLoop loop).Writes 0 := by
  intro context state hcontext
  rw [ends_doLoop]
  refine hstmts.ends_behind (Spreads.start hcontext).added_empty fun stmts state₁ hstmts => ?_
  refine hcond.ends_into hstmts (by simp) (List.forall_mem_nil _) fun test state₂ htest => ?_
  simpa [Op.results, Op.result?, Op.innerNames] using htest.advanced

/-- A conditional has no op-line that writes its context. -/
theorem writes_conditional {branches : List Branch} {otherwise : Emitter}
    (hcond : ∀ branch ∈ branches, branch.cond.Writes 1)
    (hstmts : ∀ branch ∈ branches, ∃ limit, branch.stmts.Writes limit)
    (hotherwise : otherwise.Writes limit) : (conditional branches otherwise).Writes 0 := by
  intro context state hcontext
  rw [ends_conditional]
  have hguarded : Writes (fun _ => guardedAll state.handle branches) 0 := by
    refine guardedAll_induction (Writes · 0) writes_skip
      (fun hfirst hsecond => writes_append hfirst hsecond) state.handle fun branch hbranch => ?_
    obtain ⟨limit, hbranch'⟩ := hstmts branch hbranch
    exact writes_guardedTo _ (hcond branch hbranch) hbranch'
  refine @Writes.ends_behind _ _ _ _ _ state.advanced _ _ _ hguarded
    (Spreads.start hcontext).advanced fun ops state₁ hops => ?_
  refine hotherwise.ends_behind hops fun more state₂ hmore => ?_
  simpa [Op.results, Op.result?, Op.innerNames] using hmore

/-- Pieces in turn. -/
theorem writes_inTurn {emitters : List Emitter}
    (h : ∀ emitter ∈ emitters, ∃ limit, emitter.Writes limit) :
    ∃ limit, (inTurn emitters).Writes limit := by
  induction emitters with
  | nil => exact ⟨0, writes_skip⟩
  | cons emitter rest ih =>
    obtain ⟨⟨limit, hfirst⟩, hrest⟩ := List.forall_mem_cons.mp h
    obtain ⟨limit', hsecond⟩ := ih hrest
    exact ⟨limit + limit', writes_append hfirst hsecond⟩

end Emitter

/-! ## Trees -/

/-- The number of nodes that are operations. -/
def operations (nodes : List Node) : Nat :=
  nodes.countP fun node => node.kind.isOperation

/-- A single node is one operation or none. -/
theorem operations_singleton (node : Node) :
    operations [node] = if node.kind.isOperation then 1 else 0 :=
  List.countP_singleton

/-- The number of operations that stand in the field with a name, through nested lists. -/
def Node.operationsOf (node : Node) (name : String) : Nat :=
  operations (node.membersOf name)

/-- No field of a node that is compiled into a slot of its own has two operations. -/
def Node.HasSingleOperands (node : Node) : Prop :=
  ∀ field ∈ node.operandFields, field.1.operationsOf field.2 ≤ 1

instance (node : Node) : Decidable node.HasSingleOperands :=
  inferInstanceAs (Decidable (∀ field ∈ node.operandFields, _))

/-- How often a node has its context as a result, given how often its fields have theirs. -/
theorem Node.emitter_writes_of_fields {node : Node}
    (h : ∀ owner name, (owner, name) ∈ node.compiledFields →
      (owner.emitterOf name).Writes (owner.operationsOf name))
    (hsingle : node.HasSingleOperands) : node.emitter.Writes (operations [node]) := by
  have hoperand : ∀ owner name, (owner, name) ∈ node.operandFields →
      (owner.emitterOf name).Writes 1 := fun owner name hfield =>
    (h owner name (node.operandFields_subset hfield)).mono (hsingle (owner, name) hfield)
  unfold Node.operandFields at hoperand
  unfold Node.compiledFields at h
  rw [Node.emitter_eq, operations_singleton, NodeKind.isOperation]
  -- A field that feeds an operand is compiled with a single operation; all others may have any
  -- number.
  rcases hdescriptor : node.kind.descriptor? with _ | descriptor
  · simp only [hdescriptor] at h hoperand
    rcases hroutine : node.kind.routine? with _ | routine
    · exact writes_unsupported _
    · refine writes_noting _ ?_
      simp only [hroutine] at h hoperand
      cases routine with
      | param => exact writes_parameter _ (hoperand node _ (by simp))
      | function =>
        exact writes_function (h node _ (by simp)) (hoperand node _ (by simp))
          (hoperand node _ (by simp))
      | conditional =>
        have hbranches : ∀ branch ∈ (node :: node.nodes "elseifs").map Node.branch,
            branch.cond.Writes 1 ∧ ∃ limit, branch.stmts.Writes limit := by
          intro branch hbranch
          obtain ⟨owner, howner, rfl⟩ := List.mem_map.mp hbranch
          rw [Node.branch_eq]
          refine ⟨hoperand owner _ (List.mem_map_of_mem howner), _, h owner _ ?_⟩
          exact List.mem_append_left _ (List.mem_flatMap.mpr ⟨owner, howner, by simp⟩)
        obtain ⟨limit, hotherwise⟩ := @writes_inTurn ((node.nodes "else").map Node.statements)
          fun emitter hemitter => by
            obtain ⟨owner, howner, rfl⟩ := List.mem_map.mp hemitter
            rw [Node.statements_eq]
            exact ⟨_, h owner _ (List.mem_append_right _ (List.mem_map_of_mem howner))⟩
        exact writes_conditional (fun branch hbranch => (hbranches branch hbranch).1)
          (fun branch hbranch => (hbranches branch hbranch).2) hotherwise
      | whileLoop =>
        rw [Node.branch_eq]
        exact writes_whileLoop (hoperand node _ (by simp)) (h node _ (by simp))
      | doLoop =>
        rw [Node.branch_eq]
        exact writes_doLoop (hoperand node _ (by simp)) (h node _ (by simp))
      | inlineHtml => exact writes_inlineText (Node.constant_isLiteral _ _ _)
  · refine writes_noting _ ?_
    simp only [hdescriptor] at h hoperand
    cases descriptor with
    | argument field => exact writes_argument (hoperand node field (by simp))
    | literal field separator => exact writes_constant (Node.constant_isLiteral _ _ _)
    | unary operation field => exact writes_unary _ (hoperand node field (by simp))
    | binary operation left right =>
      exact writes_binary _ (hoperand node left (by simp)) (hoperand node right (by simp))

/-- Code has its context as a result as often as there are operations among the nodes that it is
for. -/
theorem gathers_writes : Gathers fun emitter nodes =>
    (∀ node ∈ walk nodes, node.HasSingleOperands) → emitter.Writes (operations nodes) where
  skip := fun _ => writes_skip
  append := fun hfirst hsecond h => by
    rw [walk_append, List.forall_mem_append] at h
    rw [operations, List.countP_append]
    exact writes_append (hfirst h.1) (hsecond h.2)
  folded := fun s _ => writes_folded s
  dropped := fun s _ => writes_dropped s

/-- A node that is an operation has its context as a result once, and other nodes never. -/
theorem Node.emitter_writes (node : Node) (h : ∀ other ∈ node.walk, other.HasSingleOperands) :
    node.emitter.Writes (operations [node]) := by
  refine Node.emitter_gathers gathers_writes (fun node hfields hwalk => ?_) node
    (by rwa [walk_singleton])
  rw [walk_singleton, Node.walk_eq_fields] at hwalk
  obtain ⟨hnode, hrest⟩ := List.forall_mem_cons.mp hwalk
  refine Node.emitter_writes_of_fields (fun owner name hfield => ?_) hnode
  refine hfields owner name hfield fun other hother => ?_
  rw [← Node.walkOf_eq_members] at hother
  exact hrest other (List.mem_flatMap.mpr ⟨(owner, name), hfield, hother⟩)

/-- Statements write their context once for each operation among them, if every field is compiled
into a slot that no two operations share. -/
theorem compile_writes (nodes : List Node) (h : ∀ node ∈ walk nodes, node.HasSingleOperands) :
    (compile nodes).Writes (operations nodes) :=
  compile_gathers gathers_writes nodes
    (fun node _ hnode => Node.emitter_writes node (by rwa [walk_singleton] at hnode)) h

/-! ## Programs -/

/-- Every slot has at most one writer, as long as no field that is compiled into a slot of its own
has two operations. Of all op-lines of what a compiler returns without a context, those inside
functions and in the records that can be found from it included, no two at different positions write
the same slot. -/
theorem writer_unique (nodes : List Node) (state after : CompileState) (lines : List OpLine)
    (hsingle : ∀ node ∈ walk nodes, node.HasSingleOperands)
    (hrun : (compile nodes none).run.run state = (.ok lines, after)) :
    ∀ (position position' : Position) (line line' : OpLine) (slot : SlotId),
      OpLineAt after.heap lines position line → OpLineAt after.heap lines position' line' →
        line.op.result? = some slot → line'.op.result? = some slot → position = position' := by
  intro position position' line line' slot hat hat' hresult hresult'
  obtain ⟨owner, hspread⟩ := (compile_writes nodes hsingle none state (by simp)).of_run_ok hrun
  have hwritten : slot ∈ line.op.results := Option.mem_toList.mpr hresult
  have hwritten' : slot ∈ line'.op.results := Option.mem_toList.mpr hresult'
  exact hspread.position_eq (adds_of_run hrun) hat hat' hwritten hwritten'

/-- A function with a parameter that has a default, and statements with operations in all their
fields. -/
def nestedOperations : List Node :=
  [⟨.stmtFunction, [], [("name", .scalar (.string "f")),
      ("params", .list [.node ⟨.param, [], [("name", .scalar (.string "p")),
        ("default", .node (variableNode "d"))]⟩]),
      ("stmts", .list [.node ⟨.stmtEcho, [], [("exprs", .list [.node (variableNode "x")])]⟩])]⟩,
    ⟨.exprFuncCall, [], [("name", .node (variableNode "g")),
      ("args", .list [.node ⟨.arg, [], [("value", .node (variableNode "y"))]⟩,
        .node ⟨.arg, [], [("value", .node (variableNode "z"))]⟩])]⟩]

/-- `nestedOperations` compile, into op-lines that stand in a record and in a function as well, and
no two of them write the same slot. -/
theorem writer_unique_nested :
    (∀ node ∈ walk nestedOperations, node.HasSingleOperands) ∧
      ∃ lines after, (compile nestedOperations none).run.run {} = (.ok lines, after) ∧
        lines.length = 5 ∧
        ∀ (position position' : Position) (line line' : OpLine) (slot : SlotId),
          OpLineAt after.heap lines position line → OpLineAt after.heap lines position' line' →
            line.op.result? = some slot → line'.op.result? = some slot →
              position = position' := by
  have hsingle : ∀ node ∈ walk nestedOperations, node.HasSingleOperands := by decide +kernel
  have hlength : ((compile nestedOperations none).run.run {}).1.toOption.map
      List.length = some 5 := by decide +kernel
  refine ⟨hsingle, ?_⟩
  rcases hrun : (compile nestedOperations none).run.run {} with ⟨e | lines, after⟩
  · rw [hrun] at hlength
    cases hlength
  · rw [hrun] at hlength
    exact ⟨lines, after, rfl, Option.some.inj hlength,
      writer_unique nestedOperations {} after lines hsingle hrun⟩

/-- A statement that echoes two variables. -/
def echoTwo : List Node :=
  [⟨.stmtEcho, [], [("exprs", .list [.node (variableNode "a"), .node (variableNode "b")])]⟩]

/-- The op-lines of `echoTwo`. -/
def echoTwoLines : List OpLine :=
  [⟨⟨0⟩, .unary .fetchVariable ⟨1⟩ ⟨0⟩⟩, ⟨⟨1⟩, .unary .fetchVariable ⟨2⟩ ⟨0⟩⟩,
    ⟨⟨2⟩, .unary .echoOp ⟨0⟩ ⟨3⟩⟩]

/-- Where a field has two operations, both write the slot that the field is compiled into: the two
fetches of `echoTwo` write the operand of the echo. -/
theorem writer_not_unique :
    ¬∀ (nodes : List Node) (state after : CompileState) (lines : List OpLine),
      (compile nodes none).run.run state = (.ok lines, after) →
      ∀ (position position' : Position) (line line' : OpLine) (slot : SlotId),
        OpLineAt after.heap lines position line → OpLineAt after.heap lines position' line' →
          line.op.result? = some slot → line'.op.result? = some slot → position = position' := by
  intro hunique
  let after := ((compile echoTwo none).run.run {}).2
  have hrun : (compile echoTwo none).run.run {} = (.ok echoTwoLines, after) := rfl
  have hfirst : OpLineAt after.heap echoTwoLines (.returned 0 0)
      ⟨⟨0⟩, .unary .fetchVariable ⟨1⟩ ⟨0⟩⟩ := .returned rfl rfl
  have hsecond : OpLineAt after.heap echoTwoLines (.returned 0 1)
      ⟨⟨1⟩, .unary .fetchVariable ⟨2⟩ ⟨0⟩⟩ := .returned rfl rfl
  have hsame := hunique echoTwo {} after echoTwoLines hrun _ _ _ _ ⟨0⟩ hfirst hsecond rfl rfl
  cases hsame

end Lowering
