import Lowering.Proofs.Compile.Findings

/-!
# Folding checked as it happens

A literal that is all there is in a field is written into the slot that the field is compiled into.
`Emitter.watched` follows the compilation of a field with a test of just that, and fails if the test
does. Every node compiles as if each of its fields were watched (`Node.emitter_eq_watched`), so the
test holds wherever a literal is folded, in the middle of any run.

The slots that a node passes to its fields are new, so they are there when the literal is written;
`Emitter.RunsAs` compares emitters in such contexts only.
-/

namespace Lowering

open CompileM Emitter

/-! ## The test -/

/-- The literal that is all there is in a content. -/
def Child.lone? : Child → Option Scalar
  | .scalar s | .list [.scalar s] => some s
  | _ => none

/-- The literal that a value is. -/
def Value.toScalar? : Value → Option Scalar
  | .bool b => some (.bool b)
  | .long n => some (.long n)
  | .double x => some (.double x)
  | .string s => some (.string s)
  | _ => none

/-- The value of a literal is that literal. -/
theorem Scalar.toScalar?_toValue (literal : Scalar) :
    literal.toValue.toScalar? = some literal := by
  cases literal <;> rfl

/-- The compilation of a field with a given lone literal, if it has one, which fails unless the slot
that is the context holds that literal at the end. -/
def Emitter.watched (literal? : Option Scalar) (emitter : Emitter) : Emitter := fun context => do
  let ops ← emitter context
  match literal?, context with
  | some literal, some slot =>
    let cell ← cellOf slot
    if cell.value.toScalar? = some literal then return ops
    else throw (.unsupported "literal")
  | _, _ => return ops

/-- The compilation of the field with a name, watched. -/
def Node.watchedOf (node : Node) (name : String) : Emitter :=
  (node.emitterOf name).watched ((node.field? name).bind Child.lone?)

/-! ## The same runs -/

/-- An emitter runs as another in every context that is there. -/
def Emitter.RunsAs (emitter' emitter : Emitter) : Prop :=
  ∀ (context : Option SlotId) (state : CompileState),
    (∀ slot ∈ context, slot.index < state.heap.size) →
      (emitter' context).run.run state = (emitter context).run.run state

/-- Two steps are the same if they run alike from every state. -/
theorem CompileM.ext {α : Type} {step' step : CompileM α}
    (h : ∀ state, step'.run.run state = step.run.run state) : step' = step :=
  funext h

/-- Steps with the same run, followed by steps that have the same run wherever these end. -/
theorem CompileM.run_bind_congr {α β : Type} {step' step : CompileM α} {next' next : α → CompileM β}
    {state : CompileState} (h : step'.run.run state = step.run.run state)
    (hnext : ∀ a after, step.run.run state = (.ok a, after) →
      (next' a).run.run after = (next a).run.run after) :
    (step' >>= next').run.run state = (step >>= next).run.run state := by
  rw [ExceptT.run_bind, ExceptT.run_bind, StateT.run_bind, StateT.run_bind, h]
  rcases hrun : step.run.run state with ⟨e | a, after⟩
  · rfl
  · exact hnext a after hrun

/-- A slot that a step has added is there behind the step, and so is what was there before. -/
theorem CompileM.there_of_newSlot {cell : Cell} {state after : CompileState} {slot : SlotId}
    (hrun : (newSlot cell).run.run state = (.ok slot, after)) :
    slot.index < after.heap.size ∧ state.heap.size ≤ after.heap.size := by
  have hends : Ends (newSlot cell) state (fun slot after =>
      slot.index < after.heap.size ∧ state.heap.size ≤ after.heap.size) fun _ _ => True := by
    rw [ends_newSlot, CompileState.added_heap, Heap.size_add]
    exact ⟨Nat.lt_succ_self _, Nat.le_succ _⟩
  exact hends.of_run_ok hrun

namespace Emitter

variable {emitter' emitter : Emitter} {state after : CompileState} {slot : SlotId}

/-- What is there before a run is there behind it. -/
theorem Extends.size_le {context : Option SlotId} {ops : List OpLine} (h : emitter.Extends)
    (hcontext : ∀ slot ∈ context, slot.index < state.heap.size)
    (hrun : (emitter context).run.run state = (.ok ops, after)) :
    state.heap.size ≤ after.heap.size :=
  ((h context state hcontext).of_run_ok hrun).grows.size_le

/-- Without a context there is no condition. -/
theorem RunsAs.of_none (h : emitter'.RunsAs emitter) : emitter' none = emitter none :=
  CompileM.ext fun state => h none state (by simp)

/-- Emitters that run alike do so in a slot that is there. -/
theorem RunsAs.of_some (h : emitter'.RunsAs emitter) (hslot : slot.index < state.heap.size) :
    (emitter' (some slot)).run.run state = (emitter (some slot)).run.run state :=
  h (some slot) state (by simpa using hslot)

/-- In a slot that has just been added an emitter runs as the other. -/
theorem RunsAs.fresh (h : emitter'.RunsAs emitter) (cell : Cell) {β : Type}
    (next : SlotId → List OpLine → CompileM β) :
    (newSlot cell >>= fun slot => emitter' (some slot) >>= next slot) =
      newSlot cell >>= fun slot => emitter (some slot) >>= next slot := by
  refine CompileM.ext fun state => CompileM.run_bind_congr rfl fun slot after hslot => ?_
  exact CompileM.run_bind_congr (h.of_some (CompileM.there_of_newSlot hslot).1) fun _ _ _ => rfl

/-- An operation compiles its operand in a slot that is there. -/
theorem unary_congr (kind : UnaryKind) (h : emitter'.RunsAs emitter) :
    unary kind emitter' = unary kind emitter :=
  funext fun _ => h.fresh {} _

/-- An argument compiles its value in a slot that is there. -/
theorem argument_congr (h : emitter'.RunsAs emitter) : argument emitter' = argument emitter :=
  funext fun _ => h.fresh {} _

/-- A parameter compiles its default value in a slot that is there. -/
theorem parameter_congr (declaration : Declaration) (h : emitter'.RunsAs emitter) :
    parameter declaration emitter' = parameter declaration emitter :=
  funext fun _ => h.fresh {} _

/-- The slots of both operands are added before the first of them is compiled. -/
theorem binary_congr {left' left right' right : Emitter} (kind : BinaryKind)
    (hleft : left'.RunsAs left) (hright : right'.RunsAs right) (hextends : left.Extends) :
    binary kind left' right' = binary kind left right := by
  funext context
  refine CompileM.ext fun state => CompileM.run_bind_congr rfl fun op1 state₁ hop1 => ?_
  refine CompileM.run_bind_congr rfl fun op2 state₂ hop2 => ?_
  have hop1' : op1.index < state₂.heap.size :=
    Nat.lt_of_lt_of_le (CompileM.there_of_newSlot hop1).1 (CompileM.there_of_newSlot hop2).2
  refine CompileM.run_bind_congr (hleft.of_some hop1') fun ops state₃ hops => ?_
  have hop2' : op2.index < state₃.heap.size :=
    Nat.lt_of_lt_of_le (CompileM.there_of_newSlot hop2).1
      (hextends.size_le (by simpa using hop1') hops)
  exact CompileM.run_bind_congr (hright.of_some hop2') fun _ _ _ => rfl

/-- A function compiles its body without a context, and its name and its parameters in slots that
are there. -/
theorem function_congr {body' body name' name params' params : Emitter} (hbody : body'.RunsAs body)
    (hname : name'.RunsAs name) (hparams : params'.RunsAs params) :
    function body' name' params' = function body name params := by
  funext context
  unfold function
  rw [hbody.of_none]
  refine CompileM.ext fun state => CompileM.run_bind_congr rfl fun stmts state₁ _ => ?_
  refine CompileM.run_bind_congr rfl fun nameSlot state₂ hslot => ?_
  refine CompileM.run_bind_congr (hname.of_some (CompileM.there_of_newSlot hslot).1) ?_
  intro ops state₃ _
  refine CompileM.run_bind_congr rfl fun paramsSlot state₄ hslot' => ?_
  exact CompileM.run_bind_congr (hparams.of_some (CompileM.there_of_newSlot hslot').1)
    fun _ _ _ => rfl

/-- A guarded branch compiles its test in a slot that is there, and its statements without a
context. -/
theorem guarded_congr {branch' branch : Branch} (exit : OpId)
    (hcond : branch'.cond.RunsAs branch.cond) (hstmts : branch'.stmts.RunsAs branch.stmts) :
    guarded exit branch' = guarded exit branch := by
  unfold guarded
  rw [hstmts.of_none]
  exact hcond.fresh {} _

/-- A loop that tests first compiles its test in a slot that is there, and its statements without a
context. -/
theorem whileLoop_congr {loop' loop : Branch} (hcond : loop'.cond.RunsAs loop.cond)
    (hstmts : loop'.stmts.RunsAs loop.stmts) : whileLoop loop' = whileLoop loop := by
  unfold whileLoop
  rw [hstmts.of_none]
  exact funext fun _ => hcond.fresh {} _

/-- A loop that tests last compiles its test in a slot that is still there behind its statements. -/
theorem doLoop_congr {loop' loop : Branch} (hcond : loop'.cond.RunsAs loop.cond)
    (hstmts : loop'.stmts.RunsAs loop.stmts) (hextends : loop.stmts.Extends) :
    doLoop loop' = doLoop loop := by
  funext context
  unfold doLoop
  rw [hstmts.of_none]
  refine CompileM.ext fun state => CompileM.run_bind_congr rfl fun slot state₁ hslot => ?_
  refine CompileM.run_bind_congr rfl fun stmts state₂ hrun => ?_
  have hthere : slot.index < state₂.heap.size :=
    Nat.lt_of_lt_of_le (CompileM.there_of_newSlot hslot).1 (hextends.size_le (by simp) hrun)
  exact CompileM.run_bind_congr (hcond.of_some hthere) fun _ _ _ => rfl

/-- Guarded branches may be replaced one by one. -/
theorem guardedAll_congr {nodes : List Node} {branch' branch : Node → Branch} (exit : OpId)
    (h : ∀ node ∈ nodes, guarded exit (branch' node) = guarded exit (branch node)) :
    guardedAll exit (nodes.map branch') = guardedAll exit (nodes.map branch) := by
  induction nodes with
  | nil => rfl
  | cons node rest ih =>
    obtain ⟨hnode, hrest⟩ := List.forall_mem_cons.mp h
    rw [List.map_cons, List.map_cons, guardedAll, guardedAll, hnode, ih hrest]

/-- Statements one after another, without a context, may be replaced one by one. -/
theorem inTurn_congr {nodes : List Node} {piece' piece : Node → Emitter}
    (h : ∀ node ∈ nodes, (piece' node).RunsAs (piece node)) :
    inTurn (nodes.map piece') none = inTurn (nodes.map piece) none := by
  induction nodes with
  | nil => rfl
  | cons node rest ih =>
    obtain ⟨hnode, hrest⟩ := List.forall_mem_cons.mp h
    change append _ (inTurn _) none = append _ (inTurn _) none
    rw [append, append, hnode.of_none, ih hrest]

/-- A conditional depends on what its branches and the statements behind them run as. -/
theorem conditional_congr {branches' branches : List Branch} {otherwise' otherwise : Emitter}
    (hbranches : ∀ exit, guardedAll exit branches' = guardedAll exit branches)
    (hotherwise : otherwise' none = otherwise none) :
    conditional branches' otherwise' = conditional branches otherwise := by
  unfold conditional
  simp only [hbranches, hotherwise]

end Emitter

/-! ## Nodes -/

/-- A node is put together the same from parts that run the same. -/
theorem Node.assemble_congr {node : Node} {part' part : Node → String → Emitter}
    (hpart : ∀ owner name, (part' owner name).RunsAs (part owner name))
    (hextends : ∀ owner name, (part owner name).Extends) :
    node.assemble part' = node.assemble part := by
  unfold Node.assemble
  rcases node.kind.descriptor? with _ | descriptor
  · rcases node.kind.routine? with _ | routine
    · rfl
    · refine congrArg (noting _) ?_
      cases routine with
      | param => exact parameter_congr _ (hpart node _)
      | function => exact function_congr (hpart node _) (hpart node _) (hpart node _)
      | conditional =>
        refine conditional_congr (fun exit => guardedAll_congr exit fun branch _ => ?_)
          (inTurn_congr fun branch _ => hpart branch _)
        exact guarded_congr exit (hpart branch _) (hpart branch _)
      | whileLoop => exact whileLoop_congr (hpart node _) (hpart node _)
      -- The test of this loop is compiled behind the statements, so its slot has to be there still.
      | doLoop => exact doLoop_congr (hpart node _) (hpart node _) (hextends node _)
      | inlineHtml => rfl
  · refine congrArg (noting _) ?_
    cases descriptor with
    | argument field => exact argument_congr (hpart node field)
    | literal field separator => rfl
    | unary operation field => exact unary_congr operation (hpart node field)
    -- The slot of the right operand has to be there still behind the left one.
    | binary operation left right =>
      exact binary_congr operation (hpart node left) (hpart node right) (hextends node left)

/-- A content that is a lone literal is folded. -/
theorem Child.emitter_of_lone {child : Child} {literal : Scalar}
    (h : child.lone? = some literal) : child.emitter = folded literal := by
  unfold Child.lone? at h
  split at h
  · rw [Child.emitter, Option.some.inj h]
  · rw [Child.emitter, Option.some.inj h]
  · cases h

/-- Folding a literal into a slot that is there passes the test. -/
theorem Emitter.watched_folded (literal : Scalar) :
    (watched (some literal) (folded literal)).RunsAs (folded literal) := by
  intro context state hcontext
  cases context with
  | none => rfl
  | some slot =>
    let written := state.written slot fun _ => .ofLiteral literal
    have hcell : (written.heap.get slot).value.toScalar? = some literal := by
      rw [CompileState.written_heap, Heap.get_modify, if_pos ⟨rfl, hcontext slot rfl⟩]
      exact literal.toScalar?_toValue
    have htest : (if (written.heap.get slot).value.toScalar? = some literal then pure []
        else throw (.unsupported "literal") : CompileM (List OpLine)) = pure [] := if_pos hcell
    exact congrArg (fun step => step.run.run written) htest

/-- Without a lone literal there is no test. -/
theorem Emitter.watched_none (emitter : Emitter) : watched none emitter = emitter := by
  funext context
  simp [watched]

/-- A field runs as it does when it is watched: a lone literal is always found in its slot at the
end. -/
theorem Node.watchedOf_runsAs (node : Node) (name : String) :
    (node.watchedOf name).RunsAs (node.emitterOf name) := by
  unfold Node.watchedOf Node.emitterOf
  rcases node.field? name with _ | child
  · rw [Option.bind_none, watched_none]
    exact fun _ _ _ => rfl
  · rw [Option.bind_some, Option.map_some, Option.getD_some]
    rcases hlone : child.lone? with _ | literal
    · rw [watched_none]
      exact fun _ _ _ => rfl
    · rw [Child.emitter_of_lone hlone]
      exact watched_folded literal

/-- Every node compiles as if each literal that is folded into a slot were then looked up there. -/
theorem Node.emitter_eq_watched (node : Node) : node.emitter = node.assemble Node.watchedOf := by
  rw [Node.emitter_eq_assemble]
  exact (Node.assemble_congr Node.watchedOf_runsAs fun owner name =>
    (owner.emitterOf_built name).extends).symm

/-! ## Calls -/

/-- No literal in a field that is compiled vanishes silently. The warnings of a call about dropped
literals are, one for one and in order, about the literals that are read off the statements and are
not folded. Nodes are put together from their fields, and stay the same when each field is watched:
a literal that is folded is the value of the slot that its field is compiled into. -/
theorem literals_folded_or_reported {nodes : List Node} {context : Option SlotId}
    {state after : CompileState} {lines : List OpLine}
    (hrun : (compile nodes context).run.run state = (.ok lines, after)) :
    (∃ events, after.log = events ++ state.log ∧
      events.reverse.filter Event.isDropWarning =
        (droppedLiterals (findings nodes)).map .literalDropped) ∧
    ∀ node : Node, node.emitter = node.assemble Node.emitterOf ∧
      node.emitter = node.assemble Node.watchedOf :=
  ⟨((compile_finds nodes context state).of_run_ok hrun).exists_events, fun node =>
    ⟨node.emitter_eq_assemble, node.emitter_eq_watched⟩⟩

/-- A function with literals in its name, in the default of its parameter and in its body, and a
conditional with a literal as its condition and one in place of its statements. -/
def scatteredNodes : List Node :=
  [⟨.stmtFunction, [],
      [("name", .scalar (.string "f")),
        ("params", .list [.node ⟨.param, [], [("default", .list [.scalar (.long 5)])]⟩]),
        ("stmts", .list [.node ⟨.stmtEcho, [],
          [("exprs", .list [.scalar (.string "a"), .list [.scalar (.string "b")]])]⟩])]⟩,
    ⟨.stmtIf, [], [("cond", .scalar (.bool true)), ("stmts", .scalar (.string "c"))]⟩]

/-- The state behind `scatteredNodes`. -/
def scatteredState : CompileState :=
  ((compile scatteredNodes none).run.run {}).2

/-- Three of the literals in `scatteredNodes` are folded, and the other three are reported. -/
theorem literals_folded_or_reported_scattered :
    findings scatteredNodes =
      [.dropped (.string "a"), .dropped (.string "b"), .folded (.string "f"), .folded (.long 5),
        .declared ⟨"", false, none⟩, .folded (.bool true), .dropped (.string "c")] ∧
    (∃ lines, (compile scatteredNodes none).run.run {} = (.ok lines, scatteredState)) ∧
    (∃ events, scatteredState.log = events ++ [] ∧
      events.reverse.filter Event.isDropWarning =
        (droppedLiterals (findings scatteredNodes)).map .literalDropped) ∧
    ∀ node : Node, node.emitter = node.assemble Node.emitterOf ∧
      node.emitter = node.assemble Node.watchedOf := by
  have hok : ((compile scatteredNodes none).run.run {}).1.isOk = true := by decide +kernel
  have hrun : ∃ lines, (compile scatteredNodes none).run.run {} = (.ok lines, scatteredState) := by
    rcases hresult : ((compile scatteredNodes none).run.run {}).1 with e | lines
    · rw [hresult] at hok
      cases hok
    · exact ⟨lines, Prod.ext hresult (by rw [scatteredState])⟩
  refine ⟨?_, hrun, literals_folded_or_reported hrun.choose_spec⟩
  simp [findings, scatteredNodes, Node.findings_eq, Node.compiledFields, NodeKind.descriptor?,
    NodeKind.routine?, Node.findingsOf, Node.field?, Node.nodes, Node.declared, Child.findings,
    itemFindings, hasSlot, List.lookup_cons, Finding.single, Node.declaration, Node.scalar?,
    Node.flag]

end Lowering
