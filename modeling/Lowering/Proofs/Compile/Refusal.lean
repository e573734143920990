import Lowering.Proofs.Compile.Ends
import Lowering.Proofs.Tree.Walk

/-!
# What a compiler refuses

A compiler fails at a node whose kind has neither a descriptor nor a routine, and at nothing else.
`Emitter.Visits` says of an emitter that it goes through given nodes in order: it fails at the first
of them that is not supported, and succeeds when they all are. Neither the context nor the state has
a say in it. Every way of building an emitter visits what its parts visit, one part behind the
other, so the emitter of a tree visits the walk of the tree (`Node.emitter_visits`).
-/

namespace Lowering

open CompileM Emitter

/-- Whether a compiler has a way to compile nodes of a kind. -/
def NodeKind.isSupported (kind : NodeKind) : Bool :=
  kind.descriptor?.isSome || kind.routine?.isSome

/-- The first of some nodes that is not supported. -/
def firstUnsupported (visited : List Node) : Option Node :=
  visited.find? fun node => !node.kind.isSupported

/-- All nodes are supported. -/
def Accepted (visited : List Node) : Prop :=
  firstUnsupported visited = none

/-- An error is about the first node that is not supported. -/
def Refused (visited : List Node) (e : CompileError) : Prop :=
  ∃ node, firstUnsupported visited = some node ∧ e = .unsupported node.kind.tag

section

variable {visited more : List Node} {node : Node} {e : CompileError}

/-- Nodes are accepted if each of them is supported. -/
theorem accepted_iff : Accepted visited ↔ ∀ node ∈ visited, node.kind.isSupported := by
  simp [Accepted, firstUnsupported]

/-- Accepted nodes one after another are accepted. -/
theorem Accepted.append (h : Accepted visited) (h' : Accepted more) :
    Accepted (visited ++ more) := by
  rw [accepted_iff] at h h' ⊢
  exact List.forall_mem_append.mpr ⟨h, h'⟩

/-- What is refused is refused whatever comes behind it. -/
theorem Refused.append (h : Refused visited e) : Refused (visited ++ more) e := by
  obtain ⟨node, hfirst, rfl⟩ := h
  refine ⟨node, ?_, rfl⟩
  unfold firstUnsupported at hfirst ⊢
  rw [List.find?_append, hfirst]
  rfl

/-- Behind nodes that are accepted, more nodes are refused as they are alone. -/
theorem Refused.behind (h : Refused more e) (hvisited : Accepted visited) :
    Refused (visited ++ more) e := by
  obtain ⟨node, hfirst, rfl⟩ := h
  refine ⟨node, ?_, rfl⟩
  unfold Accepted at hvisited
  unfold firstUnsupported at hfirst hvisited ⊢
  rw [List.find?_append, hvisited, Option.none_or, hfirst]

/-- A supported node in front changes nothing. -/
theorem firstUnsupported_cons (h : node.kind.isSupported) :
    firstUnsupported (node :: visited) = firstUnsupported visited := by
  simp [firstUnsupported, h]

end

/-! ## Emitters -/

/-- An emitter goes through nodes in order: it fails at the first that is not supported and succeeds
when they all are. -/
def Emitter.Visits (emitter : Emitter) (visited : List Node) : Prop :=
  ∀ context state, Ends (emitter context) state (fun _ _ => Accepted visited)
    (fun e _ => Refused visited e)

namespace Emitter

variable {emitter first second : Emitter} {visited more : List Node}

/-- No code goes through no nodes. -/
theorem visits_skip : skip.Visits [] :=
  fun _ _ => ends_skip.mpr rfl

/-- One piece and then another go through the nodes of both, in order. -/
theorem visits_append (hfirst : first.Visits visited) (hsecond : second.Visits more) :
    (append first second).Visits (visited ++ more) := by
  intro context state
  rw [ends_append]
  refine (hfirst context state).mono (fun ops state₁ hvisited => ?_) fun e _ he => he.append
  exact (hsecond context state₁).mono (fun _ _ hmore => hvisited.append hmore)
    fun e _ he => he.behind hvisited

/-- An event in front is no node. -/
theorem visits_noting (event : Event) (h : emitter.Visits visited) :
    (noting event emitter).Visits visited := by
  intro context state
  rw [ends_noting]
  exact h context _

/-- A node that is supported and compiled like its parts is visited before these. -/
theorem Visits.of_supported {node : Node} (h : emitter.Visits visited)
    (hnode : node.kind.isSupported) : emitter.Visits (node :: visited) := by
  intro context state
  unfold Accepted Refused
  rw [firstUnsupported_cons hnode]
  exact h context state

/-- A node that is not supported fails where it is visited. -/
theorem visits_unsupported {node : Node} (h : node.kind.isSupported = false) :
    (unsupported node.kind).Visits (node :: visited) := by
  intro context state
  rw [ends_unsupported]
  exact ⟨node, by simp [firstUnsupported, h], rfl⟩

/-- A literal without effect goes through no nodes. -/
theorem visits_dropped (literal : Scalar) : (dropped literal).Visits [] := by
  intro context state
  rw [ends_dropped]
  rfl

/-- A literal goes through no nodes. -/
theorem visits_folded (literal : Scalar) : (folded literal).Visits [] := by
  intro context state
  cases context with
  | none =>
    rw [ends_folded_none]
    rfl
  | some slot =>
    rw [ends_folded_some]
    rfl

/-- A constant goes through no nodes: those in it are not compiled. -/
theorem visits_constant (literal : Constant) : (constant literal).Visits [] := by
  intro context state
  cases context with
  | none =>
    rw [ends_constant_none]
    rfl
  | some slot =>
    rw [ends_constant_some]
    rfl

/-- Text between the statements goes through no nodes. -/
theorem visits_inlineText (text : Constant) : (inlineText text).Visits [] := by
  intro context state
  rw [ends_inlineText]
  rfl

/-- An operation on one operand goes through the nodes of its operand. -/
theorem visits_unary {operand : Emitter} (kind : UnaryKind) (h : operand.Visits visited) :
    (unary kind operand).Visits visited := by
  intro context state
  rw [ends_unary]
  exact h _ _

/-- An operation on two operands goes through the nodes of the left one and then of the right one.
-/
theorem visits_binary {left right : Emitter} (kind : BinaryKind) (hleft : left.Visits visited)
    (hright : right.Visits more) : (binary kind left right).Visits (visited ++ more) := by
  intro context state
  rw [ends_binary]
  refine (hleft _ _).mono (fun ops state₁ hvisited => ?_) fun e _ he => he.append
  exact (hright _ _).mono (fun _ _ hmore => hvisited.append hmore) fun e _ he => he.behind hvisited

/-- An argument goes through the nodes of its value. -/
theorem visits_argument {value : Emitter} (h : value.Visits visited) :
    (argument value).Visits visited := by
  intro context state
  rw [ends_argument]
  exact h _ _

/-- A parameter goes through the nodes of its default value. -/
theorem visits_parameter {default : Emitter} (declaration : Declaration)
    (h : default.Visits visited) : (parameter declaration default).Visits visited := by
  intro context state
  rw [ends_parameter]
  exact h _ _

/-- A function goes through the nodes of its body, of its name and of its parameters, in this order.
-/
theorem visits_function {body name params : Emitter} {rest : List Node}
    (hbody : body.Visits visited) (hname : name.Visits more) (hparams : params.Visits rest) :
    (function body name params).Visits (visited ++ (more ++ rest)) := by
  intro context state
  rw [ends_function]
  refine (hbody _ _).mono (fun stmts state₁ hvisited => ?_) fun e _ he => he.append
  refine (hname _ _).mono (fun ops state₂ hmore => ?_) fun e _ he => he.append.behind hvisited
  exact (hparams _ _).mono (fun _ _ hrest => hvisited.append (hmore.append hrest))
    fun e _ he => (he.behind hmore).behind hvisited

/-- A guarded branch goes through the nodes of its test and then of its statements. -/
theorem visits_guardedTo {branch : Branch} (target : List OpLine → OpLine → OpId)
    (hcond : branch.cond.Visits visited) (hstmts : branch.stmts.Visits more) :
    Visits (fun _ => guardedTo target branch) (visited ++ more) := by
  intro context state
  rw [ends_guardedTo]
  refine (hcond _ _).mono (fun test state₁ hvisited => ?_) fun e _ he => he.append
  exact (hstmts _ _).mono (fun _ _ hmore => hvisited.append hmore) fun e _ he => he.behind hvisited

/-- A loop that tests first goes through the nodes of its test and then of its statements. -/
theorem visits_whileLoop {loop : Branch} (hcond : loop.cond.Visits visited)
    (hstmts : loop.stmts.Visits more) : (whileLoop loop).Visits (visited ++ more) := by
  rw [whileLoop_eq_guardedTo]
  exact visits_guardedTo _ hcond hstmts

/-- A loop that tests last goes through the nodes of its statements and then of its test. -/
theorem visits_doLoop {loop : Branch} (hcond : loop.cond.Visits visited)
    (hstmts : loop.stmts.Visits more) : (doLoop loop).Visits (more ++ visited) := by
  intro context state
  rw [ends_doLoop]
  refine (hstmts _ _).mono (fun stmts state₁ hmore => ?_) fun e _ he => he.append
  exact (hcond _ _).mono (fun _ _ hvisited => hmore.append hvisited) fun e _ he => he.behind hmore

/-- Pieces in turn visit what each of them visits. -/
theorem visits_inTurn {nodes : List Node} {piece : Node → Emitter} {visit : Node → List Node}
    (h : ∀ node ∈ nodes, (piece node).Visits (visit node)) :
    (inTurn (nodes.map piece)).Visits (nodes.flatMap visit) := by
  induction nodes with
  | nil => exact visits_skip
  | cons node rest ih =>
    obtain ⟨hnode, hrest⟩ := List.forall_mem_cons.mp h
    exact visits_append hnode (ih hrest)

/-- Guarded branches go through the nodes of each, in order. -/
theorem visits_guardedAll {nodes : List Node} {branch : Node → Branch} {visit : Node → List Node}
    (exit : OpId) (h : ∀ node ∈ nodes, Visits (fun _ => guarded exit (branch node)) (visit node)) :
    Visits (fun _ => guardedAll exit (nodes.map branch)) (nodes.flatMap visit) := by
  induction nodes with
  | nil => exact visits_skip
  | cons node rest ih =>
    obtain ⟨hnode, hrest⟩ := List.forall_mem_cons.mp h
    exact visits_append hnode (ih hrest)

/-- A conditional goes through the nodes of its branches and then of the statements behind them. -/
theorem visits_conditional {branches : List Branch} {otherwise : Emitter}
    (hbranches : ∀ exit, Visits (fun _ => guardedAll exit branches) visited)
    (hotherwise : otherwise.Visits more) :
    (conditional branches otherwise).Visits (visited ++ more) := by
  intro context state
  rw [ends_conditional]
  refine (hbranches state.handle none state.advanced).mono (fun ops state₁ hvisited => ?_)
    fun e _ he => he.append
  exact (hotherwise _ _).mono (fun _ _ hmore => hvisited.append hmore)
    fun e _ he => he.behind hvisited

end Emitter

/-! ## Trees -/

/-- What emitters for nodes visit is gathered from the walks of the nodes. -/
theorem gathers_visits : Gathers fun emitter nodes => emitter.Visits (walk nodes) where
  skip := visits_skip
  append := fun hfirst hsecond => by
    rw [walk_append]
    exact visits_append hfirst hsecond
  folded := visits_folded
  dropped := visits_dropped

/-- A node visits itself and the walks of the fields that are compiled for it. -/
theorem Node.emitter_visits_of_fields {node : Node}
    (h : ∀ owner name, (owner, name) ∈ node.compiledFields →
      (owner.emitterOf name).Visits (owner.walkOf name)) :
    node.emitter.Visits node.walk := by
  unfold Node.compiledFields at h
  rw [Node.emitter_eq, Node.walk_eq_fields, Node.compiledFields]
  rcases hdescriptor : node.kind.descriptor? with _ | descriptor
  · simp only [hdescriptor] at h
    rcases hroutine : node.kind.routine? with _ | routine
    · exact visits_unsupported (by simp [NodeKind.isSupported, hdescriptor, hroutine])
    · refine (visits_noting _ ?_).of_supported (by simp [NodeKind.isSupported, hroutine])
      simp only [hroutine] at h
      cases routine with
      | param => simpa using visits_parameter _ (h node _ (by simp))
      | function =>
        simpa using visits_function (h node _ (by simp)) (h node _ (by simp)) (h node _ (by simp))
      | conditional =>
        -- The fields of the branches are compiled, and the nodes that have them are not visited.
        have hbranches : ∀ branch ∈ node :: node.nodes "elseifs", ∀ exit,
            Emitter.Visits (fun _ => guarded exit branch.branch)
              (branch.walkOf "cond" ++ branch.walkOf "stmts") := by
          intro branch hbranch exit
          have hfield : ∀ name ∈ ["cond", "stmts"],
              (branch.emitterOf name).Visits (branch.walkOf name) := fun name hname =>
            h branch name (List.mem_append_left _
              (List.mem_flatMap.mpr ⟨branch, hbranch, by simpa using hname⟩))
          rw [guarded_eq_guardedTo, Node.branch_eq]
          exact visits_guardedTo _ (hfield _ (by simp)) (hfield _ (by simp))
        have hotherwise : ∀ branch ∈ node.nodes "else",
            branch.statements.Visits (branch.walkOf "stmts") := by
          intro branch hbranch
          rw [Node.statements_eq]
          exact h branch _ (List.mem_append_right _ (List.mem_map_of_mem hbranch))
        have hvisits := visits_conditional
          (fun exit => visits_guardedAll exit fun branch hbranch => hbranches branch hbranch exit)
          (visits_inTurn hotherwise)
        simpa [List.flatMap_assoc, List.flatMap_map] using hvisits
      | whileLoop =>
        rw [Node.branch_eq]
        simpa using visits_whileLoop (h node _ (by simp)) (h node _ (by simp))
      | doLoop =>
        rw [Node.branch_eq]
        simpa using visits_doLoop (h node _ (by simp)) (h node _ (by simp))
      | inlineHtml => exact visits_inlineText _
  · refine (visits_noting _ ?_).of_supported (by simp [NodeKind.isSupported, hdescriptor])
    simp only [hdescriptor] at h
    cases descriptor with
    | argument field => simpa using visits_argument (h node field (by simp))
    | literal field separator => exact visits_constant _
    | unary operation field => simpa using visits_unary operation (h node field (by simp))
    | binary operation left right =>
      simpa using visits_binary operation (h node left (by simp)) (h node right (by simp))

/-- The emitter of a node visits its walk. -/
theorem Node.emitter_visits (node : Node) : node.emitter.Visits node.walk := by
  rw [← walk_singleton]
  refine Node.emitter_gathers gathers_visits (fun node hfields => ?_) node
  rw [walk_singleton]
  refine Node.emitter_visits_of_fields fun owner name hfield => ?_
  rw [Node.walkOf_eq_members]
  exact hfields owner name hfield

/-- Compiling a statement list visits its walk. -/
theorem compile_visits (nodes : List Node) : (compile nodes).Visits (walk nodes) :=
  compile_gathers gathers_visits nodes fun node _ => by
    rw [walk_singleton]
    exact Node.emitter_visits node

/-- A compiler fails exactly at the first node on the walk of the statements that is not supported,
with the tag of that node, and succeeds when all nodes on the walk are supported. Its state and the
context do not matter. -/
theorem compile_fails_at_first_unsupported (nodes : List Node) (context : Option SlotId)
    (state : CompileState) :
    (∀ tag, ((compile nodes context).run.run state).1 = .error (.unsupported tag) ↔
      ∃ node, (walk nodes).find? (fun node => !node.kind.isSupported) = some node ∧
        tag = node.kind.tag) ∧
      ((∃ lines, ((compile nodes context).run.run state).1 = .ok lines) ↔
        ∀ node ∈ walk nodes, node.kind.isSupported) := by
  have hends := compile_visits nodes context state
  change (∀ tag, _ ↔ ∃ node, firstUnsupported (walk nodes) = some node ∧ tag = node.kind.tag) ∧
    (_ ↔ _)
  rw [← accepted_iff]
  rcases hrun : (compile nodes context).run.run state with ⟨e | lines, after⟩
  · obtain ⟨node, hfirst, rfl⟩ := hends.of_run_error hrun
    simp [Accepted, hfirst, eq_comm]
  · have haccepted := hends.of_run_ok hrun
    unfold Accepted at haccepted ⊢
    simp [haccepted]

end Lowering
