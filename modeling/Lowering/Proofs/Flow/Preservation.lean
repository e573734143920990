import Lowering.Proofs.Compile.Built
import Lowering.Proofs.Compile.Linkable
import Lowering.Proofs.Flow.Simulation

/-!
# Linked code runs as its tree does

The emitter of a node and its behaviour are built alike, so by recursion on the tree the one follows
the other. Together with what linking does to op-lines, the linked form of a statement list has the
run of the statement list and no other, for every list of outcomes.
-/

namespace Lowering

open Emitter

/-- Doing nothing first changes nothing. -/
theorem Behaviour.nothing_andThen (behaviour : Behaviour) : nothing.andThen behaviour = behaviour :=
  rfl

/-- Doing nothing last changes nothing. -/
theorem Behaviour.andThen_nothing (behaviour : Behaviour) :
    behaviour.andThen nothing = behaviour := by
  ext outcomes : 1
  exact Run.andThen_idle _

mutual

/-- The code of a node does what the node does. -/
theorem Node.emitter_follows : ∀ node : Node, node.emitter.Follows node.behaviour
  | ⟨kind, attributes, fields⟩ => by
    unfold Node.emitter Node.behaviour
    have hbranch : Branch.Follows ⟨fieldEmitter "cond" fields, fieldEmitter "stmts" fields⟩
        ⟨fieldBehaviour "cond" fields, fieldBehaviour "stmts" fields⟩ :=
      ⟨fieldEmitter_follows _ fields, fieldEmitter_follows _ fields⟩
    rcases kind.descriptor? with _ | descriptor
    · rcases kind.routine? with _ | routine
      · exact follows_unsupported kind
      · refine follows_noting _ ?_
        cases routine with
        | param => exact follows_parameter _ (fieldEmitter_follows _ fields)
        | function =>
          exact follows_function (fieldEmitter_follows _ fields) (fieldEmitter_follows _ fields)
            (fieldEmitter_follows _ fields)
        | conditional =>
          exact follows_conditional (.cons hbranch (branches_follow fields))
            (alternative_follows fields)
        | whileLoop => exact follows_whileLoop hbranch
        | doLoop => exact follows_doLoop hbranch
        | inlineHtml => exact follows_inlineText _
    · refine follows_noting _ ?_
      cases descriptor with
      | argument field => exact follows_argument (fieldEmitter_follows field fields)
      | literal field separator => exact follows_constant _
      | unary operation field => exact follows_unary operation (fieldEmitter_follows field fields)
      | binary operation left right =>
        exact follows_binary operation (fieldEmitter_follows left fields)
          (fieldEmitter_follows right fields)

/-- The code of a field does what the field does. -/
theorem fieldEmitter_follows (name : String) :
    ∀ fields : List (String × Child),
      (fieldEmitter name fields).Follows (fieldBehaviour name fields)
  | [] => by
    unfold fieldEmitter fieldBehaviour
    exact follows_skip
  | (other, child) :: rest => by
    unfold fieldEmitter fieldBehaviour
    split
    · exact Child.emitter_follows child
    · exact fieldEmitter_follows name rest

/-- The code of the content of a field does what the content does. -/
theorem Child.emitter_follows : ∀ child : Child, child.emitter.Follows child.behaviour
  | .null => by
    unfold Child.emitter Child.behaviour
    exact follows_skip
  | .node n => by
    unfold Child.emitter Child.behaviour
    exact Node.emitter_follows n
  | .list items => by
    rcases Child.emitter_list items with ⟨s, rfl, hfolded⟩ | hitems
    · rw [hfolded]
      simp only [Child.behaviour, itemsBehaviour, Behaviour.nothing_andThen]
      exact follows_folded s
    · rw [hitems, Child.behaviour]
      exact itemsEmitter_follows items
  | .scalar s => by
    unfold Child.emitter Child.behaviour
    exact follows_folded s

/-- The code of the items of a list does what the items do. -/
theorem itemsEmitter_follows :
    ∀ items : List Child, (itemsEmitter items).Follows (itemsBehaviour items)
  | [] => by
    unfold itemsEmitter itemsBehaviour
    exact follows_skip
  | .null :: rest => by
    simp only [itemsEmitter, itemsBehaviour, Child.behaviour, Behaviour.nothing_andThen]
    exact itemsEmitter_follows rest
  | .node n :: rest => by
    simp only [itemsEmitter, itemsBehaviour, Child.behaviour]
    exact follows_append (Node.emitter_follows n) (itemsEmitter_follows rest)
  | .list items :: rest => by
    simp only [itemsEmitter, itemsBehaviour, Child.behaviour]
    exact follows_append (itemsEmitter_follows items) (itemsEmitter_follows rest)
  | .scalar s :: rest => by
    simp only [itemsEmitter, itemsBehaviour, Child.behaviour]
    exact follows_append (follows_dropped s) (itemsEmitter_follows rest)

/-- The code of a node taken as a branch does what the node does as one. -/
theorem Node.branch_follows : ∀ node : Node, node.branch.Follows node.part
  | ⟨_, _, fields⟩ => by
    unfold Node.branch Node.part
    exact ⟨fieldEmitter_follows _ fields, fieldEmitter_follows _ fields⟩

/-- The further branches of a conditional do what the nodes that they stand for do. -/
theorem branches_follow :
    ∀ fields : List (String × Child),
      List.Forall₂ Branch.Follows (branches fields) (fieldParts "elseifs" fields)
  | [] => by
    unfold branches fieldParts
    exact .nil
  | (name, child) :: rest => by
    unfold branches fieldParts
    split
    · exact Child.branches_follow child
    · exact branches_follow rest

/-- The branches in a content do what its nodes do. -/
theorem Child.branches_follow :
    ∀ child : Child, List.Forall₂ Branch.Follows child.branches child.parts
  | .null | .scalar _ => by simp [Child.branches, Child.parts]
  | .node n => by
    unfold Child.branches Child.parts
    exact .cons (Node.branch_follows n) .nil
  | .list items => by
    unfold Child.branches Child.parts
    exact itemBranches_follow items

/-- The branches in a list do what its nodes do. -/
theorem itemBranches_follow :
    ∀ items : List Child, List.Forall₂ Branch.Follows (itemBranches items) (itemParts items)
  | [] => by
    unfold itemBranches itemParts
    exact .nil
  | .node n :: rest => by
    unfold itemBranches itemParts
    exact .cons (Node.branch_follows n) (itemBranches_follow rest)
  | .null :: rest | .list _ :: rest | .scalar _ :: rest => by
    unfold itemBranches itemParts
    exact itemBranches_follow rest

/-- The statements of a node do what they do in the node taken as a branch. -/
theorem Node.statements_follow : ∀ node : Node, node.statements.Follows node.part.stmts
  | ⟨_, _, fields⟩ => by
    unfold Node.statements Node.part
    exact fieldEmitter_follows _ fields

/-- The statements behind all branches do what the nodes that they stand in do. -/
theorem alternative_follows :
    ∀ fields : List (String × Child),
      (alternative fields).Follows (GuardedPart.allOf (fieldParts "else" fields))
  | [] => by
    unfold alternative fieldParts
    exact follows_skip
  | (name, child) :: rest => by
    unfold alternative fieldParts
    split
    · exact Child.alternative_follows child
    · exact alternative_follows rest

/-- The statements of the nodes in a content do what these nodes do. -/
theorem Child.alternative_follows :
    ∀ child : Child, child.alternative.Follows (GuardedPart.allOf child.parts)
  | .null | .scalar _ => by
    unfold Child.alternative Child.parts
    exact follows_skip
  | .node n => by
    simp only [Child.alternative, Child.parts, GuardedPart.allOf, Behaviour.andThen_nothing]
    exact Node.statements_follow n
  | .list items => by
    unfold Child.alternative Child.parts
    exact itemAlternatives_follow items

/-- The statements of the nodes in a list do what these nodes do. -/
theorem itemAlternatives_follow :
    ∀ items : List Child, (itemAlternatives items).Follows (GuardedPart.allOf (itemParts items))
  | [] => by
    unfold itemAlternatives itemParts
    exact follows_skip
  | .node n :: rest => by
    unfold itemAlternatives itemParts
    exact follows_append (Node.statements_follow n) (itemAlternatives_follow rest)
  | .null :: rest | .list _ :: rest | .scalar _ :: rest => by
    unfold itemAlternatives itemParts
    exact itemAlternatives_follow rest

end

/-- The code of a statement list does what the statement list does. -/
theorem compile_follows : ∀ nodes : List Node, (compile nodes).Follows (statementsBehaviour nodes)
  | [] => follows_skip
  | node :: rest => follows_append (Node.emitter_follows node) (compile_follows rest)

/-- The image of op-lines that perform a behaviour has the runs of the behaviour and no others. -/
theorem Performs.runs_image {lines : List OpLine} {behaviour : Behaviour}
    (h : Performs lines behaviour) {heap : Heap} {image : Image}
    (hlink : link heap lines = .ok image) (outcomes : List Bool) (run : Run Effect) :
    Runs image.ops 0 outcomes run ↔ run = behaviour.run outcomes := by
  have hlinked := link_eq_ok hlink
  have hdistinct : Distinct lines := fun body hbody => (hlinked.program body hbody).distinct
  have hruns := h.runs hdistinct (placeIn (heap.order lines)) outcomes
  rw [← hlinked.ops] at hruns
  constructor
  · intro hrun
    exact hrun.deterministic hruns
  · rintro rfl
    exact hruns

/-- Compiling and linking keep what a program does in order. Whatever statements a compiler accepts,
in any state and with any context, the image of the op-lines that it returns runs, for every list of
outcomes, as the statements do: it performs the same effects in the same order, uses up the same
outcomes, and ends or stops at a test where the statements do. As long as the handles are words,
there is such an image. -/
theorem linked_run_iff_structured {nodes : List Node} {context : Option SlotId}
    {state state' : CompileState} {lines : List OpLine}
    (hcompile : (compile nodes context).run.run state = (.ok lines, state')) :
    (∀ (heap : Heap) (image : Image), link heap lines = .ok image →
      ∀ (outcomes : List Bool) (run : Run Effect),
        Runs image.ops 0 outcomes run ↔ run = (statementsBehaviour nodes).run outcomes) ∧
      (state'.issued ≤ 2 ^ 32 → (∀ slot ∈ context, state.heap.get slot = {}) →
        ∃ image, link state'.heap lines = .ok image) := by
  have hperforms := (compile_follows nodes context state).of_run_ok hcompile
  refine ⟨fun heap image hlink => hperforms.runs_image hlink, fun hissued hempty => ?_⟩
  have hstart : CompilerRun context.toList state [] := .start (by simpa using hempty)
  have hrun := hstart.compiled (by simp) hcompile
  exact hrun.exists_image hissued List.mem_cons_self

/-- A loop around a loop that has no code but its test. -/
def nestedNodes : List Node :=
  [⟨.stmtWhile, [], [("cond", .node (variableNode "x")), ("stmts", .node (.empty .stmtDo))]⟩]

/-- The op-lines of `nestedNodes`: the inner loop jumps onto itself. -/
def nestedLines : List OpLine :=
  [⟨⟨0⟩, .unary .fetchVariable ⟨1⟩ ⟨0⟩⟩, ⟨⟨2⟩, .jumpIfNot ⟨0⟩ ⟨1⟩⟩, ⟨⟨3⟩, .jumpIf ⟨2⟩ ⟨3⟩⟩,
    ⟨⟨4⟩, .jumpTo ⟨0⟩⟩, ⟨⟨1⟩, .noOp⟩]

/-- The state behind `nestedNodes`. -/
def nestedState : CompileState :=
  ((compile nestedNodes none).run.run {}).2

/-- The image of the nested loops runs as they do: with two rounds of the inner loop in the one
round of the outer, the condition of the outer is fetched twice. -/
theorem linked_run_iff_structured_nested :
    ∃ image, link nestedState.heap nestedLines = .ok image ∧
      (∀ (outcomes : List Bool) (run : Run Effect),
        Runs image.ops 0 outcomes run ↔ run = (statementsBehaviour nestedNodes).run outcomes) ∧
      Runs image.ops 0 [true, true, false, false]
        ⟨[.unary .fetchVariable, .unary .fetchVariable], some []⟩ := by
  have hcompile : (compile nestedNodes none).run.run {} = (.ok nestedLines, nestedState) :=
    Prod.ext rfl (by rw [nestedState])
  have hissued : nestedState.issued = 5 := rfl
  obtain ⟨hruns, hexists⟩ := linked_run_iff_structured hcompile
  obtain ⟨image, hlink⟩ := hexists (by rw [hissued]; norm_num) (by simp)
  refine ⟨image, hlink, hruns _ image hlink, (hruns _ image hlink _ _).mpr ?_⟩
  with_unfolding_all rfl

end Lowering
