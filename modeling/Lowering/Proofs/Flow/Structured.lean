import Mathlib.Data.List.Infix
import Lowering.Compile

/-!
# Structured runs

What a program does in order, by recursion on its tree and without any code. A run is given the
outcomes of the conditions that it is going to test, uses up one at each test, and stops where none
is left. What it performs is a list of effects: operations, and declarations of functions. The
effect of a declaration carries the meaning of the body, that is, the run that the body has for
every list of outcomes, so two runs with the same effects declare functions that do the same.

A `Behaviour` is what a piece of a tree does: a run for every list of outcomes, of which a part is
left over. The loops of a tree come to an end because each round uses up an outcome.
-/

namespace Lowering

/-! ## Runs -/

/-- A run: what it performs, and the outcomes that are left at its end. Nothing is left of a run
that stops at a test for want of an outcome. -/
@[ext]
structure Run (ε : Type) where
  effects : List ε
  rest : Option (List Bool)

/-- What a run performs. -/
inductive Effect where
  | unary (kind : UnaryKind)
  | binary (kind : BinaryKind)
  /-- Declares a function whose body has these runs. -/
  | declare (body : List Bool → Run Effect)

namespace Run

variable {ε : Type}

/-- A run that performs nothing. -/
def idle (outcomes : List Bool) : Run ε :=
  ⟨[], some outcomes⟩

/-- A run that stops for want of an outcome. -/
def starved : Run ε :=
  ⟨[], none⟩

/-- A run and then, with the outcomes that are left, another one. -/
def andThen (run : Run ε) (next : List Bool → Run ε) : Run ε :=
  match run.rest with
  | none => run
  | some rest => ⟨run.effects ++ (next rest).effects, (next rest).rest⟩

/-- Nothing comes behind a run that has stopped for want of an outcome. -/
theorem andThen_none {run : Run ε} (h : run.rest = none) (next : List Bool → Run ε) :
    run.andThen next = run := by
  simp [andThen, h]

/-- Behind a run that goes on comes the next one with the outcomes that are left. -/
theorem andThen_some {run : Run ε} {rest : List Bool} (h : run.rest = some rest)
    (next : List Bool → Run ε) :
    run.andThen next = ⟨run.effects ++ (next rest).effects, (next rest).rest⟩ := by
  simp [andThen, h]

/-- A run that is followed by none is that run. -/
@[simp] theorem andThen_idle (run : Run ε) : run.andThen idle = run := by
  rcases hrest : run.rest with _ | rest
  · exact andThen_none hrest _
  · rw [andThen_some hrest]
    exact Run.ext (by simp [idle]) (by simp [idle, hrest])

/-- Three runs one after another may be grouped either way. -/
theorem andThen_assoc (run : Run ε) (next last : List Bool → Run ε) :
    (run.andThen next).andThen last = run.andThen fun rest => (next rest).andThen last := by
  rcases hrest : run.rest with _ | rest
  · simp [andThen_none hrest]
  · rw [andThen_some hrest, andThen_some hrest]
    rcases hnext : (next rest).rest with _ | rest'
    · simp [andThen, hnext]
    · simp [andThen, hnext, List.append_assoc]

/-- Only the outcomes that are left matter to what comes next. -/
theorem andThen_congr {run : Run ε} {next next' : List Bool → Run ε}
    (h : ∀ rest, run.rest = some rest → next rest = next' rest) :
    run.andThen next = run.andThen next' := by
  rcases hrest : run.rest with _ | rest
  · rw [andThen_none hrest, andThen_none hrest]
  · rw [andThen_some hrest, andThen_some hrest, h rest hrest]

/-- What is left behind two runs is left behind the second of them. -/
theorem rest_andThen {run : Run ε} {next : List Bool → Run ε} {rest : List Bool}
    (h : (run.andThen next).rest = some rest) :
    ∃ between, run.rest = some between ∧ (next between).rest = some rest := by
  rcases hrest : run.rest with _ | between
  · rw [andThen_none hrest, hrest] at h
    cases h
  · rw [andThen_some hrest] at h
    exact ⟨between, rfl, h⟩

end Run

/-! ## Behaviours -/

/-- What a piece of a tree does: a run for every list of outcomes. The outcomes that are left are
the last of those that were given. -/
structure Behaviour where
  run : List Bool → Run Effect
  left : ∀ {outcomes rest}, (run outcomes).rest = some rest → rest <:+ outcomes

namespace Behaviour

/-- Behaviours with the same runs are the same. -/
@[ext]
theorem ext {first second : Behaviour} (h : ∀ outcomes, first.run outcomes = second.run outcomes) :
    first = second := by
  cases first
  cases second
  obtain rfl := funext h
  rfl

/-- Does nothing. -/
def nothing : Behaviour where
  run := .idle
  left := by
    intro outcomes rest h
    obtain rfl : outcomes = rest := by simpa [Run.idle] using h
    exact List.suffix_refl outcomes

/-- Has one effect. -/
def perform (effect : Effect) : Behaviour where
  run outcomes := ⟨[effect], some outcomes⟩
  left := by
    intro outcomes rest h
    obtain rfl : outcomes = rest := by simpa using h
    exact List.suffix_refl outcomes

/-- Does one thing and then another. -/
def andThen (first second : Behaviour) : Behaviour where
  run outcomes := (first.run outcomes).andThen second.run
  left := by
    intro outcomes rest h
    obtain ⟨between, hfirst, hsecond⟩ := Run.rest_andThen h
    exact (second.left hsecond).trans (first.left hfirst)

/-- Tests a condition, and does one thing when it holds and another when it does not. -/
def test (yes no : Behaviour) : Behaviour where
  run
    | [] => .starved
    | true :: outcomes => yes.run outcomes
    | false :: outcomes => no.run outcomes
  left := by
    rintro (_ | ⟨outcome, outcomes⟩) rest h
    · simp [Run.starved] at h
    · cases outcome with
      | false => exact (no.left h).trans (List.suffix_cons _ _)
      | true => exact (yes.left h).trans (List.suffix_cons _ _)

/-- The run of a loop: does `round` and tests, and as long as the condition holds does `again` and
starts over. -/
def loopRun (round again : Behaviour) (outcomes : List Bool) : Run Effect :=
  match hround : (round.run outcomes).rest with
  | some (true :: tested) =>
    match hagain : (again.run tested).rest with
    | some rest =>
      have : rest.length < outcomes.length := by
        have hle := (round.left hround).length_le
        have hle' := (again.left hagain).length_le
        rw [List.length_cons] at hle
        omega
      (round.run outcomes).andThen fun _ =>
        (again.run tested).andThen fun _ => loopRun round again rest
    | none => (round.run outcomes).andThen fun _ => again.run tested
  | some (false :: rest) => (round.run outcomes).andThen fun _ => .idle rest
  | some [] => (round.run outcomes).andThen fun _ => .starved
  | none => round.run outcomes
termination_by outcomes.length

/-- One round of a loop: the run of a loop is that of its round, and behind a test that holds that
of `again` and of the loop from the start. -/
theorem loopRun_eq (round again : Behaviour) (outcomes : List Bool) :
    loopRun round again outcomes = (round.run outcomes).andThen fun
      | [] => .starved
      | true :: tested => (again.run tested).andThen (loopRun round again)
      | false :: rest => .idle rest := by
  rw [loopRun]
  -- The definition splits on the runs themselves, since the recursion has to see that outcomes are
  -- used up.
  split
  · next tested hround =>
    split
    · next rest hagain =>
      rw [Run.andThen_some hround, Run.andThen_some hround]
      simp only [Run.andThen_some hagain]
    · next hagain =>
      rw [Run.andThen_some hround, Run.andThen_some hround]
      simp only [Run.andThen_none hagain]
  · next rest hround => rw [Run.andThen_some hround, Run.andThen_some hround]
  · next hround => rw [Run.andThen_some hround, Run.andThen_some hround]
  · next hround => rw [Run.andThen_none hround]

/-- A loop leaves the last of the outcomes that it was given. -/
theorem loopRun_left (round again : Behaviour) {outcomes rest : List Bool}
    (h : (loopRun round again outcomes).rest = some rest) : rest <:+ outcomes := by
  -- A round that starts over leaves fewer outcomes, and the induction is on their number.
  induction hlength : outcomes.length using Nat.strongRecOn generalizing outcomes with
  | ind length ih =>
    subst hlength
    rw [loopRun_eq] at h
    obtain ⟨between, hround, h⟩ := Run.rest_andThen h
    have hbetween := round.left hround
    match between, h with
    | [], h => simp [Run.starved] at h
    | false :: _, h =>
      obtain rfl : _ = rest := by simpa [Run.idle] using h
      exact (List.suffix_cons _ _).trans hbetween
    | true :: tested, h =>
      obtain ⟨start, hagain, h⟩ := Run.rest_andThen h
      have hstart := (again.left hagain).trans ((List.suffix_cons true tested).trans hbetween)
      have hlt : start.length < outcomes.length := by
        have hle := (again.left hagain).length_le
        have hle' := hbetween.length_le
        rw [List.length_cons] at hle'
        omega
      exact (ih start.length hlt h rfl).trans hstart

/-- A loop: does `round` and tests, and as long as the condition holds does `again` and starts over.
-/
def loop (round again : Behaviour) : Behaviour where
  run := loopRun round again
  left := loopRun_left round again

/-- A loop is its round, a test and, when the condition holds, `again` and the loop from the start.
-/
theorem loop_eq (round again : Behaviour) :
    loop round again = round.andThen (test (again.andThen (loop round again)) nothing) := by
  ext outcomes : 1
  change loopRun round again outcomes = _
  rw [loopRun_eq]
  refine Run.andThen_congr fun rest _ => ?_
  rcases rest with _ | ⟨_ | _, rest⟩ <;> rfl

end Behaviour

/-! ## The behaviour of a tree -/

/-- A condition with the statements that it guards. -/
structure GuardedPart where
  cond : Behaviour
  stmts : Behaviour

namespace GuardedPart

/-- Tests conditions in turn and does the statements of the first that holds, or else something. -/
def firstOf : List GuardedPart → Behaviour → Behaviour
  | [], otherwise => otherwise
  | part :: rest, otherwise => part.cond.andThen (.test part.stmts (firstOf rest otherwise))

/-- Does the statements of all parts, whatever their conditions. -/
def allOf : List GuardedPart → Behaviour
  | [] => .nothing
  | part :: rest => part.stmts.andThen (allOf rest)

end GuardedPart

mutual

/-- What a node does. A literal and a parameter do nothing, and so does a node that has no meaning.
-/
def Node.behaviour : Node → Behaviour
  | ⟨kind, _, fields⟩ =>
    match kind.descriptor? with
    | some (.argument field) => fieldBehaviour field fields
    | some (.literal _ _) => .nothing
    | some (.unary operation field) =>
      (fieldBehaviour field fields).andThen (.perform (.unary operation))
    | some (.binary operation left right) =>
      (fieldBehaviour left fields).andThen
        ((fieldBehaviour right fields).andThen (.perform (.binary operation)))
    | none =>
      match kind.routine? with
      | none | some .param => .nothing
      | some .function =>
        (fieldBehaviour "name" fields).andThen ((fieldBehaviour "params" fields).andThen
          (.perform (.declare (fieldBehaviour "stmts" fields).run)))
      | some .conditional =>
        GuardedPart.firstOf
          (⟨fieldBehaviour "cond" fields, fieldBehaviour "stmts" fields⟩ ::
            fieldParts "elseifs" fields)
          (GuardedPart.allOf (fieldParts "else" fields))
      | some .whileLoop =>
        .loop (fieldBehaviour "cond" fields) (fieldBehaviour "stmts" fields)
      | some .doLoop =>
        .loop ((fieldBehaviour "stmts" fields).andThen (fieldBehaviour "cond" fields)) .nothing
      | some .inlineHtml => .perform (.unary .echoOp)

/-- What a field does; a field that is missing does nothing. -/
def fieldBehaviour (name : String) : List (String × Child) → Behaviour
  | [] => .nothing
  | (other, child) :: rest => if name == other then child.behaviour else fieldBehaviour name rest

/-- What the content of a field does: its nodes, from left to right and through nested lists. -/
def Child.behaviour : Child → Behaviour
  | .node n => n.behaviour
  | .list items => itemsBehaviour items
  | .null | .scalar _ => .nothing

/-- What the items of a list do. -/
def itemsBehaviour : List Child → Behaviour
  | [] => .nothing
  | child :: rest => child.behaviour.andThen (itemsBehaviour rest)

/-- A node taken as a condition with statements, whatever its kind. -/
def Node.part : Node → GuardedPart
  | ⟨_, _, fields⟩ => ⟨fieldBehaviour "cond" fields, fieldBehaviour "stmts" fields⟩

/-- The nodes that stand directly in a field, as conditions with statements. -/
def fieldParts (name : String) : List (String × Child) → List GuardedPart
  | [] => []
  | (other, child) :: rest => if name == other then child.parts else fieldParts name rest

/-- The nodes that stand directly in a content, as conditions with statements. -/
def Child.parts : Child → List GuardedPart
  | .node n => [n.part]
  | .list items => itemParts items
  | .null | .scalar _ => []

/-- The nodes that stand directly in a list, as conditions with statements. -/
def itemParts : List Child → List GuardedPart
  | [] => []
  | .node n :: rest => n.part :: itemParts rest
  | _ :: rest => itemParts rest

end

/-- What a statement list does. -/
def statementsBehaviour : List Node → Behaviour
  | [] => .nothing
  | node :: rest => node.behaviour.andThen (statementsBehaviour rest)

end Lowering
