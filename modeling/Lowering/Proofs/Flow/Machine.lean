import Mathlib.Algebra.Group.Nat.Defs
import Mathlib.Data.Fintype.Card
import Lowering.Proofs.Flow.Structured
import Lowering.Proofs.Link.Graph

/-!
# Runs of linked code

`Runs` is the machine: it goes through linked op-lines from a position on, performs operations,
follows jumps, and uses up an outcome at each jump with a condition. What it performs and what is
left is a `Run` as for a tree, and there is at most one (`Runs.deterministic`); a program that never
ends has none.

A piece of code is not run alone. `StandsAt` says where it stands in its list of op-lines, and
`Continues` says what running it means there: whatever the code behind it does with the outcomes
that are left, the code from its first op-line on does the run of the piece and then that.
-/

namespace Lowering

/-! ## The machine -/

/-- What an op-line performs. -/
@[grind]
def LinkedOp.effect? : LinkedOp → Option Effect
  | .unary kind _ _ => some (.unary kind)
  | .binary kind _ _ _ => some (.binary kind)
  | _ => none

/-- The outcome on which an op-line jumps, and where it jumps to then. -/
@[grind]
def LinkedOp.test? : LinkedOp → Option (Bool × UInt32)
  | .jumpIf _ target => some (true, target)
  | .jumpIfNot _ target => some (false, target)
  | _ => none

/-- The run of linked op-lines from a position on, given the outcomes of the conditions to come. -/
inductive Runs : List LinkedOp → Nat → List Bool → Run Effect → Prop where
  | finish {ops : List LinkedOp} {pc : Nat} {outcomes : List Bool} :
      ops.length ≤ pc → Runs ops pc outcomes (.idle outcomes)
  | perform {ops : List LinkedOp} {pc : Nat} {outcomes : List Bool} {run : Run Effect}
      {op : LinkedOp} {effect : Effect} :
      ops[pc]? = some op → op.effect? = some effect → Runs ops (pc + 1) outcomes run →
        Runs ops pc outcomes ⟨effect :: run.effects, run.rest⟩
  | declare {ops : List LinkedOp} {pc : Nat} {outcomes : List Bool} {run : Run Effect}
      {name params : SlotRef} {body : List LinkedOp} {meaning : List Bool → Run Effect} :
      ops[pc]? = some (.functionDef name body params) →
        (∀ outcomes, Runs body 0 outcomes (meaning outcomes)) → Runs ops (pc + 1) outcomes run →
        Runs ops pc outcomes ⟨.declare meaning :: run.effects, run.rest⟩
  | jump {ops : List LinkedOp} {pc : Nat} {outcomes : List Bool} {run : Run Effect}
      {target : UInt32} :
      ops[pc]? = some (.jumpTo target) → Runs ops target.toNat outcomes run →
        Runs ops pc outcomes run
  | starve {ops : List LinkedOp} {pc : Nat} {op : LinkedOp} {on : Bool} {target : UInt32} :
      ops[pc]? = some op → op.test? = some (on, target) → Runs ops pc [] .starved
  | test {ops : List LinkedOp} {pc : Nat} {outcomes : List Bool} {run : Run Effect}
      {op : LinkedOp} {on outcome : Bool} {target : UInt32} :
      ops[pc]? = some op → op.test? = some (on, target) →
        Runs ops (if outcome = on then target.toNat else pc + 1) outcomes run →
        Runs ops pc (outcome :: outcomes) run
  | pass {ops : List LinkedOp} {pc : Nat} {outcomes : List Bool} {run : Run Effect} :
      ops[pc]? = some .noOp → Runs ops (pc + 1) outcomes run → Runs ops pc outcomes run

/-- An op-line that tests performs nothing. -/
@[grind →]
theorem LinkedOp.effect?_of_test? {op : LinkedOp} {test : Bool × UInt32}
    (h : op.test? = some test) : op.effect? = none := by
  cases op <;> simp [LinkedOp.test?, LinkedOp.effect?] at h ⊢

/-- Code has at most one run. -/
theorem Runs.deterministic {ops : List LinkedOp} {pc : Nat} {outcomes : List Bool}
    {run run' : Run Effect} (h : Runs ops pc outcomes run) (h' : Runs ops pc outcomes run') :
    run = run' := by
  -- The op-line at the position decides by which rule the second run begins.
  induction h generalizing run' with
  | finish hend => cases h' <;> simp_all
  | perform hop heffect _ ih =>
    cases h' with
    | perform hop' heffect' hnext =>
      obtain rfl := Option.some.inj (hop.symm.trans hop')
      obtain rfl := Option.some.inj (heffect.symm.trans heffect')
      rw [ih hnext]
    | _ => grind
  | declare hop _ _ ihbody ih =>
    cases h' with
    | declare hop' hbody hnext =>
      obtain ⟨-, rfl, -⟩ : _ ∧ _ ∧ _ := by simpa using hop.symm.trans hop'
      obtain rfl := funext fun outcomes => ihbody outcomes (hbody outcomes)
      rw [ih hnext]
    | _ => grind
  | jump hop _ ih => cases h' <;> grind
  | starve hop htest => cases h' <;> grind
  | test hop htest _ ih => cases h' <;> grind
  | pass hop _ ih => cases h' <;> grind

/-! ## Positions -/

/-- Op-lines whose handles are different, in the list itself and in every body inside it. -/
def Distinct (lines : List OpLine) : Prop :=
  ∀ body ∈ lines :: lineBodies lines, (handles body).Nodup

/-- Different handles are without repetition at the top level. -/
theorem Distinct.nodup {lines : List OpLine} (h : Distinct lines) : (handles lines).Nodup :=
  h lines List.mem_cons_self

/-- Op-lines stand in a list at a position. -/
def StandsAt (all : List OpLine) (position : Nat) (lines : List OpLine) : Prop :=
  ∃ before behind, all = before ++ lines ++ behind ∧ before.length = position

namespace StandsAt

variable {all lines more : List OpLine} {line : OpLine} {position : Nat}

/-- A list stands in itself from the start on. -/
theorem whole (lines : List OpLine) : StandsAt lines 0 lines :=
  ⟨[], [], by simp, rfl⟩

/-- The first part of what stands somewhere stands there. -/
theorem left (h : StandsAt all position (lines ++ more)) : StandsAt all position lines := by
  obtain ⟨before, behind, rfl, hlength⟩ := h
  exact ⟨before, more ++ behind, by simp, hlength⟩

/-- The second part of what stands somewhere stands behind the first. -/
theorem right (h : StandsAt all position (lines ++ more)) :
    StandsAt all (position + lines.length) more := by
  obtain ⟨before, behind, rfl, rfl⟩ := h
  exact ⟨before ++ lines, behind, by simp, by simp⟩

/-- What stands somewhere without its first op-line stands one further on. -/
theorem tail (h : StandsAt all position (line :: more)) : StandsAt all (position + 1) more :=
  @right all [line] more position h

/-- The handle of an op-line is found where the op-line stands. -/
theorem getElem?_handles (h : StandsAt all position (line :: more)) :
    (handles all)[position]? = some line.id := by
  obtain ⟨before, behind, rfl, rfl⟩ := h
  simp [handles]

/-- The linked form of an op-line is found where the op-line stands. -/
theorem getElem?_placedLines (h : StandsAt all position (line :: more)) (place : SlotId → SlotRef) :
    (placedLines place all all)[position]? = some (line.op.placed place all) := by
  obtain ⟨before, behind, hall, rfl⟩ := h
  rw [placedLines_eq_map, List.getElem?_map, hall]
  simp

/-- The bodies in a piece of a list are different in themselves as those of the list are. -/
theorem distinct_body (h : StandsAt all position (line :: more)) (hall : Distinct all)
    {name params : SlotId} {body : List OpLine} (hop : line.op = .functionDef name body params) :
    Distinct body := by
  obtain ⟨before, behind, rfl, -⟩ := h
  intro inner hinner
  refine hall inner (List.mem_cons_of_mem _ ?_)
  simp only [List.append_assoc, List.cons_append, lineBodies_append, lineBodies_cons, hop,
    Op.bodies]
  exact List.mem_append_right _ (List.mem_append_left _ hinner)

end StandsAt

/-! ## Code in its place -/

/-- Running code from `start` on means a run and then what comes from `finish` on, whatever that is.
-/
def Continues (ops : List LinkedOp) (start finish : Nat) (outcomes : List Bool) (run : Run Effect) :
    Prop :=
  ∀ next : List Bool → Run Effect,
    (∀ rest, run.rest = some rest → Runs ops finish rest (next rest)) →
    Runs ops start outcomes (run.andThen next)

namespace Continues

variable {ops : List LinkedOp} {start between finish : Nat} {outcomes : List Bool}
  {run : Run Effect} {op : LinkedOp} {effect : Effect} {target : UInt32}

/-- What continues to the end of the code is a run of it. -/
theorem runs (h : Continues ops start ops.length outcomes run) : Runs ops start outcomes run := by
  have hrun := h .idle fun rest _ => .finish le_rfl
  rwa [Run.andThen_idle] at hrun

/-- Code that continues with other code means the run of the one and then of the other. -/
theorem trans {next : List Bool → Run Effect} (h : Continues ops start between outcomes run)
    (hnext : ∀ rest, run.rest = some rest → Continues ops between finish rest (next rest)) :
    Continues ops start finish outcomes (run.andThen next) := by
  intro last hlast
  rw [Run.andThen_assoc]
  refine h _ fun rest hrest => hnext rest hrest last fun rest' hrest' => hlast rest' ?_
  rw [Run.andThen_some hrest]
  exact hrest'

/-- Code that begins where a step leads to. -/
theorem of_step {outcomes' : List Bool}
    (hstep : ∀ run, Runs ops between outcomes' run → Runs ops start outcomes run)
    (h : Continues ops between finish outcomes' run) : Continues ops start finish outcomes run :=
  fun next hnext => hstep _ (h next hnext)

/-- No code means a run that performs nothing. -/
theorem idle : Continues ops start start outcomes (.idle outcomes) :=
  fun _ hnext => hnext outcomes rfl

/-- A test without an outcome means a run that stops. -/
theorem starved {on : Bool} (hop : ops[start]? = some op) (htest : op.test? = some (on, target)) :
    Continues ops start finish [] .starved :=
  fun _ _ => .starve hop htest

/-- An op-line with an effect means a run that performs it. -/
theorem perform (hop : ops[start]? = some op) (heffect : op.effect? = some effect) :
    Continues ops start (start + 1) outcomes ⟨[effect], some outcomes⟩ :=
  fun _ hnext => .perform hop heffect (hnext outcomes rfl)

/-- A function definition means a run that declares what its body means. -/
theorem declare {name params : SlotRef} {body : List LinkedOp} {meaning : List Bool → Run Effect}
    (hop : ops[start]? = some (.functionDef name body params))
    (hbody : ∀ outcomes, Runs body 0 outcomes (meaning outcomes)) :
    Continues ops start (start + 1) outcomes ⟨[.declare meaning], some outcomes⟩ :=
  fun _ hnext => .declare hop hbody (hnext outcomes rfl)

end Continues

end Lowering
