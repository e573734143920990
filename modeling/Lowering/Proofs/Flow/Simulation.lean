import Lowering.Proofs.Compile.Ends
import Lowering.Proofs.Flow.Machine

/-!
# Code that does what a behaviour does

`Performs` says that op-lines do what a behaviour does, wherever they stand in a list. Op-lines in
sequence perform behaviours in sequence; a condition with the jump that tests it performs a test;
and the layouts of loops and of branches perform the loops and the choices of `Behaviour`, since
their jumps resolve to the positions of their labels.

`Emitter.Follows` says that whatever op-lines an emitter returns perform a behaviour. For every way
to build an emitter it holds of the behaviour that is built from those of its parts.
-/

namespace Lowering

open CompileM

/-! ## Op-lines that perform a behaviour -/

/-- Op-lines do what a behaviour does, in any list of op-lines with different handles and wherever
they stand in it. -/
def Performs (lines : List OpLine) (behaviour : Behaviour) : Prop :=
  ∀ (place : SlotId → SlotRef) {all : List OpLine} {position : Nat}, Distinct all →
    StandsAt all position lines → ∀ outcomes,
      Continues (placedLines place all all) position (position + lines.length) outcomes
        (behaviour.run outcomes)

namespace Performs

variable {lines more test stmts all : List OpLine} {first second cond yes no : Behaviour}
  {position finish : Nat}

/-- No op-lines do nothing. -/
theorem nil : Performs [] .nothing :=
  fun _ _ _ _ _ _ => .idle

/-- Op-lines one after another do one thing and then the other. -/
theorem append (h : Performs lines first) (h' : Performs more second) :
    Performs (lines ++ more) (first.andThen second) := by
  intro place all position hall hat outcomes
  have hfirst := h place hall hat.left outcomes
  have hsecond := h' place hall hat.right
  rw [List.length_append, ← Nat.add_assoc]
  exact hfirst.trans fun rest _ => hsecond rest

/-- The whole of some op-lines runs as the behaviour that they perform. -/
theorem runs (h : Performs lines first) (hdistinct : Distinct lines) (place : SlotId → SlotRef)
    (outcomes : List Bool) :
    Runs (placedLines place lines lines) 0 outcomes (first.run outcomes) := by
  have hcontinues := h place hdistinct (.whole lines) outcomes
  have hlength : (placedLines place lines lines).length = 0 + lines.length := by
    simp [placedLines_eq_map]
  rw [← hlength] at hcontinues
  exact hcontinues.runs

/-- An operation on one operand has its effect. -/
theorem unary (id : OpId) (kind : UnaryKind) (op1 result : SlotId) :
    Performs [⟨id, .unary kind op1 result⟩] (.perform (.unary kind)) :=
  fun place _ _ _ hat _ => .perform (hat.getElem?_placedLines place) rfl

/-- An operation on two operands has its effect. -/
theorem binary (id : OpId) (kind : BinaryKind) (op1 op2 result : SlotId) :
    Performs [⟨id, .binary kind op1 op2 result⟩] (.perform (.binary kind)) :=
  fun place _ _ _ hat _ => .perform (hat.getElem?_placedLines place) rfl

/-- A declaration declares what its body performs. -/
theorem functionDef (h : Performs stmts first) (id : OpId) (name params : SlotId) :
    Performs [⟨id, .functionDef name stmts params⟩] (.perform (.declare first.run)) := by
  intro place all position hall hat outcomes
  exact .declare (hat.getElem?_placedLines place) (h.runs (hat.distinct_body hall rfl) place)

/-! ### Jumps -/

/-- A jump leads to where its target stands. -/
theorem continues_jumpTo {id target : OpId} {between : Nat} {outcomes : List Bool}
    {run : Run Effect} (place : SlotId → SlotRef) (hall : Distinct all)
    (hat : StandsAt all position (⟨id, .jumpTo target⟩ :: more))
    (htarget : (handles all)[between]? = some target)
    (h : Continues (placedLines place all all) between finish outcomes run) :
    Continues (placedLines place all all) position finish outcomes run := by
  refine .of_step (fun run hrun => .jump (hat.getElem?_placedLines place) ?_) h
  rwa [toNat_positionOf hall.nodup htarget]

/-- A label leads on. -/
theorem continues_noOp {id : OpId} {outcomes : List Bool} {run : Run Effect}
    (place : SlotId → SlotRef) (hat : StandsAt all position (⟨id, .noOp⟩ :: more))
    (h : Continues (placedLines place all all) (position + 1) finish outcomes run) :
    Continues (placedLines place all all) position finish outcomes run :=
  .of_step (fun _ hrun => .pass (hat.getElem?_placedLines place) hrun) h

/-- A condition and the jump that tests it: the run goes on behind the jump or at its target, with
fewer outcomes. -/
theorem continues_test {guard : OpLine} {on : Bool} {target : OpId} {there : Nat}
    {outcomes : List Bool} (h : Performs test cond) (place : SlotId → SlotRef) (hall : Distinct all)
    (hat : StandsAt all position (test ++ [guard]))
    (hguard : (guard.op.placed place all).test? = some (on, .ofNat (positionOf all target)))
    (htarget : (handles all)[there]? = some target)
    (hyes : ∀ rest : List Bool, rest.length < outcomes.length →
      Continues (placedLines place all all)
        (if true = on then there else position + test.length + 1) finish rest (yes.run rest))
    (hno : ∀ rest : List Bool, rest.length < outcomes.length →
      Continues (placedLines place all all)
        (if false = on then there else position + test.length + 1) finish rest (no.run rest)) :
    Continues (placedLines place all all) position finish outcomes
      ((cond.andThen (.test yes no)).run outcomes) := by
  have hop := hat.right.getElem?_placedLines place
  have hposition := toNat_positionOf hall.nodup htarget
  refine (h place hall hat.left outcomes).trans fun rest hrest => ?_
  have hle := (cond.left hrest).length_le
  rcases rest with _ | ⟨_ | _, rest⟩
  · exact .starved hop hguard
  -- The test has used up an outcome, so fewer are left than the condition was given.
  · refine .of_step (fun run hrun => .test hop hguard ?_) (hno rest hle)
    rwa [hposition]
  · refine .of_step (fun run hrun => .test hop hguard ?_) (hyes rest hle)
    rwa [hposition]

/-- The entry of some op-lines is the handle of the first of them. -/
theorem getElem?_entry {line : OpLine} (h : StandsAt all position (lines ++ [line])) :
    (handles all)[position]? = some (Emitter.entry lines line.id) := by
  cases lines with
  | nil => exact h.getElem?_handles
  | cons head rest => exact h.getElem?_handles

/-- The op-lines of a loop that tests first are those of its test, the guard, those of its
statements and the way back. -/
theorem whileLoop (hcond : Performs test cond) (hstmts : Performs stmts first)
    (guard again exit : OpId) (slot : SlotId) :
    Performs (test ++ [⟨guard, .jumpIfNot slot exit⟩] ++ stmts ++
      [⟨again, .jumpTo (Emitter.entry test guard)⟩, ⟨exit, .noOp⟩]) (.loop cond first) := by
  intro place all position hall hat outcomes
  have hback := hat.right
  have hentry := getElem?_entry hat.left.left
  have hexit := hback.tail.getElem?_handles
  simp only [List.length_append, List.length_singleton, ← Nat.add_assoc] at hback hexit
  simp only [List.length_append, List.length_cons, List.length_nil, ← Nat.add_assoc]
  -- Each round uses up an outcome, so the induction is on their number.
  induction hlength : outcomes.length using Nat.strongRecOn generalizing outcomes with
  | ind length ih =>
    subst hlength
    rw [Behaviour.loop_eq]
    refine hcond.continues_test place hall hat.left.left rfl hexit (fun rest hlt => ?_)
      fun rest hlt => ?_
    · -- The condition holds: the statements, and then back to the entry with fewer outcomes.
      have hround := hstmts place hall hat.left.right rest
      rw [List.length_append, List.length_singleton, ← Nat.add_assoc] at hround
      refine hround.trans fun rest' hrest' => ?_
      have hle := (first.left hrest').length_le
      exact continues_jumpTo place hall hback hentry
        (ih rest'.length (Nat.lt_of_le_of_lt hle hlt) rest' rfl)
    · -- It does not hold: the guard jumps to the label behind the loop.
      exact continues_noOp place hback.tail .idle

/-- Op-lines that are jumped back to as long as a condition holds do what a loop does that tests
last. -/
theorem doLoop (h : Performs lines first) (id : OpId) (slot : SlotId) :
    Performs (lines ++ [⟨id, .jumpIf slot (Emitter.entry lines id)⟩]) (.loop first .nothing) := by
  intro place all position hall hat outcomes
  have hentry := getElem?_entry hat
  rw [List.length_append, List.length_singleton, ← Nat.add_assoc]
  induction hlength : outcomes.length using Nat.strongRecOn generalizing outcomes with
  | ind length ih =>
    subst hlength
    rw [Behaviour.loop_eq]
    refine h.continues_test place hall hat rfl hentry (fun rest hlt => ?_) fun rest _ => .idle
    exact ih rest.length hlt rest rfl

end Performs

/-! ### Branches -/

/-- Op-lines test the conditions of guarded parts in turn, and go to an exit behind the statements
of the first that holds. What comes behind them is done when none holds. -/
def Chooses (exit : OpId) (lines : List OpLine) (parts : List GuardedPart) : Prop :=
  ∀ (place : SlotId → SlotRef) {all : List OpLine} {position there finish : Nat}, Distinct all →
    StandsAt all position lines → (handles all)[there]? = some exit → ∀ otherwise : Behaviour,
    (∀ rest, Continues (placedLines place all all) there finish rest (.idle rest)) →
    (∀ rest, Continues (placedLines place all all) (position + lines.length) finish rest
      (otherwise.run rest)) →
    ∀ outcomes, Continues (placedLines place all all) position finish outcomes
      ((GuardedPart.firstOf parts otherwise).run outcomes)

namespace Chooses

variable {exit : OpId} {lines more test stmts : List OpLine} {cond first otherwise : Behaviour}
  {parts : List GuardedPart}

/-- No op-lines choose among no parts. -/
theorem nil : Chooses exit [] [] :=
  fun _ _ _ _ _ _ _ _ _ _ hotherwise => hotherwise

/-- A guarded branch in front is one more part to choose from. -/
theorem cons (hcond : Performs test cond) (hstmts : Performs stmts first)
    (hmore : Chooses exit more parts) (guard leave past : OpId) (slot : SlotId) :
    Chooses exit (test ++ [⟨guard, .jumpIfNot slot past⟩] ++ stmts ++
      [⟨leave, .jumpTo exit⟩, ⟨past, .noOp⟩] ++ more) (⟨cond, first⟩ :: parts) := by
  intro place all position there finish hall hat hthere otherwise hexit hotherwise outcomes
  have hleave := hat.left.right
  have hbehind := hat.right
  have hpast := hleave.tail.getElem?_handles
  simp only [List.length_append, List.length_singleton, ← Nat.add_assoc] at hleave hpast
  simp only [List.length_append, List.length_cons, List.length_nil, Nat.zero_add,
    ← Nat.add_assoc] at hbehind hotherwise
  rw [GuardedPart.firstOf]
  refine hcond.continues_test place hall hat.left.left.left rfl hpast (fun rest _ => ?_)
    fun rest _ => ?_
  · -- The condition holds: the statements, and then the jump to the exit.
    have hbranch := hstmts place hall hat.left.left.right rest
    rw [List.length_append, List.length_singleton, ← Nat.add_assoc] at hbranch
    rw [← Run.andThen_idle (first.run rest)]
    refine hbranch.trans fun rest' _ => ?_
    exact Performs.continues_jumpTo place hall hleave hthere (hexit rest')
  · -- It does not hold: past the statements, where the next condition is tested.
    refine Performs.continues_noOp place hleave.tail ?_
    exact hmore place hall hbehind hthere otherwise hexit hotherwise rest

/-- Guarded branches with a common exit behind all statements do the first part that holds, or the
statements in front of the exit. -/
theorem conditional (h : Chooses exit lines parts) (h' : Performs more otherwise) :
    Performs (lines ++ more ++ [⟨exit, .noOp⟩]) (GuardedPart.firstOf parts otherwise) := by
  intro place all position hall hat outcomes
  have hexit := hat.right
  rw [List.length_append, List.length_singleton, ← Nat.add_assoc]
  have hend : ∀ rest, Continues (placedLines place all all) (position + (lines ++ more).length)
      (position + (lines ++ more).length + 1) rest (.idle rest) :=
    fun rest => Performs.continues_noOp place hexit .idle
  refine h place hall hat.left.left hexit.getElem?_handles otherwise hend (fun rest => ?_) outcomes
  have hmore := h' place hall hat.left.right rest
  rw [← Run.andThen_idle (otherwise.run rest)]
  refine hmore.trans fun rest' _ => ?_
  rw [Nat.add_assoc, ← List.length_append]
  exact hend rest'

end Chooses

/-! ## Emitters that follow a behaviour -/

namespace Emitter

/-- The op-lines that an emitter returns perform a behaviour. -/
def Follows (emitter : Emitter) (behaviour : Behaviour) : Prop :=
  ∀ context state, Ends (emitter context) state (fun lines _ => Performs lines behaviour)
    fun _ _ => True

/-- The condition and the statements of a branch follow those of a guarded part. -/
def Branch.Follows (branch : Branch) (part : GuardedPart) : Prop :=
  branch.cond.Follows part.cond ∧ branch.stmts.Follows part.stmts

variable {emitter first second : Emitter} {behaviour behaviour' behaviour'' : Behaviour}

/-- An emitter that follows a behaviour ends, if it succeeds, with op-lines that perform it. -/
theorem Follows.ends (h : emitter.Follows behaviour) {context : Option SlotId}
    {state : CompileState} {done : List OpLine → CompileState → Prop}
    (hdone : ∀ lines state', Performs lines behaviour → done lines state') :
    Ends (emitter context) state done fun _ _ => True :=
  (h context state).mono hdone fun _ _ _ => trivial

/-- No code follows doing nothing. -/
theorem follows_skip : skip.Follows .nothing :=
  fun _ _ => Performs.nil

/-- One piece and then another follow one behaviour and then the other. -/
theorem follows_append (h : first.Follows behaviour) (h' : second.Follows behaviour') :
    (append first second).Follows (behaviour.andThen behaviour') := by
  intro context state
  rw [ends_append]
  refine h.ends fun ops _ hops => h'.ends fun more _ hmore => ?_
  exact hops.append hmore

/-- An event in front does nothing when the code runs. -/
theorem follows_noting (event : Event) (h : emitter.Follows behaviour) :
    (noting event emitter).Follows behaviour := by
  intro context state
  rw [ends_noting]
  exact h context _

/-- A node that cannot be compiled follows every behaviour, as it returns no op-lines. -/
theorem follows_unsupported (kind : NodeKind) : (unsupported kind).Follows behaviour :=
  fun _ _ => trivial

/-- A literal without effect does nothing. -/
theorem follows_dropped (literal : Scalar) : (dropped literal).Follows .nothing := by
  intro context state
  rw [ends_dropped]
  exact .nil

/-- A literal does nothing when the code runs. -/
theorem follows_folded (literal : Scalar) : (folded literal).Follows .nothing := by
  intro context state
  cases context with
  | none => rw [ends_folded_none]; exact .nil
  | some slot => rw [ends_folded_some]; exact .nil

/-- A constant does nothing when the code runs. -/
theorem follows_constant (literal : Constant) : (constant literal).Follows .nothing := by
  intro context state
  cases context with
  | none => rw [ends_constant_none]; exact .nil
  | some slot => rw [ends_constant_some]; exact .nil

/-- An operation on one operand does what its operand does and then has its effect. -/
theorem follows_unary (kind : UnaryKind) (h : emitter.Follows behaviour) :
    (unary kind emitter).Follows (behaviour.andThen (.perform (.unary kind))) := by
  intro context state
  rw [ends_unary]
  refine h.ends fun ops _ hops => ?_
  exact hops.append (.unary _ kind _ _)

/-- An operation on two operands does what the left one does, what the right one does, and then has
its effect. -/
theorem follows_binary (kind : BinaryKind) (h : first.Follows behaviour)
    (h' : second.Follows behaviour') :
    (binary kind first second).Follows
      (behaviour.andThen (behaviour'.andThen (.perform (.binary kind)))) := by
  intro context state
  rw [ends_binary]
  refine h.ends fun ops _ hops => h'.ends fun more _ hmore => ?_
  rw [List.append_assoc]
  exact hops.append (hmore.append (.binary _ kind _ _ _))

/-- An argument does what its value does. -/
theorem follows_argument (h : emitter.Follows behaviour) :
    (argument emitter).Follows behaviour := by
  intro context state
  rw [ends_argument]
  exact h.ends fun _ _ hops => hops

/-- Text between the statements is echoed. -/
theorem follows_inlineText (text : Constant) :
    (inlineText text).Follows (.perform (.unary .echoOp)) := by
  intro context state
  rw [ends_inlineText]
  exact .unary _ .echoOp _ _

/-- The code of a default value is kept in the record, so a parameter does nothing. -/
theorem follows_parameter (declaration : Declaration) (h : emitter.Follows behaviour) :
    (parameter declaration emitter).Follows .nothing := by
  intro context state
  rw [ends_parameter]
  exact h.ends fun _ _ _ => .nil

/-- A function does what its name and its parameters do and then declares what its body does. -/
theorem follows_function {body : Emitter} (hbody : body.Follows behaviour)
    (hname : first.Follows behaviour') (hparams : second.Follows behaviour'') :
    (function body first second).Follows
      (behaviour'.andThen (behaviour''.andThen (.perform (.declare behaviour.run)))) := by
  intro context state
  rw [ends_function]
  refine hbody.ends fun stmts _ hstmts => hname.ends fun ops _ hops => ?_
  refine hparams.ends fun more _ hmore => ?_
  rw [List.append_assoc]
  exact hops.append (hmore.append (hstmts.functionDef _ _ _))

/-- Guarded branches choose among the parts that they follow. -/
theorem ends_guardedAll_of_follows (exit : OpId) {branches : List Branch} {parts : List GuardedPart}
    (h : List.Forall₂ Branch.Follows branches parts) (state : CompileState) :
    Ends (guardedAll exit branches) state (fun lines _ => Chooses exit lines parts)
      fun _ _ => True := by
  induction h generalizing state with
  | nil => exact Chooses.nil
  | cons hbranch _ ih =>
    rw [ends_guardedAll_cons, ends_guarded]
    refine hbranch.1.ends fun test _ htest => hbranch.2.ends fun stmts state₂ hstmts => ?_
    exact (ih _).mono (fun more _ hmore => .cons htest hstmts hmore _ _ _ _) fun _ _ _ => trivial

/-- A conditional does the first part that holds, or what the statements behind all branches do. -/
theorem follows_conditional {branches : List Branch} {parts : List GuardedPart}
    (h : List.Forall₂ Branch.Follows branches parts) (h' : emitter.Follows behaviour) :
    (conditional branches emitter).Follows (GuardedPart.firstOf parts behaviour) := by
  intro context state
  rw [ends_conditional]
  refine (ends_guardedAll_of_follows _ h _).mono (fun ops state₁ hops => ?_) fun _ _ _ => trivial
  exact h'.ends fun more _ hmore => hops.conditional hmore

/-- A loop that tests first tests its condition and does its statements as long as it holds. -/
theorem follows_whileLoop {branch : Branch} {part : GuardedPart} (h : branch.Follows part) :
    (whileLoop branch).Follows (.loop part.cond part.stmts) := by
  intro context state
  rw [ends_whileLoop]
  refine h.1.ends fun test _ htest => h.2.ends fun stmts _ hstmts => ?_
  exact htest.whileLoop hstmts _ _ _ _

/-- A loop that tests last does its statements, tests its condition, and starts over as long as it
holds. -/
theorem follows_doLoop {branch : Branch} {part : GuardedPart} (h : branch.Follows part) :
    (doLoop branch).Follows (.loop (part.stmts.andThen part.cond) .nothing) := by
  intro context state
  rw [ends_doLoop]
  refine h.2.ends fun stmts _ hstmts => h.1.ends fun test _ htest => ?_
  exact (hstmts.append htest).doLoop _ _

end Emitter

end Lowering
