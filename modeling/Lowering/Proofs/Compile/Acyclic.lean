import Mathlib.Logic.Relation
import Lowering.Proofs.Compile.Growth
import Lowering.Proofs.Compile.Linkable
import Lowering.Proofs.Tree.Walk

/-!
# No cycles among slots

A slot refers to the slots that occur in its content. A compiler adds slots that refer to newer ones
only (`Heap.Grows`), and the one old slot that it writes, its context, comes to refer to added ones.
So no path leads from an added slot back to an old one, and a cycle would have to be among the old
slots or among the added ones, where indices increase along every path (`Heap.Grows.acyclic`).

The log of a function shows the value of its name with the content of every slot that it leads to.
These slots were added for the name, so following them comes to an end, and the description that
stands in the log is complete (`Heap.Describes`). `compile_acyclic` says both of every call, also of
one that fails.
-/

namespace Lowering

open CompileM Emitter

namespace Heap

/-- A slot refers to another that occurs in its content. -/
def Refers (heap : Heap) (slot next : SlotId) : Prop :=
  next ∈ heap.slotsOf slot

instance (heap : Heap) (slot next : SlotId) : Decidable (heap.Refers slot next) :=
  inferInstanceAs (Decidable (next ∈ heap.slotsOf slot))

/-- No slot leads back to itself. -/
def Acyclic (heap : Heap) : Prop :=
  ∀ slot, ¬ Relation.TransGen heap.Refers slot slot

/-- A heap without slots has no cycle. -/
theorem acyclic_empty : Acyclic {} := by
  intro slot hcycle
  obtain ⟨last, -, hback⟩ := Relation.TransGen.tail'_iff.mp hcycle
  rw [Refers, Grows.slotsOf_of_size_le (Nat.zero_le _)] at hback
  cases hback

section

variable {context : Option SlotId} {before after : Heap} {slot other : SlotId}

/-- Paths from an added slot stay among the added slots and go to newer ones. -/
theorem Grows.newer_of_path (h : Grows context before after) (hslot : before.size ≤ slot.index)
    (hpath : Relation.TransGen after.Refers slot other) :
    slot.index < other.index ∧ other.index < after.size := by
  induction hpath with
  | single hnext => exact h.newer slot hslot _ hnext
  | @tail found next _ hnext ih =>
    obtain ⟨hlt, -⟩ := ih
    have hfound : before.size ≤ found.index := Nat.le_trans hslot (Nat.le_of_lt hlt)
    obtain ⟨hless, hsize⟩ := h.newer found hfound next hnext
    exact ⟨Nat.lt_trans hlt hless, hsize⟩

/-- An old slot refers to what it referred to before, and to added slots. -/
theorem Grows.refers_of_old (h : Grows context before after) (hslot : slot.index < before.size)
    (hnext : after.Refers slot other) : before.Refers slot other ∨ before.size ≤ other.index := by
  by_cases hcontext : slot ∈ context
  · exact (h.named slot hcontext other hnext).imp_right And.left
  · rw [Refers, slotsOf, h.frame slot hslot hcontext] at hnext
    exact Or.inl hnext

/-- A path that ends in an old slot was there before. -/
theorem Grows.path_of_old (h : Grows context before after)
    (hpath : Relation.TransGen after.Refers slot other) (hother : other.index < before.size) :
    Relation.TransGen before.Refers slot other := by
  -- Only old slots stand on the path, because no path leads from an added slot to an old one.
  have hold : ∀ {slot next}, after.Refers slot next → next.index < before.size →
      slot.index < before.size := by
    intro slot next hnext hlt
    by_contra hadded
    have hnewer := h.newer slot (Nat.le_of_not_lt hadded) next hnext
    omega
  have hstep : ∀ {slot next}, after.Refers slot next → next.index < before.size →
      before.Refers slot next := by
    intro slot next hnext hlt
    exact (h.refers_of_old (hold hnext hlt) hnext).resolve_right (Nat.not_le.mpr hlt)
  induction hpath with
  | single hnext => exact .single (hstep hnext hother)
  | tail _ hnext ih => exact .tail (ih (hold hnext hother)) (hstep hnext hother)

/-- A heap without a cycle grows into one without a cycle. -/
theorem Grows.acyclic (h : Grows context before after) (hbefore : before.Acyclic) :
    after.Acyclic := by
  intro slot hcycle
  by_cases hslot : slot.index < before.size
  · exact hbefore slot (h.path_of_old hcycle hslot)
  · have hnewer := h.newer_of_path (Nat.le_of_not_lt hslot) hcycle
    exact Nat.lt_irrefl _ hnewer.1

end

end Heap

/-! ## Complete descriptions -/

mutual

/-- The description of an operation asks for the slots that it names. -/
theorem Op.describe_congr {f g : SlotId → String} : ∀ op : Op, (∀ slot ∈ op.slots, f slot = g slot) →
    op.describe f = op.describe g
  | .unary _ _ _, h | .binary _ _ _ _, h | .jumpIf _ _, h | .jumpIfNot _ _, h => by
    simp_all [Op.slots, Op.describe]
  | .jumpTo _, _ | .noOp, _ => by simp only [Op.describe]
  | .functionDef name body params, h => by
    simp only [Op.slots, List.mem_cons, List.mem_append, List.not_mem_nil, or_false] at h
    have hbody := describeLines_congr body fun slot hslot => h slot (Or.inr (Or.inl hslot))
    simp only [Op.describe, hbody, h name (Or.inl rfl), h params (Or.inr (Or.inr rfl))]

/-- The descriptions of op-lines ask for the slots that they name. -/
theorem describeLines_congr {f g : SlotId → String} : ∀ lines : List OpLine,
    (∀ slot ∈ lineSlots lines, f slot = g slot) → describeLines f lines = describeLines g lines
  | [], _ => by simp only [describeLines]
  | ⟨id, op⟩ :: rest, h => by
    rw [lineSlots, List.forall_mem_append] at h
    rw [describeLines, describeLines, Op.describe_congr op h.1, describeLines_congr rest h.2]

end

mutual

/-- The description of a value asks for the slots that it names. -/
theorem Value.describe_congr {f g : SlotId → String} : ∀ value : Value,
    (∀ slot ∈ value.slots, f slot = g slot) → value.describe f = value.describe g
  | .null, _ | .bool _, _ | .long _, _ | .double _, _ | .string _, _ => by
    simp only [Value.describe]
  | .array items, h => by
    rw [Value.slots] at h
    rw [Value.describe, Value.describe, describeValues_congr items h]
  | .slot id, h => by
    rw [Value.describe, Value.describe, h id (by simp [Value.slots])]
  | .param record, h => by
    rw [Value.slots, List.forall_mem_cons] at h
    rw [Value.describe, Value.describe, ParamRecord.describe, ParamRecord.describe, h.1,
      describeLines_congr record.ops h.2]

/-- The descriptions of values ask for the slots that they name. -/
theorem describeValues_congr {f g : SlotId → String} : ∀ values : List Value,
    (∀ slot ∈ valueSlots values, f slot = g slot) → describeValues f values = describeValues g values
  | [], _ => by simp only [describeValues]
  | value :: rest, h => by
    rw [valueSlots, List.forall_mem_append] at h
    rw [describeValues, describeValues, Value.describe_congr value h.1,
      describeValues_congr rest h.2]

end

namespace Heap

/-- A value can be described in full: following its slots comes to an end, and a description that
goes down as far as there are slots is not cut off anywhere, since going deeper changes nothing. -/
structure Describes (heap : Heap) (value : Value) : Prop where
  ends : ∀ slot ∈ value.slots, Acc (fun next slot => heap.Refers slot next) slot
  whole : ∀ depth, heap.size ≤ depth →
    value.describe (heap.describeTo depth) = heap.describeValue value

section

variable {context : Option SlotId} {before after : Heap}

/-- Following an added slot comes to an end. -/
theorem Grows.acc_refers (h : Grows context before after) (slot : SlotId)
    (hslot : before.size ≤ slot.index) : Acc (fun next slot => after.Refers slot next) slot := by
  refine Acc.intro slot fun next hnext => ?_
  obtain ⟨hless, hlt⟩ := h.newer slot hslot next hnext
  exact h.acc_refers next (Nat.le_trans hslot (Nat.le_of_lt hless))
termination_by after.size - slot.index

/-- The description of an added slot has no more levels than there are slots from it on. -/
theorem Grows.describeTo_succ (h : Grows context before after) (depth : Nat) :
    ∀ slot : SlotId, before.size ≤ slot.index → slot.index < after.size →
      after.size ≤ depth + slot.index →
      after.describeTo (depth + 1) slot = after.describeTo depth slot := by
  induction depth with
  | zero => intro slot _ hlt hle; omega
  | succ depth ih =>
    intro slot hslot hlt hle
    have hnext : ∀ next ∈ (after.get slot).value.slots,
        after.describeTo (depth + 1) next = after.describeTo depth next := by
      intro next hmem
      obtain ⟨hless, hsize⟩ := h.newer slot hslot next hmem
      exact ih next (Nat.le_trans hslot (Nat.le_of_lt hless)) hsize (by omega)
    rw [describeTo, describeTo, Value.describe_congr _ hnext]

/-- The content of an added slot can be described in full. -/
theorem Grows.describes (h : Grows context before after) {slot : SlotId}
    (hslot : before.size ≤ slot.index) : after.Describes (after.get slot).value := by
  have hnewer : ∀ next ∈ (after.get slot).value.slots,
      before.size ≤ next.index ∧ next.index < after.size := by
    intro next hnext
    obtain ⟨hless, hlt⟩ := h.newer slot hslot next hnext
    exact ⟨Nat.le_trans hslot (Nat.le_of_lt hless), hlt⟩
  refine ⟨fun next hnext => h.acc_refers next (hnewer next hnext).1, fun depth hdepth => ?_⟩
  -- Every depth from the number of slots on gives what that depth gives.
  have hsame : ∀ depth, after.size ≤ depth → ∀ next ∈ (after.get slot).value.slots,
      after.describeTo depth next = after.describeTo after.size next := by
    intro depth hdepth next hnext
    obtain ⟨hle, hlt⟩ := hnewer next hnext
    induction depth, hdepth using Nat.le_induction with
    | base => rfl
    | succ depth hdepth ih => rw [h.describeTo_succ depth next hle hlt (by omega), ih]
  rw [describeValue]
  refine Value.describe_congr _ fun next hnext => ?_
  rw [hsame depth hdepth next hnext, describe, hsame _ (Nat.le_succ _) next hnext]

end

end Heap

/-! ## The log -/

/-- An event that shows a value shows one that can be described in full. -/
def Event.IsWhole : Event → Prop
  | .functionCompiled heap name _ _ => heap.Describes name
  | _ => True

/-- Every event that was reported from one state to another can be put into words in full. -/
def ReportsWhole (before after : CompileState) : Prop :=
  ∃ events, after.log = events ++ before.log ∧ ∀ event ∈ events, event.IsWhole

namespace ReportsWhole

variable {before between after : CompileState}

/-- A step that reports nothing reports nothing that is cut off. -/
theorem of_log_eq (h : after.log = before.log) : ReportsWhole before after :=
  ⟨[], h, List.forall_mem_nil _⟩

/-- Two steps report in full if each of them does. -/
theorem trans (h : ReportsWhole before between) (h' : ReportsWhole between after) :
    ReportsWhole before after := by
  obtain ⟨events, hevents, hwhole⟩ := h
  obtain ⟨more, hmore, hwhole'⟩ := h'
  refine ⟨more ++ events, by rw [hmore, hevents, List.append_assoc], ?_⟩
  exact List.forall_mem_append.mpr ⟨hwhole', hwhole⟩

/-- An event that can be put into words in full may be reported as well. -/
theorem noted (h : ReportsWhole before between) {event : Event} (hevent : event.IsWhole) :
    ReportsWhole before (between.noted event) :=
  h.trans ⟨[event], rfl, List.forall_mem_singleton.mpr hevent⟩

/-- Kinds of nodes are put into words in full. -/
theorem notedMisplaced (h : ReportsWhole before between) (kinds : List NodeKind) :
    ReportsWhole before (between.notedMisplaced kinds) := by
  induction kinds generalizing between with
  | nil => exact h
  | cons kind rest ih => exact ih (h.noted trivial)

end ReportsWhole

/-- What an emitter reports can be put into words in full, also where it fails. -/
def Emitter.Reports (emitter : Emitter) : Prop :=
  ∀ context state, Ends (emitter context) state (fun _ after => ReportsWhole state after)
    fun _ after => ReportsWhole state after

namespace Emitter

variable {emitter : Emitter} {context : Option SlotId} {before state : CompileState}

/-- An emitter that runs behind other steps. -/
theorem Reports.ends (h : emitter.Reports) {done : List OpLine → CompileState → Prop}
    {failed : CompileError → CompileState → Prop} (hstate : ReportsWhole before state)
    (hdone : ∀ ops after, ReportsWhole before after → done ops after)
    (hfailed : ∀ e after, ReportsWhole before after → failed e after) :
    Ends (emitter context) state done failed :=
  (h context state).mono (fun ops after hops => hdone ops after (hstate.trans hops))
    fun e after hfails => hfailed e after (hstate.trans hfails)

/-- No code reports nothing. -/
theorem reports_skip : skip.Reports :=
  fun _ _ => ends_skip.mpr (.of_log_eq rfl)

/-- One piece and then another report in full if each of them does. -/
theorem reports_append {first second : Emitter} (hfirst : first.Reports)
    (hsecond : second.Reports) : (append first second).Reports := by
  intro context state
  rw [ends_append]
  refine hfirst.ends (.of_log_eq rfl) (fun ops state₁ hops => ?_) fun _ _ hfails => hfails
  exact hsecond.ends hops (fun _ _ hmore => hmore) fun _ _ hfails => hfails

/-- An event in front is one more to be put into words in full. -/
theorem reports_noting {event : Event} (hevent : event.IsWhole) (h : emitter.Reports) :
    (noting event emitter).Reports := by
  intro context state
  rw [ends_noting]
  have hnoted : ReportsWhole state (state.noted event) :=
    ReportsWhole.noted (.of_log_eq rfl) hevent
  exact h.ends hnoted (fun _ _ hops => hops) fun _ _ hfails => hfails

/-- The failure of a node that cannot be compiled is no event. -/
theorem reports_unsupported (kind : NodeKind) : (unsupported kind).Reports :=
  fun _ _ => (ends_unsupported kind).mpr (.of_log_eq rfl)

/-- A literal without effect is reported by its text. -/
theorem reports_dropped (literal : Scalar) : (dropped literal).Reports := by
  intro context state
  rw [ends_dropped]
  exact ReportsWhole.noted (.of_log_eq rfl) trivial

/-- A literal is reported by its text when there is no context to fold it into. -/
theorem reports_folded (literal : Scalar) : (folded literal).Reports := by
  intro context state
  cases context with
  | none =>
    rw [ends_folded_none]
    exact ReportsWhole.noted (.of_log_eq rfl) trivial
  | some slot =>
    rw [ends_folded_some]
    exact .of_log_eq rfl

/-- A constant reports at most the kinds of the nodes met in place of literals. -/
theorem reports_constant (literal : Constant) : (constant literal).Reports := by
  intro context state
  cases context with
  | none =>
    rw [ends_constant_none]
    exact .of_log_eq rfl
  | some slot =>
    rw [ends_constant_some]
    exact (ReportsWhole.notedMisplaced (.of_log_eq rfl) literal.misplaced).trans (.of_log_eq rfl)

/-- Text between the statements reports what its constant reports. -/
theorem reports_inlineText (text : Constant) : (inlineText text).Reports := by
  intro context state
  rw [ends_inlineText]
  exact (ReportsWhole.notedMisplaced (.of_log_eq rfl) text.misplaced).trans (.of_log_eq rfl)

/-- Taking the slot of a result reports nothing. -/
theorem log_withResult : (state.withResult context).log = state.log := by
  cases context <;> rfl

/-- An operation on one operand reports what its operand reports. -/
theorem reports_unary {operand : Emitter} (kind : UnaryKind) (h : operand.Reports) :
    (unary kind operand).Reports := by
  intro context state
  rw [ends_unary]
  refine h.ends (.of_log_eq rfl) (fun ops state₁ hops => ?_) fun _ _ hfails => hfails
  exact hops.trans (.of_log_eq log_withResult)

/-- An operation on two operands reports what its operands report. -/
theorem reports_binary {left right : Emitter} (kind : BinaryKind) (hleft : left.Reports)
    (hright : right.Reports) : (binary kind left right).Reports := by
  intro context state
  rw [ends_binary]
  refine hleft.ends (.of_log_eq rfl) (fun ops state₁ hops => ?_) fun _ _ hfails => hfails
  refine hright.ends hops (fun more state₂ hmore => ?_) fun _ _ hfails => hfails
  exact hmore.trans (.of_log_eq log_withResult)

/-- An argument reports what its value reports. -/
theorem reports_argument {value : Emitter} (h : value.Reports) : (argument value).Reports := by
  intro context state
  rw [ends_argument]
  refine h.ends (.of_log_eq rfl) (fun ops state₁ hops => ?_) fun _ _ hfails => hfails
  cases context with
  | none => exact hops
  | some target => exact hops.trans (.of_log_eq rfl)

/-- A parameter reports what its default value reports. -/
theorem reports_parameter {default : Emitter} (declaration : Declaration) (h : default.Reports) :
    (parameter declaration default).Reports := by
  intro context state
  rw [ends_parameter]
  refine h.ends (.of_log_eq rfl) (fun ops state₁ hops => ?_) fun _ _ hfails => hfails
  cases context with
  | none => exact hops
  | some target => exact hops.trans (.of_log_eq rfl)

/-- A function is reported with its name, which can be described in full although it is read from a
slot. -/
theorem reports_function {body name params : Emitter} (hbody : body.Reports)
    (hname : name.Reports) (hparams : params.Reports) (hname' : name.Extends)
    (hparams' : params.Extends) : (function body name params).Reports := by
  intro context state
  rw [ends_function]
  refine hbody.ends (.of_log_eq rfl) (fun stmts state₁ hstmts => ?_) fun _ _ hfails => hfails
  -- From here on the heap grows without a context, and the slot of the name is the first one added.
  have hstart : Heap.Adds none state₁.heap [] state₁.heap := .start (by simp)
  have hnamed : Ends (name (some state₁.heap.next)) (state₁.added {})
      (fun ops after => Heap.Adds none state₁.heap ([state₁.heap.next] ++ lineSlots ops) after.heap)
      fun _ _ => True :=
    hname'.ends hstart.add_empty (by simp) (fun _ _ hops => hops) fun _ _ _ => trivial
  refine (hnamed.and (hname _ _)).mono ?_ fun e after hfails =>
    hstmts.trans (.trans (.of_log_eq rfl) hfails.2)
  rintro ops state₂ ⟨hops, hreports⟩
  have hcell : (Cell.ofValue (.array [])).value.slots = [] := by
    simp [Cell.ofValue, Value.slots, valueSlots]
  have hlisted : Ends (params (some state₂.heap.next)) (state₂.added (.ofValue (.array [])))
      (fun _ after => Heap.Grows none state₁.heap after.heap) fun _ _ => True :=
    hparams'.ends (hops.add hcell) (by simp) (fun _ _ hmore => hmore.grows) fun _ _ _ => trivial
  have hsofar : ReportsWhole state state₂ := hstmts.trans (.trans (.of_log_eq rfl) hreports)
  refine (hlisted.and (hparams _ _)).mono ?_ fun e after hfails =>
    hsofar.trans (.trans (.of_log_eq rfl) hfails.2)
  rintro more state₃ ⟨hgrows, hreports'⟩
  have hwhole : state₃.heap.Describes (state₃.heap.get state₁.heap.next).value :=
    hgrows.describes (Nat.le_refl _)
  have hafter : ReportsWhole state state₃ := hsofar.trans (.trans (.of_log_eq rfl) hreports')
  refine (ReportsWhole.noted hafter ?_).trans (.of_log_eq rfl)
  exact hwhole

/-- A guarded branch reports what its condition and its statements report. -/
theorem reports_guardedTo {branch : Branch} (target : List OpLine → OpLine → OpId)
    (hcond : branch.cond.Reports) (hstmts : branch.stmts.Reports) :
    Reports fun _ => guardedTo target branch := by
  intro context state
  rw [ends_guardedTo]
  refine hcond.ends (.of_log_eq rfl) (fun test state₁ htest => ?_) fun _ _ hfails => hfails
  refine hstmts.ends (htest.trans (.of_log_eq rfl)) (fun stmts state₂ hstmts => ?_)
    fun _ _ hfails => hfails
  exact hstmts.trans (.of_log_eq rfl)

/-- A loop that tests before each round reports what its two parts report. -/
theorem reports_whileLoop {loop : Branch} (hcond : loop.cond.Reports)
    (hstmts : loop.stmts.Reports) : (whileLoop loop).Reports := by
  rw [whileLoop_eq_guardedTo]
  exact reports_guardedTo _ hcond hstmts

/-- A loop that tests after each round reports what its two parts report. -/
theorem reports_doLoop {loop : Branch} (hcond : loop.cond.Reports)
    (hstmts : loop.stmts.Reports) : (doLoop loop).Reports := by
  intro context state
  rw [ends_doLoop]
  refine hstmts.ends (.of_log_eq rfl) (fun stmts state₁ hstmts => ?_) fun _ _ hfails => hfails
  refine hcond.ends hstmts (fun test state₂ htest => ?_) fun _ _ hfails => hfails
  exact htest.trans (.of_log_eq rfl)

/-- A conditional reports what its branches and the statements behind them report. -/
theorem reports_conditional {branches : List Branch} {otherwise : Emitter}
    (hcond : ∀ branch ∈ branches, branch.cond.Reports)
    (hstmts : ∀ branch ∈ branches, branch.stmts.Reports) (hotherwise : otherwise.Reports) :
    (conditional branches otherwise).Reports := by
  intro context state
  rw [ends_conditional]
  have hguarded : Reports fun _ => guardedAll state.handle branches :=
    guardedAll_induction Reports reports_skip reports_append state.handle fun branch hbranch =>
      reports_guardedTo _ (hcond branch hbranch) (hstmts branch hbranch)
  refine @Reports.ends _ none state state.advanced hguarded _ _ (.of_log_eq rfl)
    (fun ops state₁ hops => ?_) fun _ _ hfails => hfails
  exact hotherwise.ends hops (fun _ _ hmore => hmore) fun _ _ hfails => hfails

/-- Emitters one after another report in full if each of them does. -/
theorem reports_inTurn {emitters : List Emitter} (h : ∀ emitter ∈ emitters, emitter.Reports) :
    (inTurn emitters).Reports := by
  induction emitters with
  | nil => exact reports_skip
  | cons emitter rest ih =>
    obtain ⟨hemitter, hrest⟩ := List.forall_mem_cons.mp h
    exact reports_append hemitter (ih hrest)

end Emitter

/-! ## Trees -/

/-- What is compiled from a field of a node is put together from literals. -/
theorem Node.emitterOf_built (node : Node) (name : String) : Built (node.emitterOf name) := by
  unfold Node.emitterOf
  rcases node.field? name with _ | child
  · exact .skip
  · exact Child.emitter_built child

/-- Reporting in full passes from pieces of code to a tree made of them. -/
theorem gathers_reports : Gathers fun emitter _ => emitter.Reports where
  skip := reports_skip
  append := reports_append
  folded := reports_folded
  dropped := reports_dropped

/-- What a node reports can be put into words in full, if that is so of its fields. -/
theorem Node.emitter_reports_of_fields {node : Node}
    (h : ∀ owner name, (owner, name) ∈ node.compiledFields → (owner.emitterOf name).Reports) :
    node.emitter.Reports := by
  unfold Node.compiledFields at h
  rw [Node.emitter_eq]
  -- A kind is compiled by a descriptor or by a routine of its own; what is left is not supported.
  rcases hdescriptor : node.kind.descriptor? with _ | descriptor
  · simp only [hdescriptor] at h
    rcases hroutine : node.kind.routine? with _ | routine
    · exact reports_unsupported _
    · refine reports_noting trivial ?_
      simp only [hroutine] at h
      cases routine with
      | param => exact reports_parameter _ (h node _ (by simp))
      | function =>
        exact reports_function (h node _ (by simp)) (h node _ (by simp)) (h node _ (by simp))
          (node.emitterOf_built _).extends (node.emitterOf_built _).extends
      | conditional =>
        -- Only a conditional has the fields of other nodes compiled, those of its branches.
        have hbranches : ∀ branch ∈ (node :: node.nodes "elseifs").map Node.branch,
            branch.cond.Reports ∧ branch.stmts.Reports := by
          intro branch hbranch
          obtain ⟨owner, howner, rfl⟩ := List.mem_map.mp hbranch
          have hfield : ∀ name ∈ ["cond", "stmts"], (owner.emitterOf name).Reports :=
            fun name hname => h owner name (List.mem_append_left _
              (List.mem_flatMap.mpr ⟨owner, howner, by simpa using hname⟩))
          rw [Node.branch_eq]
          exact ⟨hfield _ (by simp), hfield _ (by simp)⟩
        refine reports_conditional (fun branch hbranch => (hbranches branch hbranch).1)
          (fun branch hbranch => (hbranches branch hbranch).2) (reports_inTurn ?_)
        intro emitter hemitter
        obtain ⟨owner, howner, rfl⟩ := List.mem_map.mp hemitter
        rw [Node.statements_eq]
        exact h owner _ (List.mem_append_right _ (List.mem_map_of_mem howner))
      | whileLoop =>
        rw [Node.branch_eq]
        exact reports_whileLoop (h node _ (by simp)) (h node _ (by simp))
      | doLoop =>
        rw [Node.branch_eq]
        exact reports_doLoop (h node _ (by simp)) (h node _ (by simp))
      | inlineHtml => exact reports_inlineText _
  · refine reports_noting trivial ?_
    simp only [hdescriptor] at h
    cases descriptor with
    | argument field => exact reports_argument (h node field (by simp))
    | literal field separator => exact reports_constant _
    | unary operation field => exact reports_unary _ (h node field (by simp))
    | binary operation left right =>
      exact reports_binary _ (h node left (by simp)) (h node right (by simp))

/-- What a compiler reports can be put into words in full. -/
theorem compile_reports (nodes : List Node) : (compile nodes).Reports :=
  compile_gathers gathers_reports nodes fun node _ =>
    Node.emitter_gathers gathers_reports (fun _ => Node.emitter_reports_of_fields) node

/-! ## Calls -/

/-- A compiler makes no cycles. A call on a heap without a cycle, in a context that is there or in
none, leaves a heap without a cycle, whether it succeeds or fails; no slot that it has added leads to
one that was there before; and the value of a function's name can be described in full whenever the
call reports it. -/
theorem compile_acyclic (nodes : List Node) (context : Option SlotId) (state after : CompileState)
    (result : Except CompileError (List OpLine))
    (hcontext : ∀ slot ∈ context, slot.index < state.heap.size) (hacyclic : state.heap.Acyclic)
    (hrun : (compile nodes context).run.run state = (result, after)) :
    after.heap.Acyclic ∧
      (∀ slot other, state.heap.Added after.heap slot →
        Relation.TransGen after.heap.Refers slot other → state.heap.Added after.heap other) ∧
      ∃ events, after.log = events ++ state.log ∧
        ∀ heap name body params, .functionCompiled heap name body params ∈ events →
          heap.Describes name := by
  have hextends := (compile_built nodes).extends context state hcontext
  have hreports := compile_reports nodes context state
  -- A call that fails has grown the heap and reported events as well.
  have hends : Heap.Grows context state.heap after.heap ∧ ReportsWhole state after := by
    cases result with
    | ok lines => exact ⟨(hextends.of_run_ok hrun).grows, hreports.of_run_ok hrun⟩
    | error e => exact ⟨hextends.of_run_error hrun, hreports.of_run_error hrun⟩
  obtain ⟨hgrows, events, hlog, hwhole⟩ := hends
  refine ⟨hgrows.acyclic hacyclic, fun slot other hslot hpath => ?_, events, hlog, ?_⟩
  -- A path only leads to newer slots, so it does not leave those that were added.
  · obtain ⟨hless, hlt⟩ := hgrows.newer_of_path hslot.1 hpath
    exact ⟨Nat.le_trans hslot.1 (Nat.le_of_lt hless), hlt⟩
  · exact fun heap name body params hevent => hwhole _ hevent

/-- A function whose name is a list of an argument, and a statement that cannot be compiled. -/
def listedNameNodes : List Node :=
  [⟨.stmtFunction, [],
      [("name", .list [.node ⟨.arg, [], [("value", .node (variableNode "n"))]⟩])]⟩,
    ⟨.other "Stmt_Goto", [], []⟩]

/-- The state behind the failure of `listedNameNodes` in the context that `refusedNodes` have left a
record in. -/
def listedNameState : CompileState :=
  ((compile listedNameNodes (some ⟨0⟩)).run.run refusedState).2

/-- A second failed call in one context, which refers to the slots of the record that the first has
left there: there is still no cycle, and the name of the function, an array of a slot, can be
described in full. -/
theorem compile_acyclic_after_failure :
    refusedState.heap.Refers ⟨0⟩ ⟨1⟩ ∧ listedNameState.heap.Acyclic ∧
      (∀ slot other, refusedState.heap.Added listedNameState.heap slot →
        Relation.TransGen listedNameState.heap.Refers slot other →
        refusedState.heap.Added listedNameState.heap other) ∧
      ∃ events, listedNameState.log = events ++ refusedState.log ∧
        ∀ heap name body params, .functionCompiled heap name body params ∈ events →
          heap.Describes name := by
  have hempty : (Heap.add {} {}).Acyclic :=
    (Heap.Grows.add {} (by simp [Value.slots])).acyclic Heap.acyclic_empty
  have hfirst : (compile refusedNodes (some ⟨0⟩)).run.run (CompileState.added {} {}) =
      (.error (.unsupported "Stmt_Goto"), refusedState) := rfl
  have hsecond : (compile listedNameNodes (some ⟨0⟩)).run.run refusedState =
      (.error (.unsupported "Stmt_Goto"), listedNameState) := Prod.ext rfl (by rw [listedNameState])
  have hthere : ∀ slot ∈ some (⟨0⟩ : SlotId), slot.index < (CompileState.added {} {}).heap.size := by
    rintro _ ⟨rfl⟩
    decide
  have hthere' : ∀ slot ∈ some (⟨0⟩ : SlotId), slot.index < refusedState.heap.size := by
    rintro _ ⟨rfl⟩
    decide
  -- The heap behind the first failure is that of a run, which keeps it acyclic.
  have hrefused := (compile_acyclic refusedNodes _ _ _ _ hthere hempty hfirst).1
  exact ⟨by decide, compile_acyclic listedNameNodes _ _ _ _ hthere' hrefused hsecond⟩

end Lowering
