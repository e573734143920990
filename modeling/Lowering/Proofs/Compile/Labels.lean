import Lowering.Proofs.Compile.Operands

/-!
# Where jumps of compiled code go

A label is an op-line that does nothing. Compiled code places one where a jump goes forward, and
nowhere else: a loop jumps back to whatever op-line comes first in it, which is never a label.

`Guided` says this of a list of op-lines by the positions of its jumps and of what they go to. A
list may have exits, labels that the code around it has to place behind it. The lists of a branch or
a loop are put together one op-line or one piece at a time: pieces follow each other
(`Guided.append`), a jump back goes to the first op-line (`Guided.jumpBack`), and placing the label
of an exit closes it (`Guided.close`), given that something jumps there. None of these needs the
handles to differ. Only `jumps_forward_to_labels` does, where the op-line that a jump goes to is the
one with its handle.
-/

namespace Lowering

open CompileM Emitter

/-! ## Guided lists -/

/-- A jump at one position may go to an op-line at another one: forward exactly if that is a label;
for a condition that fails it has to be forward, and for one that holds it must not be. -/
structure Op.MayReach (op : Op) (i j : Nat) (other : Op) : Prop where
  forward : i < j ↔ other = .noOp
  ifNot : ∀ cond target, op = .jumpIfNot cond target → i < j
  onlyIf : ∀ cond target, op = .jumpIf cond target → j ≤ i

/-- Among op-lines there is one with a handle that an op-line at a position may jump to. -/
def OpLine.Aims (line : OpLine) (lines : List OpLine) (i : Nat) (target : OpId) : Prop :=
  ∃ j op, lines[j]? = some ⟨target, op⟩ ∧ line.op.MayReach i j op

/-- Op-lines whose jumps go forward exactly to labels. A jump may also go to one of some exits,
labels that are placed behind the op-lines, unless its condition has to hold. Every label is jumped
to, and none comes first. -/
structure Guided (exits : List OpId) (lines : List OpLine) : Prop where
  jumps : ∀ (i : Nat) (line : OpLine) (target : OpId), lines[i]? = some line →
    line.op.target? = some target →
      (target ∈ exits ∧ ∀ cond other, line.op ≠ .jumpIf cond other) ∨ line.Aims lines i target
  labels : ∀ line ∈ lines, line.op = .noOp → ∃ other ∈ lines, other.op.target? = some line.id
  first : ∀ line ∈ lines.head?, line.op ≠ .noOp

/-- An op-line with a target is no label. -/
theorem Op.ne_noOp_of_target? {op : Op} {target : OpId} (h : op.target? = some target) :
    op ≠ .noOp := by
  rintro rfl
  cases h

/-- Whether a jump may reach an op-line depends on how far apart the two are, not on where they
stand. -/
theorem Op.MayReach.shift {op other : Op} {i j : Nat} (h : op.MayReach i j other) (offset : Nat) :
    op.MayReach (offset + i) (offset + j) other where
  forward := by rw [Nat.add_lt_add_iff_left]; exact h.forward
  ifNot := fun cond target hop => Nat.add_lt_add_left (h.ifNot cond target hop) offset
  onlyIf := fun cond target hop => Nat.add_le_add_left (h.onlyIf cond target hop) offset

namespace OpLine.Aims

variable {line : OpLine} {lines more : List OpLine} {i : Nat} {target : OpId}

/-- What is aimed at stays where it is when op-lines are added behind. -/
theorem append_left (h : line.Aims lines i target) : line.Aims (lines ++ more) i target := by
  obtain ⟨j, op, hj, hreach⟩ := h
  refine ⟨j, op, ?_, hreach⟩
  rw [List.getElem?_append_left (List.getElem?_eq_some_iff.mp hj).1, hj]

/-- With op-lines added in front, both positions move on alike. -/
theorem append_right (h : line.Aims more i target) :
    line.Aims (lines ++ more) (lines.length + i) target := by
  obtain ⟨j, op, hj, hreach⟩ := h
  refine ⟨lines.length + j, op, ?_, hreach.shift lines.length⟩
  rw [List.getElem?_append_right (Nat.le_add_right _ _), Nat.add_sub_cancel_left, hj]

end OpLine.Aims

namespace Guided

variable {exits exits' : List OpId} {lines more : List OpLine}

/-- Without op-lines there are no jumps and no labels. -/
theorem nil : Guided exits [] :=
  ⟨by simp, by simp, by simp⟩

/-- More exits may be jumped to as well. -/
theorem mono (h : Guided exits lines) (hexits : exits ⊆ exits') : Guided exits' lines where
  jumps := fun i line target hline htarget =>
    (h.jumps i line target hline htarget).imp_left (And.imp_left fun hmem => hexits hmem)
  labels := h.labels
  first := h.first

/-- Guided op-lines one after another are guided: no jump leaves the one for the other. -/
theorem append (h : Guided exits lines) (h' : Guided exits more) :
    Guided exits (lines ++ more) where
  jumps := by
    intro i line target hline htarget
    -- A jump stays in its own part, and positions of the second part are counted from its start.
    by_cases hi : i < lines.length
    · rw [List.getElem?_append_left hi] at hline
      exact (h.jumps i line target hline htarget).imp_right .append_left
    · obtain ⟨k, rfl⟩ := Nat.exists_eq_add_of_le (Nat.le_of_not_lt hi)
      rw [List.getElem?_append_right (Nat.le_of_not_lt hi), Nat.add_sub_cancel_left] at hline
      exact (h'.jumps k line target hline htarget).imp_right .append_right
  labels := by
    refine List.forall_mem_append.mpr ⟨fun line hline hop => ?_, fun line hline hop => ?_⟩
    · obtain ⟨other, hother, htarget⟩ := h.labels line hline hop
      exact ⟨other, List.mem_append_left more hother, htarget⟩
    · obtain ⟨other, hother, htarget⟩ := h'.labels line hline hop
      exact ⟨other, List.mem_append_right lines hother, htarget⟩
  first := by
    cases lines with
    | nil => exact h'.first
    | cons line rest => exact h.first

/-- One more op-line. It may be the label of exits, which are no longer open then. -/
theorem snoc {line : OpLine} (h : Guided exits' lines)
    (hexits : ∀ target ∈ exits', target ∈ exits ∨ line = ⟨target, .noOp⟩)
    (hjump : ∀ target, line.op.target? = some target →
      (target ∈ exits ∧ ∀ cond other, line.op ≠ .jumpIf cond other) ∨
        line.Aims (lines ++ [line]) lines.length target)
    (hlabel : line.op = .noOp → ∃ other ∈ lines, other.op.target? = some line.id) :
    Guided exits (lines ++ [line]) where
  jumps := by
    intro i other target hother htarget
    -- An earlier jump is as before, unless the new line closes the exit that it was waiting for.
    by_cases hi : i < lines.length
    · rw [List.getElem?_append_left hi] at hother
      rcases h.jumps i other target hother htarget with ⟨hmem, hop⟩ | haims
      · rcases hexits target hmem with hmem | rfl
        · exact Or.inl ⟨hmem, hop⟩
        · -- The label stands behind all op-lines, so the jump is forward.
          refine Or.inr ⟨lines.length, .noOp, by simp, ⟨by simpa using hi, fun _ _ _ => hi, ?_⟩⟩
          exact fun cond next heq => absurd heq (hop cond next)
      · exact Or.inr haims.append_left
    · obtain ⟨hlt, rfl⟩ := List.getElem?_eq_some_iff.mp hother
      obtain rfl : i = lines.length := by
        rw [List.length_append, List.length_singleton] at hlt
        omega
      rw [List.getElem_concat_length rfl] at htarget ⊢
      exact hjump target htarget
  labels := by
    refine List.forall_mem_append.mpr ⟨fun other hother hop => ?_, ?_⟩
    · obtain ⟨jump, hjump, htarget⟩ := h.labels other hother hop
      exact ⟨jump, List.mem_append_left _ hjump, htarget⟩
    · refine List.forall_mem_singleton.mpr fun hop => ?_
      obtain ⟨jump, hjump, htarget⟩ := hlabel hop
      exact ⟨jump, List.mem_append_left _ hjump, htarget⟩
  first := by
    cases lines with
    -- A label is placed behind the jump to it, so it is not the first line.
    | nil =>
      rintro _ ⟨⟩ hop
      obtain ⟨jump, hjump, -⟩ := hlabel hop
      cases hjump
    | cons line rest => exact h.first

/-- One more op-line that is neither a jump nor a label. -/
theorem single {op : Op} (h : Guided exits lines) (id : OpId) (hjump : op.target? = none)
    (hlabel : op ≠ .noOp) : Guided exits (lines ++ [⟨id, op⟩]) := by
  refine h.snoc (fun target hmem => Or.inl hmem) (fun target htarget => ?_) fun hop =>
    absurd hop hlabel
  rw [hjump] at htarget
  cases htarget

/-- A jump to an exit. -/
theorem jump {line : OpLine} {target : OpId} (h : Guided exits lines)
    (htarget : line.op.target? = some target) (hexit : target ∈ exits)
    (hop : ∀ cond other, line.op ≠ .jumpIf cond other) : Guided exits (lines ++ [line]) := by
  refine h.snoc (fun other hmem => Or.inl hmem) (fun other hother => ?_) fun hnoOp =>
    absurd hnoOp (Op.ne_noOp_of_target? htarget)
  obtain rfl : target = other := Option.some.inj (htarget.symm.trans hother)
  exact Or.inl ⟨hexit, hop⟩

/-- A jump back to the first op-line. -/
theorem jumpBack {first : OpLine} {rest : List OpLine} {op : Op} (h : Guided exits (first :: rest))
    (id : OpId) (htarget : op.target? = some first.id)
    (hop : ∀ cond other, op ≠ .jumpIfNot cond other) :
    Guided exits (first :: rest ++ [⟨id, op⟩]) := by
  refine h.snoc (fun other hmem => Or.inl hmem) (fun other hother => ?_) fun hnoOp =>
    absurd hnoOp (Op.ne_noOp_of_target? htarget)
  obtain rfl : first.id = other := Option.some.inj (htarget.symm.trans hother)
  have hfirst : first.op ≠ .noOp := h.first first rfl
  refine Or.inr ⟨0, first.op, by cases first; rfl, ⟨by simpa using hfirst, ?_, by simp⟩⟩
  exact fun cond next heq => absurd heq (hop cond next)

/-- A jump onto itself. -/
theorem jumpSelf (id : OpId) (cond : SlotId) : Guided exits [⟨id, .jumpIf cond id⟩] := by
  refine (nil : Guided exits []).snoc (by simp) (fun target htarget => ?_) (by simp)
  obtain rfl : id = target := Option.some.inj htarget
  exact Or.inr ⟨0, .jumpIf cond id, rfl, by simp, by simp, by simp⟩

/-- The label of an exit is placed behind op-lines of which one jumps there. -/
theorem close {exit : OpId} (h : Guided (exit :: exits) lines)
    (hexit : ∃ line ∈ lines, line.op.target? = some exit) :
    Guided exits (lines ++ [⟨exit, .noOp⟩]) := by
  refine h.snoc (fun target hmem => ?_) (by simp [Op.target?]) fun _ => hexit
  rcases List.mem_cons.mp hmem with rfl | hmem
  · exact Or.inr rfl
  · exact Or.inl hmem

end Guided

/-! ## Pieces of code -/

/-- What was made from one state to another is guided: the op-lines in hand, up to some exits, the
bodies inside them, and the lists that were stored in slots. -/
structure Charted (before : CompileState) (exits : List OpId) (lines : List OpLine)
    (after : CompileState) : Prop where
  guided : Guided exits lines
  bodies : ∀ body ∈ lineBodies lines, Guided [] body
  stored : ∀ slot, ∃ lists, Stored before after slot lists ∧ ∀ body ∈ lists, Guided [] body

namespace Charted

variable {before between after : CompileState} {exits exits' : List OpId}
  {lines more : List OpLine}

/-- Nothing has been made at the start. -/
theorem start (state : CompileState) : Charted state [] [] state :=
  ⟨.nil, by simp [lineBodies], fun _ => ⟨[], Or.inr (List.append_nil _).symm, by simp⟩⟩

/-- What is made in two steps is guided if each step is. -/
theorem append (h : Charted before exits lines between) (h' : Charted between exits more after) :
    Charted before exits (lines ++ more) after where
  guided := h.guided.append h'.guided
  bodies := by
    rw [lineBodies_append]
    exact List.forall_mem_append.mpr ⟨h.bodies, h'.bodies⟩
  stored := by
    intro slot
    obtain ⟨lists, hstored, hlists⟩ := h.stored slot
    obtain ⟨lists', hstored', hlists'⟩ := h'.stored slot
    rcases hstored.trans hstored' with hall | hall
    · exact ⟨lists', hall, hlists'⟩
    · exact ⟨lists ++ lists', hall, List.forall_mem_append.mpr ⟨hlists, hlists'⟩⟩

/-- More exits may be jumped to as well. -/
theorem mono (h : Charted before exits lines after) (hexits : exits ⊆ exits') :
    Charted before exits' lines after :=
  ⟨h.guided.mono hexits, h.bodies, h.stored⟩

/-- Op-lines in hand are dropped. -/
theorem drop (h : Charted before exits lines after) : Charted before exits' [] after :=
  ⟨.nil, by simp [lineBodies], h.stored⟩

/-- Slots lose op-lines at most. -/
theorem quiet (h : Charted before exits lines between)
    (hheld : ∀ slot, after.heap.sequencesOf slot = [] ∨
      after.heap.sequencesOf slot = between.heap.sequencesOf slot) :
    Charted before exits lines after := by
  have hstill : Charted between exits [] after := by
    refine ⟨.nil, by simp [lineBodies], fun slot => ⟨[], ?_, by simp⟩⟩
    exact (hheld slot).imp_right fun heq => by rw [heq, List.append_nil]
  have hboth := h.append hstill
  rwa [List.append_nil] at hboth

/-- An event makes no op-lines. -/
theorem noted (h : Charted before exits lines between) (event : Event) :
    Charted before exits lines (between.noted event) :=
  ⟨h.guided, h.bodies, h.stored⟩

/-- Handing out a handle makes no op-lines. -/
theorem advanced (h : Charted before exits lines between) :
    Charted before exits lines between.advanced :=
  ⟨h.guided, h.bodies, h.stored⟩

/-- Reporting misplaced nodes makes no op-lines. -/
theorem notedMisplaced (h : Charted before exits lines between) (kinds : List NodeKind) :
    Charted before exits lines (between.notedMisplaced kinds) :=
  h.quiet (by simp)

/-- A slot without op-lines is added. -/
theorem added (h : Charted before exits lines between) {cell : Cell}
    (hcell : cell.value.sequences = []) : Charted before exits lines (between.added cell) :=
  h.quiet (Heap.sequencesOf_add _ hcell)

/-- An empty slot has no op-lines. -/
theorem added_empty (h : Charted before exits lines between) :
    Charted before exits lines (between.added {}) :=
  h.added (by simp [Value.sequences])

/-- Finding the slot to write makes no op-lines. -/
theorem withResult (h : Charted before exits lines between) (context : Option SlotId) :
    Charted before exits lines (between.withResult context) := by
  cases context with
  | none => exact h.added_empty
  | some _ => exact h

/-- A slot is written with something that has the op-lines that it held, or none. -/
theorem written (h : Charted before exits lines between) {target : SlotId} {change : Cell → Cell}
    (hchange : ∀ cell, (change cell).value.sequences = [] ∨
      (change cell).value.sequences = cell.value.sequences) :
    Charted before exits lines (between.written target change) :=
  h.quiet (Heap.sequencesOf_modify _ target hchange)

/-- Op-lines without exits are stored in a record. -/
theorem store (record : ParamRecord) (h : Charted before [] record.ops after) (target : SlotId) :
    Charted before [] [] (after.written target (.push (.param record))) := by
  have hrecord : Charted after [] [] (after.written target (.push (.param record))) := by
    refine ⟨.nil, by simp [lineBodies], fun slot => ?_⟩
    obtain ⟨lists, hstored, hsub⟩ := Stored.exists_push after record target slot
    refine ⟨lists, hstored, fun body hbody => ?_⟩
    have hmem : body ∈ record.ops :: lineBodies record.ops := hsub hbody
    exact List.forall_mem_cons.mpr ⟨h.guided, h.bodies⟩ body hmem
  exact h.drop.append hrecord

/-- Another op-line is in hand. -/
theorem snoc {line : OpLine} (h : Charted before exits lines after)
    (hguided : Guided exits' (lines ++ [line]))
    (hbodies : ∀ body ∈ line.op.bodies, Guided [] body) :
    Charted before exits' (lines ++ [line]) after := by
  refine ⟨hguided, ?_, h.stored⟩
  rw [lineBodies_append, lineBodies_cons, lineBodies, List.append_nil]
  exact List.forall_mem_append.mpr ⟨h.bodies, hbodies⟩

/-- Another op-line is in hand that is neither a jump nor a label. -/
theorem single (h : Charted before exits lines after) {op : Op} (id : OpId)
    (hjump : op.target? = none) (hlabel : op ≠ .noOp)
    (hbodies : ∀ body ∈ op.bodies, Guided [] body) :
    Charted before exits (lines ++ [⟨id, op⟩]) after :=
  h.snoc (h.guided.single id hjump hlabel) hbodies

end Charted

/-- What an emitter makes is guided, and so is what it has stored when it fails. -/
def Emitter.Guides (emitter : Emitter) : Prop :=
  ∀ context state, Ends (emitter context) state (Charted state []) fun _ => Charted state [] []

/-- An emitter that runs behind other op-lines. -/
theorem Emitter.Guides.ends {emitter : Emitter} (h : emitter.Guides) {context : Option SlotId}
    {before state : CompileState} {exits : List OpId} {lines : List OpLine}
    {done : List OpLine → CompileState → Prop} {failed : CompileError → CompileState → Prop}
    (hlines : Charted before exits lines state)
    (hdone : ∀ ops after, Charted before exits (lines ++ ops) after → done ops after)
    (hfailed : ∀ e after, Charted before [] [] after → failed e after) :
    Ends (emitter context) state done failed := by
  refine (h context state).mono (fun ops after hops => ?_) fun e after hnone => ?_
  · exact hdone ops after (hlines.append (hops.mono (List.nil_subset exits)))
  · exact hfailed e after (hlines.drop.append hnone)

namespace Emitter

/-- No code has no jumps. -/
theorem guides_skip : skip.Guides :=
  fun _ state => ends_skip.mpr (.start state)

/-- One piece and then another have no jumps between them. -/
theorem guides_append {first second : Emitter} (hfirst : first.Guides) (hsecond : second.Guides) :
    (append first second).Guides := by
  intro context state
  rw [ends_append]
  refine hfirst.ends (.start state) (fun ops state₁ hops => ?_) fun _ _ hfails => hfails
  exact hsecond.ends hops (fun more state₂ hmore => hmore) fun _ _ hfails => hfails

/-- An event in front makes no op-lines. -/
theorem guides_noting {emitter : Emitter} (event : Event) (h : emitter.Guides) :
    (noting event emitter).Guides := by
  intro context state
  rw [ends_noting]
  exact h.ends ((Charted.start state).noted event) (fun _ _ hops => hops) fun _ _ hfails => hfails

/-- A node that cannot be compiled makes no op-lines. -/
theorem guides_unsupported (kind : NodeKind) : (unsupported kind).Guides :=
  fun _ state => (ends_unsupported kind).mpr (.start state)

/-- A literal without effect makes no op-lines. -/
theorem guides_dropped (literal : Scalar) : (dropped literal).Guides := by
  intro context state
  rw [ends_dropped]
  exact (Charted.start state).noted _

/-- A literal stores no op-lines. -/
theorem guides_folded (literal : Scalar) : (folded literal).Guides := by
  intro context state
  cases context with
  | none =>
    rw [ends_folded_none]
    exact (Charted.start state).noted _
  | some slot =>
    rw [ends_folded_some]
    refine (Charted.start state).written fun _ => Or.inl ?_
    exact (Territory.slots_of_isLiteral _ literal.toValue_isLiteral).2

/-- A constant stores no op-lines. -/
theorem guides_constant {literal : Constant} (hliteral : literal.value.IsLiteral) :
    (constant literal).Guides := by
  intro context state
  cases context with
  | none =>
    rw [ends_constant_none]
    exact .start state
  | some slot =>
    rw [ends_constant_some]
    refine ((Charted.start state).notedMisplaced _).written fun _ => Or.inl ?_
    exact (Territory.slots_of_isLiteral _ hliteral).2

/-- An operation on one operand has no jumps beside those of its operand. -/
theorem guides_unary {operand : Emitter} (kind : UnaryKind) (h : operand.Guides) :
    (unary kind operand).Guides := by
  intro context state
  rw [ends_unary]
  refine h.ends (Charted.start state).added_empty (fun ops state₁ hops => ?_)
    fun _ _ hfails => hfails
  exact (hops.withResult context).advanced.single _ rfl (by simp) (by simp [Op.bodies])

/-- An operation on two operands has no jumps beside those of its operands. -/
theorem guides_binary {left right : Emitter} (kind : BinaryKind) (hleft : left.Guides)
    (hright : right.Guides) : (binary kind left right).Guides := by
  intro context state
  rw [ends_binary]
  refine hleft.ends (Charted.start state).added_empty.added_empty (fun ops state₁ hops => ?_)
    fun _ _ hfails => hfails
  refine hright.ends hops (fun more state₂ hmore => ?_) fun _ _ hfails => hfails
  exact (hmore.withResult context).advanced.single _ rfl (by simp) (by simp [Op.bodies])

/-- An argument has the jumps of its value. -/
theorem guides_argument {value : Emitter} (h : value.Guides) : (argument value).Guides := by
  intro context state
  rw [ends_argument]
  refine h.ends (Charted.start state).added_empty (fun ops state₁ hops => ?_)
    fun _ _ hfails => hfails
  cases context with
  | none => exact hops
  | some target =>
    refine hops.written fun cell => ?_
    simpa [Value.sequences] using Cell.sequences_push (.slot state.heap.next) cell

/-- Text between the statements has no jumps. -/
theorem guides_inlineText {text : Constant} (htext : text.value.IsLiteral) :
    (inlineText text).Guides := by
  intro context state
  rw [ends_inlineText]
  have hcell : (Cell.ofValue text.value).value.sequences = [] :=
    (Territory.slots_of_isLiteral _ htext).2
  have hnone : Charted state [] [] _ :=
    (((Charted.start state).notedMisplaced text.misplaced).added hcell).added_empty.advanced
  exact hnone.single _ rfl (by simp) (by simp [Op.bodies])

/-- A parameter stores the op-lines of its default value, which are guided on their own. -/
theorem guides_parameter {default : Emitter} (declaration : Declaration) (h : default.Guides) :
    (parameter declaration default).Guides := by
  intro context state
  rw [ends_parameter]
  refine h.ends (Charted.start state).added_empty (fun ops state₁ hops => ?_)
    fun _ _ hfails => hfails
  cases context with
  | none => exact hops.drop
  | some target =>
    exact Charted.store ⟨declaration.name, state.heap.next, ops, declaration.byRef,
      declaration.typeHint⟩ hops target

/-- A function has the op-lines of its body inside, which are guided on their own. -/
theorem guides_function {body name params : Emitter} (hbody : body.Guides) (hname : name.Guides)
    (hparams : params.Guides) : (function body name params).Guides := by
  intro context state
  rw [ends_function]
  refine hbody.ends (.start state) (fun stmts state₁ hstmts => ?_) fun _ _ hfails => hfails
  have hbodies : ∀ lines ∈ stmts :: lineBodies stmts, Guided [] lines :=
    List.forall_mem_cons.mpr ⟨hstmts.guided, hstmts.bodies⟩
  have hnone : Charted state [] [] (state₁.added {}) := hstmts.drop.added_empty
  refine hname.ends hnone (fun ops state₂ hops => ?_) fun _ _ hfails => hfails
  have hcell : (Cell.ofValue (.array [])).value.sequences = [] := by
    simp [Cell.ofValue, Value.sequences, valueSequences]
  refine hparams.ends (hops.added hcell) (fun more state₃ hmore => ?_) fun _ _ hfails => hfails
  exact (hmore.noted _).advanced.single _ rfl (by simp) (by simpa [Op.bodies] using hbodies)

/-- The code of a branch and of a loop that tests first: the jump behind the statements goes to an
exit, or back to where the code begins. -/
theorem ends_guardedTo_of_guides {branch : Branch} {target : List OpLine → OpLine → OpId}
    {exits : List OpId} (htarget : ∀ test guard,
      target test guard ∈ exits ∨ target test guard = entry test guard.id)
    (hcond : branch.cond.Guides) (hstmts : branch.stmts.Guides) (state : CompileState) :
    Ends (guardedTo target branch) state
      (fun ops after => Charted state exits ops after ∧
        ∃ test guard, ∃ line ∈ ops, line.op.target? = some (target test guard))
      fun _ => Charted state [] [] := by
  rw [ends_guardedTo]
  refine hcond.ends (Charted.start state).added_empty (fun test state₁ htest => ?_)
    fun _ _ hfails => hfails
  generalize hguard :
    (⟨state₁.advanced.handle, .jumpIfNot state.heap.next state₁.handle⟩ : OpLine) = guard
  -- Until the label is placed, the jump past the statements goes to an exit.
  have hpast : guard.op.target? = some state₁.handle := by rw [← hguard]; rfl
  have hopen :
      Charted state (state₁.handle :: exits) (test ++ [guard]) state₁.advanced.advanced := by
    refine htest.advanced.advanced.snoc ?_ (by rw [← hguard]; simp [Op.bodies])
    refine (htest.guided.mono (List.nil_subset _)).jump hpast List.mem_cons_self ?_
    rw [← hguard]
    simp
  refine hstmts.ends hopen (fun stmts state₂ hround => ?_) fun _ _ hfails => hfails
  have hleave : Guided (state₁.handle :: exits)
      (test ++ [guard] ++ stmts ++ [⟨state₂.handle, .jumpTo (target test guard)⟩]) := by
    rcases htarget test guard with hexit | hback
    · exact hround.guided.jump rfl (List.mem_cons_of_mem _ hexit) (by simp)
    · -- The code begins with the test, or with the guard where that is empty.
      rw [hback]
      cases test with
      | nil => exact hround.guided.jumpBack _ rfl (by simp)
      | cons first rest => exact hround.guided.jumpBack _ rfl (by simp)
  have hround' := (hround.snoc hleave (by simp [Op.bodies])).advanced
  have hclosed := hround'.snoc (hleave.close ⟨guard, by simp, hpast⟩) (by simp [Op.bodies])
  refine ⟨?_, test, guard, ⟨state₂.handle, .jumpTo (target test guard)⟩, by simp, rfl⟩
  rwa [List.append_assoc, List.singleton_append] at hclosed

/-- A loop that tests first jumps back to its test and forward to its label. -/
theorem guides_whileLoop {loop : Branch} (hcond : loop.cond.Guides) (hstmts : loop.stmts.Guides) :
    (whileLoop loop).Guides := by
  intro context state
  rw [whileLoop_eq_guardedTo]
  refine (ends_guardedTo_of_guides (fun _ _ => Or.inr rfl) hcond hstmts state).mono
    (fun ops after h => h.1) fun _ _ hfails => hfails

/-- A loop that tests last jumps back to its first op-line, which is no label. -/
theorem guides_doLoop {loop : Branch} (hcond : loop.cond.Guides) (hstmts : loop.stmts.Guides) :
    (doLoop loop).Guides := by
  intro context state
  rw [ends_doLoop]
  refine hstmts.ends (Charted.start state).added_empty (fun stmts state₁ hround => ?_)
    fun _ _ hfails => hfails
  refine hcond.ends hround (fun test state₂ hround => ?_) fun _ _ hfails => hfails
  rw [List.nil_append] at hround
  refine hround.advanced.snoc ?_ (by simp [Op.bodies])
  generalize stmts ++ test = round at hround ⊢
  cases round with
  | nil => exact .jumpSelf _ _
  | cons first rest => exact hround.guided.jumpBack _ rfl (by simp)

/-- Branches one after another go to the same exit. -/
theorem ends_guardedAll_of_guides (exit : OpId) {branches : List Branch}
    (hcond : ∀ branch ∈ branches, branch.cond.Guides)
    (hstmts : ∀ branch ∈ branches, branch.stmts.Guides) (state : CompileState) :
    Ends (guardedAll exit branches) state
      (fun ops after => Charted state [exit] ops after ∧
        (branches ≠ [] → ∃ line ∈ ops, line.op.target? = some exit))
      fun _ => Charted state [] [] := by
  -- The exit stays open along all branches: the label for it follows behind the last one.
  induction branches generalizing state with
  | nil => exact ⟨(Charted.start state).mono (List.nil_subset [exit]), by simp⟩
  | cons branch rest ih =>
    obtain ⟨hbranch, hcond⟩ := List.forall_mem_cons.mp hcond
    obtain ⟨hbranch', hstmts⟩ := List.forall_mem_cons.mp hstmts
    rw [ends_guardedAll_cons, guarded_eq_guardedTo]
    refine (ends_guardedTo_of_guides (fun _ _ => Or.inl (List.mem_singleton_self exit)) hbranch
      hbranch' state).mono (fun ops state₁ hops => ?_) fun _ _ hfails => hfails
    obtain ⟨hops, -, -, line, hline, htarget⟩ := hops
    refine (ih hcond hstmts state₁).mono (fun more state₂ hmore => ?_)
      fun _ _ hfails => hops.drop.append hfails
    exact ⟨hops.append hmore.1, fun _ => ⟨line, List.mem_append_left more hline, htarget⟩⟩

/-- A conditional jumps to its exit from every branch, and it has a branch. -/
theorem guides_conditional {first : Branch} {rest : List Branch} {otherwise : Emitter}
    (hcond : ∀ branch ∈ first :: rest, branch.cond.Guides)
    (hstmts : ∀ branch ∈ first :: rest, branch.stmts.Guides) (hotherwise : otherwise.Guides) :
    (conditional (first :: rest) otherwise).Guides := by
  intro context state
  rw [ends_conditional]
  have hbegin : Charted state [] [] state.advanced := (Charted.start state).advanced
  refine (ends_guardedAll_of_guides state.handle hcond hstmts state.advanced).mono
    (fun ops state₁ hops => ?_) fun _ _ hfails => hbegin.append hfails
  obtain ⟨hops, hexit⟩ := hops
  obtain ⟨line, hline, htarget⟩ := hexit (List.cons_ne_nil first rest)
  have hbranches : Charted state [state.handle] ops state₁ :=
    (hbegin.mono (List.nil_subset _)).append hops
  refine hotherwise.ends hbranches (fun more state₂ hmore => ?_) fun _ _ hfails => hfails
  exact hmore.snoc (hmore.guided.close ⟨line, List.mem_append_left more hline, htarget⟩)
    (by simp [Op.bodies])

/-- What every emitter that is built makes is guided. -/
theorem Built.guides {emitter : Emitter} (h : Built emitter) : emitter.Guides := by
  induction h with
  | skip => exact guides_skip
  | append _ _ hfirst hsecond => exact guides_append hfirst hsecond
  | noting event _ h => exact guides_noting event h
  | unsupported kind => exact guides_unsupported kind
  | dropped literal => exact guides_dropped literal
  | folded literal => exact guides_folded literal
  | constant hliteral => exact guides_constant hliteral
  | unary kind _ h => exact guides_unary kind h
  | binary kind _ _ hleft hright => exact guides_binary kind hleft hright
  | argument _ h => exact guides_argument h
  | inlineText htext => exact guides_inlineText htext
  | parameter declaration _ h => exact guides_parameter declaration h
  | function _ _ _ hbody hname hparams => exact guides_function hbody hname hparams
  | conditional _ _ _ hcond hstmts hotherwise => exact guides_conditional hcond hstmts hotherwise
  | whileLoop _ _ hcond hstmts => exact guides_whileLoop hcond hstmts
  | doLoop _ _ hcond hstmts => exact guides_doLoop hcond hstmts

end Emitter


/-! ## Calls of a compiler -/

/-- A call has made a list of op-lines: it returns it, at the top level or inside a function, or it
has put it into a slot where it did not stand before. -/
inductive Call.MakesList (call : Call) (lines : List OpLine) : Prop where
  | returned {i : Nat} : call.returned[i]? = some lines → MakesList call lines
  | stored {slot : SlotId} {i : Nat} : (call.after.heap.sequencesOf slot)[i]? = some lines →
      (call.before.heap.sequencesOf slot)[i]? ≠ some lines → MakesList call lines

namespace Call.MakesList

variable {call : Call} {lines : List OpLine}

/-- Every list that a call has made is guided. -/
theorem guided (h : call.MakesList lines) : Guided [] lines := by
  have hends := (compile_built call.nodes).guides call.context call.before
  have hcharted : (∀ lines ∈ call.returned, Guided [] lines) ∧
      Charted call.before [] [] call.after := by
    unfold Call.returned Call.after
    rcases hrun : (compile call.nodes call.context).run.run call.before with ⟨e | ops, state⟩
    · exact ⟨by simp, hends.of_run_error hrun⟩
    · have hops := hends.of_run_ok hrun
      exact ⟨List.forall_mem_cons.mpr ⟨hops.guided, hops.bodies⟩, hops.drop⟩
  cases h with
  | returned hi => exact hcharted.1 lines (List.mem_of_getElem? hi)
  | @stored slot i hi hnew =>
    obtain ⟨lists, hstored, hlists⟩ := hcharted.2.stored slot
    obtain ⟨offset, hoffset⟩ := hstored.exists_offset
    exact hlists lines (List.mem_of_getElem? (hoffset i lines hi hnew).2)

/-- A list that a call has made has a handle at one position only. -/
theorem line_unique (h : call.MakesList lines) (hissued : call.after.issued ≤ 2 ^ 32) {j j' : Nat}
    {line line' : OpLine} (hj : lines[j]? = some line) (hj' : lines[j']? = some line')
    (heq : line.id = line'.id) : j = j' := by
  cases h with
  | returned hi =>
    have hposition := position_eq_of_makes hissued (.returned hi hj) (.returned hi hj') heq
    exact (Position.returned.inj hposition).2
  | stored hi hnew =>
    have hposition := position_eq_of_makes hissued (.stored hi hnew hj) (.stored hi hnew hj') heq
    exact (Position.stored.inj hposition).2.2

end Call.MakesList

/-- Jumps of compiled code go forward exactly to labels. In every list of op-lines that a call
makes, at the top level of what it returns, inside functions and in the records that it stores: a
jump goes to an op-line of the list, and that stands behind the jump if and only if it does nothing;
a jump on a condition that fails goes forward, and one on a condition that holds to itself or back;
an op-line that does nothing is one that a jump of the list goes to, and the first op-line is none.
-/
theorem jumps_forward_to_labels (call : Call) (lines : List OpLine)
    (hissued : call.after.issued ≤ 2 ^ 32) (hlines : call.MakesList lines) :
    (∀ (i : Nat) (line : OpLine) (target : OpId), lines[i]? = some line →
      line.op.target? = some target →
        (∃ other ∈ lines, other.id = target) ∧
        ∀ (j : Nat) (other : OpLine), lines[j]? = some other → other.id = target →
          (i < j ↔ other.op = .noOp) ∧
          (∀ cond, line.op = .jumpIfNot cond target → i < j) ∧
          ∀ cond, line.op = .jumpIf cond target → j ≤ i) ∧
      (∀ line ∈ lines, line.op = .noOp → ∃ other ∈ lines, other.op.target? = some line.id) ∧
      ∀ line ∈ lines.head?, line.op ≠ .noOp := by
  have hguided := hlines.guided
  refine ⟨fun i line target hline htarget => ?_, hguided.labels, hguided.first⟩
  rcases hguided.jumps i line target hline htarget with ⟨hexit, -⟩ | ⟨j, op, hj, hreach⟩
  -- A list that is complete has no open exit.
  · cases hexit
  refine ⟨⟨_, List.mem_of_getElem? hj, rfl⟩, fun j' other hj' hid => ?_⟩
  -- Handles are unique in a list, so the target can only be this line.
  obtain rfl : j' = j := hlines.line_unique hissued hj' hj hid
  obtain rfl : other = ⟨target, op⟩ := Option.some.inj (hj'.symm.trans hj)
  exact ⟨hreach.forward, fun cond => hreach.ifNot cond target,
    fun cond => hreach.onlyIf cond target⟩

/-- A loop that begins with another one, and a function with a conditional in its body and in the
default of its parameter. -/
def nestedJumps : List Node :=
  [⟨.stmtDo, [], [("cond", .node (variableNode "c")),
      ("stmts", .list [.node ⟨.stmtWhile, [], [("cond", .node (variableNode "x"))]⟩])]⟩,
    ⟨.stmtFunction, [], [("name", .scalar (.string "f")),
      ("params", .list [.node ⟨.param, [], [("name", .scalar (.string "p")),
        ("default", .node ⟨.stmtIf, [], [("cond", .scalar (.bool true))]⟩)]⟩]),
      ("stmts", .list [.node ⟨.stmtIf, [], [("cond", .node (variableNode "y")),
        ("elseifs", .list [.node ⟨.stmtElseIf, [], [("cond", .node (variableNode "z")),
          ("stmts", .list [.node ⟨.stmtDo, [], []⟩])]⟩])]⟩])]⟩]

/-- A call that compiles `nestedJumps` and hands out the last handles that there are. -/
def lastHandles : Call :=
  ⟨nestedJumps, none, { issued := 2 ^ 32 - 21 }⟩

/-- What `lastHandles` makes is a list at the top level, one in the body of a function and one in
the record of a parameter, and jumps go forward exactly to labels in all of them. -/
theorem jumps_forward_to_labels_nested :
    (lastHandles.after.issued ≤ 2 ^ 32 ∧
      lastHandles.returned.map (List.map fun line => line.op.mnemonic) =
        [["FETCH_VAR", "JUMP_IF_NOT", "JUMP", "NOP", "FETCH_VAR", "JUMP_IF", "FUNC"],
          ["FETCH_VAR", "JUMP_IF_NOT", "JUMP", "NOP", "FETCH_VAR", "JUMP_IF_NOT", "JUMP_IF", "JUMP",
            "NOP", "NOP"]] ∧
      (lastHandles.after.heap.sequencesOf ⟨10⟩).map (List.map fun line => line.op.mnemonic) =
        [["JUMP_IF_NOT", "JUMP", "NOP", "NOP"]]) ∧
      ∀ lines ∈ lastHandles.returned ++ lastHandles.after.heap.sequencesOf ⟨10⟩,
        lastHandles.MakesList lines ∧
        (∀ (i : Nat) (line : OpLine) (target : OpId), lines[i]? = some line →
          line.op.target? = some target →
            (∃ other ∈ lines, other.id = target) ∧
            ∀ (j : Nat) (other : OpLine), lines[j]? = some other → other.id = target →
              (i < j ↔ other.op = .noOp) ∧
              (∀ cond, line.op = .jumpIfNot cond target → i < j) ∧
              ∀ cond, line.op = .jumpIf cond target → j ≤ i) ∧
          (∀ line ∈ lines, line.op = .noOp → ∃ other ∈ lines, other.op.target? = some line.id) ∧
          ∀ line ∈ lines.head?, line.op ≠ .noOp := by
  have hissued : lastHandles.after.issued ≤ 2 ^ 32 := by decide +kernel
  refine ⟨⟨hissued, by decide +kernel, by decide +kernel⟩, fun lines hlines => ?_⟩
  have hmakes : lastHandles.MakesList lines := by
    rcases List.mem_append.mp hlines with hmem | hmem
    · obtain ⟨i, hi⟩ := List.mem_iff_getElem?.mp hmem
      exact .returned hi
    · obtain ⟨i, hi⟩ := List.mem_iff_getElem?.mp hmem
      -- There was no slot before the call.
      exact .stored hi fun hsome => nomatch (show none = some lines from hsome)
  exact ⟨hmakes, jumps_forward_to_labels lastHandles lines hissued hmakes⟩

end Lowering
