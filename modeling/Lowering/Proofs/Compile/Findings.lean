import Lowering.Proofs.Compile.Acyclic
import Lowering.Proofs.Link.Sequences
import Lowering.Proofs.Tree.Findings

/-!
# What a compiler makes of its findings

A run of the compiler changes its state step by step. `CompileState.Meets` goes along such steps and
notes on the way what was folded, dropped or declared; every other step meets nothing.
`Emitter.Finds` says of an emitter that its successful runs meet given findings in order, and the
emitter of a tree meets those that are read off the tree (`compile_finds`).

Facts about a whole run are then facts about the steps: which literals the log reports as dropped
(`Meets.exists_events`), and which declarations have come into the slots (`Meets.mem_records`).
-/

namespace Lowering

open CompileM Emitter

/-- What a parameter record keeps of a declaration. -/
def ParamRecord.declaration (record : ParamRecord) : Declaration :=
  ⟨record.name, record.byRef, record.typeHint⟩

/-! ## Steps -/

namespace CompileState

/-- A state can follow another behind steps that meet given findings, in order. -/
inductive Meets : CompileState → List Finding → CompileState → Prop where
  | refl (state : CompileState) : Meets state [] state
  | trans {before between after : CompileState} {found more : List Finding} :
      Meets before found between → Meets between more after → Meets before (found ++ more) after
  | noted (state : CompileState) {event : Event} :
      (∀ literal, event ≠ .literalDropped literal) → Meets state [] (state.noted event)
  | advanced (state : CompileState) : Meets state [] state.advanced
  | added (state : CompileState) {value : Value} :
      value.IsLiteral → Meets state [] (state.added (.ofValue value))
  | assigned (state : CompileState) (slot : SlotId) {value : Value} :
      value.IsLiteral → Meets state [] (state.written slot fun _ => .ofValue value)
  | passed (state : CompileState) (slot element : SlotId) :
      Meets state [] (state.written slot (.push (.slot element)))
  | folded (state : CompileState) (slot : SlotId) (literal : Scalar) :
      Meets state [.folded literal] (state.written slot fun _ => .ofLiteral literal)
  | dropped (state : CompileState) (literal : Scalar) :
      Meets state [.dropped literal] (state.noted (.literalDropped literal))
  /-- A parameter is stored in the context. -/
  | stored (state : CompileState) (slot : SlotId) (record : ParamRecord) :
      Meets state [.declared record.declaration] (state.written slot (.push (.param record)))
  /-- A parameter is declared where there is no context. -/
  | declared (state : CompileState) (declaration : Declaration) :
      Meets state [.declared declaration] state

namespace Meets

variable {before state after : CompileState} {found : List Finding}

/-- A step that meets nothing. -/
theorem quiet (h : Meets before found state) (h' : Meets state [] after) :
    Meets before found after := by
  simpa using h.trans h'

/-- An empty slot meets nothing. -/
theorem added_empty (state : CompileState) : Meets state [] (state.added {}) := by
  have hnull : Value.null.IsLiteral := by simp [Value.IsLiteral]
  exact added state hnull

/-- Reporting misplaced nodes meets nothing. -/
theorem notedMisplaced (state : CompileState) (kinds : List NodeKind) :
    Meets state [] (state.notedMisplaced kinds) := by
  induction kinds generalizing state with
  | nil => exact refl state
  | cons kind rest ih => exact (noted state (by simp)).quiet (ih _)

/-- Finding the slot to write meets nothing. -/
theorem withResult (state : CompileState) (context : Option SlotId) :
    Meets state [] (state.withResult context) := by
  cases context with
  | none => exact added_empty state
  | some slot => exact refl state

end Meets

end CompileState

open CompileState (Meets)

/-! ## Emitters -/

/-- The successful runs of an emitter meet given findings, which may depend on whether there is a
context. -/
def Emitter.Finds (emitter : Emitter) (found : Bool → List Finding) : Prop :=
  ∀ context state, Ends (emitter context) state
    (fun _ after => state.Meets (found context.isSome) after) fun _ _ => True

namespace Emitter

variable {emitter first second : Emitter} {found more : Bool → List Finding}
  {context : Option SlotId} {before state : CompileState} {sofar : List Finding}

/-- An emitter that runs behind other steps. -/
theorem Finds.ends (h : emitter.Finds found) {done : List OpLine → CompileState → Prop}
    (hsofar : before.Meets sofar state)
    (hdone : ∀ ops after, before.Meets (sofar ++ found context.isSome) after → done ops after) :
    Ends (emitter context) state done fun _ _ => True :=
  (h context state).mono (fun ops after hops => hdone ops after (hsofar.trans hops))
    fun _ _ hfails => hfails

/-- An emitter that runs first, behind steps that meet nothing. -/
theorem Finds.starts (h : emitter.Finds found) {done : List OpLine → CompileState → Prop}
    (hquiet : before.Meets [] state)
    (hdone : ∀ ops after, before.Meets (found context.isSome) after → done ops after) :
    Ends (emitter context) state done fun _ _ => True :=
  h.ends hquiet hdone

/-- No code meets nothing. -/
theorem finds_skip : skip.Finds fun _ => [] :=
  fun _ state => ends_skip.mpr (.refl state)

/-- One piece and then another meet the findings of both, in order. -/
theorem finds_append (hfirst : first.Finds found) (hsecond : second.Finds more) :
    (append first second).Finds fun inSlot => found inSlot ++ more inSlot := by
  intro context state
  rw [ends_append]
  exact hfirst.starts (.refl state) fun _ _ hops => hsecond.ends hops fun _ _ hmore => hmore

/-- An event in front is no finding, unless it is a dropped literal. -/
theorem finds_noting {event : Event} (hevent : ∀ literal, event ≠ .literalDropped literal)
    (h : emitter.Finds found) : (noting event emitter).Finds found := by
  intro context state
  rw [ends_noting]
  exact h.starts (.noted state hevent) fun _ _ hops => hops

/-- A literal without effect is dropped. -/
theorem finds_dropped (literal : Scalar) : (dropped literal).Finds fun _ => [.dropped literal] := by
  intro context state
  rw [ends_dropped]
  exact .dropped state literal

/-- A literal that is folded is the single one of its field. -/
theorem finds_folded (literal : Scalar) :
    (folded literal).Finds fun inSlot => [.single inSlot literal] := by
  intro context state
  cases context with
  | none =>
    rw [ends_folded_none]
    exact .dropped state literal
  | some slot =>
    rw [ends_folded_some]
    exact .folded state slot literal

/-- A constant of literals meets nothing: no event and no record comes from it. -/
theorem finds_constant {literal : Constant} (hliteral : literal.value.IsLiteral) :
    (constant literal).Finds fun _ => [] := by
  intro context state
  cases context with
  | none =>
    rw [ends_constant_none]
    exact .refl state
  | some slot =>
    rw [ends_constant_some]
    exact (Meets.notedMisplaced state _).quiet (.assigned _ slot hliteral)

/-- Text between the statements meets nothing. -/
theorem finds_inlineText {text : Constant} (htext : text.value.IsLiteral) :
    (inlineText text).Finds fun _ => [] := by
  intro context state
  rw [ends_inlineText]
  exact (((Meets.notedMisplaced state _).quiet (.added _ htext)).quiet (.added_empty _)).quiet
    (.advanced _)

/-- An operation on one operand meets what its operand meets in a slot. -/
theorem finds_unary {operand : Emitter} (kind : UnaryKind) (h : operand.Finds found) :
    (unary kind operand).Finds fun _ => found true := by
  intro context state
  rw [ends_unary]
  refine h.starts (.added_empty state) fun ops after hops => ?_
  exact (hops.quiet (.withResult after context)).quiet (.advanced _)

/-- An operation on two operands meets what these meet in their slots, the left one first. -/
theorem finds_binary {left right : Emitter} (kind : BinaryKind) (hleft : left.Finds found)
    (hright : right.Finds more) :
    (binary kind left right).Finds fun _ => found true ++ more true := by
  intro context state
  rw [ends_binary]
  refine hleft.starts ((Meets.added_empty state).quiet (.added_empty _)) fun ops state₁ hops => ?_
  refine hright.ends hops fun more after hmore => ?_
  exact (hmore.quiet (.withResult after context)).quiet (.advanced _)

/-- An argument meets what its value meets in a slot. -/
theorem finds_argument {value : Emitter} (h : value.Finds found) :
    (argument value).Finds fun _ => found true := by
  intro context state
  rw [ends_argument]
  refine h.starts (.added_empty state) fun ops after hops => ?_
  cases context with
  | none => exact hops
  | some target => exact hops.quiet (.passed after target _)

/-- A parameter meets what its default value meets in a slot, and then its own declaration. -/
theorem finds_parameter {default : Emitter} (declaration : Declaration) (h : default.Finds found) :
    (parameter declaration default).Finds fun _ => found true ++ [.declared declaration] := by
  intro context state
  rw [ends_parameter]
  refine h.starts (.added_empty state) fun ops after hops => ?_
  cases context with
  | none => exact hops.trans (.declared after declaration)
  | some target =>
    exact hops.trans (.stored after target ⟨declaration.name, state.heap.next, ops,
      declaration.byRef, declaration.typeHint⟩)

/-- A function meets what its body meets without a context, and then what its name and its
parameters meet in their slots. -/
theorem finds_function {body name params : Emitter} {rest : Bool → List Finding}
    (hbody : body.Finds found) (hname : name.Finds more) (hparams : params.Finds rest) :
    (function body name params).Finds fun _ => found false ++ (more true ++ rest true) := by
  intro context state
  rw [ends_function]
  refine hbody.starts (.refl state) fun stmts state₁ hstmts => ?_
  refine hname.ends (hstmts.quiet (.added_empty state₁)) fun ops state₂ hops => ?_
  have hliteral : (Value.array []).IsLiteral := by simp [Value.IsLiteral, AllLiteral]
  refine hparams.ends (hops.quiet (.added state₂ hliteral)) fun more state₃ hmore => ?_
  rw [← List.append_assoc]
  exact (hmore.quiet (.noted state₃ (by simp))).quiet (.advanced _)

/-- A guarded branch meets what its test meets in a slot and then what its statements meet without a
context. -/
theorem finds_guardedTo {branch : Branch} (target : List OpLine → OpLine → OpId)
    (hcond : branch.cond.Finds found) (hstmts : branch.stmts.Finds more) :
    Finds (fun _ => guardedTo target branch) fun _ => found true ++ more false := by
  intro context state
  rw [ends_guardedTo]
  refine hcond.starts (.added_empty state) fun test state₁ htest => ?_
  refine hstmts.ends ((htest.quiet (.advanced _)).quiet (.advanced _)) fun stmts state₂ hstmts => ?_
  exact hstmts.quiet (.advanced state₂)

/-- A loop that tests first meets what its test meets and then what its statements meet. -/
theorem finds_whileLoop {loop : Branch} (hcond : loop.cond.Finds found)
    (hstmts : loop.stmts.Finds more) :
    (whileLoop loop).Finds fun _ => found true ++ more false := by
  rw [whileLoop_eq_guardedTo]
  exact finds_guardedTo _ hcond hstmts

/-- A loop that tests last meets what its statements meet and then what its test meets. -/
theorem finds_doLoop {loop : Branch} (hcond : loop.cond.Finds found)
    (hstmts : loop.stmts.Finds more) : (doLoop loop).Finds fun _ => more false ++ found true := by
  intro context state
  rw [ends_doLoop]
  refine hstmts.starts (.added_empty state) fun stmts state₁ hstmts => ?_
  exact hcond.ends hstmts fun test state₂ htest => htest.quiet (.advanced state₂)

/-- Pieces in turn find what each of them finds. -/
theorem finds_inTurn {nodes : List Node} {piece : Node → Emitter}
    {found : Node → Bool → List Finding} (h : ∀ node ∈ nodes, (piece node).Finds (found node)) :
    (inTurn (nodes.map piece)).Finds fun inSlot => nodes.flatMap fun node => found node inSlot := by
  induction nodes with
  | nil => exact finds_skip
  | cons node rest ih =>
    obtain ⟨hnode, hrest⟩ := List.forall_mem_cons.mp h
    exact finds_append hnode (ih hrest)

/-- Guarded branches meet what each of them meets, in order. -/
theorem finds_guardedAll {nodes : List Node} {branch : Node → Branch}
    {found : Node → List Finding} (exit : OpId)
    (h : ∀ node ∈ nodes, Finds (fun _ => guarded exit (branch node)) fun _ => found node) :
    Finds (fun _ => guardedAll exit (nodes.map branch)) fun _ => nodes.flatMap found := by
  induction nodes with
  | nil => exact finds_skip
  | cons node rest ih =>
    obtain ⟨hnode, hrest⟩ := List.forall_mem_cons.mp h
    exact finds_append hnode (ih hrest)

/-- A conditional meets what its branches meet and then what the statements behind them meet. -/
theorem finds_conditional {branches : List Branch} {otherwise : Emitter} {met : List Finding}
    (hbranches : ∀ exit, Finds (fun _ => guardedAll exit branches) fun _ => met)
    (hotherwise : otherwise.Finds more) :
    (conditional branches otherwise).Finds fun _ => met ++ more false := by
  intro context state
  rw [ends_conditional]
  refine ((hbranches state.handle) none state.advanced).mono (fun ops state₁ hops => ?_)
    fun _ _ hfails => hfails
  exact hotherwise.ends ((Meets.advanced state).trans hops) fun _ _ hmore => hmore

/-- A conditional finds what its branches find, and then the statements behind them all. -/
theorem finds_branches {branches alternatives : List Node} {part : Node → String → Emitter}
    {found : Node → String → Bool → List Finding}
    (hbranches : ∀ branch ∈ branches, ∀ name ∈ ["cond", "stmts"],
      (part branch name).Finds (found branch name))
    (halternatives : ∀ branch ∈ alternatives,
      (part branch "stmts").Finds (found branch "stmts")) :
    (conditional (branches.map fun branch => ⟨part branch "cond", part branch "stmts"⟩)
        (inTurn (alternatives.map fun branch => part branch "stmts"))).Finds
      fun _ => branches.flatMap
          (fun branch => found branch "cond" true ++ found branch "stmts" false) ++
        alternatives.flatMap fun branch => found branch "stmts" false := by
  refine finds_conditional (fun exit => finds_guardedAll exit fun branch hbranch => ?_)
    (finds_inTurn halternatives)
  rw [guarded_eq_guardedTo]
  exact finds_guardedTo _ (hbranches branch hbranch _ (by simp))
    (hbranches branch hbranch _ (by simp))

end Emitter

/-! ## Trees -/

/-- A node that is put together finds what its fields find, and the parameter that it declares. -/
theorem Node.assemble_finds {node : Node} {part : Node → String → Emitter}
    {found : Node → String → Bool → List Finding}
    (h : ∀ owner name, (owner, name) ∈ node.compiledFields →
      (part owner name).Finds (found owner name)) :
    (node.assemble part).Finds fun _ =>
      node.compiledFields.flatMap (fun (owner, name) => found owner name (hasSlot name)) ++
        node.declared := by
  rw [Node.assemble, Node.declared]
  rcases hdescriptor : node.kind.descriptor? with _ | descriptor
  · rcases hroutine : node.kind.routine? with _ | routine
    · exact fun _ _ => (ends_unsupported node.kind).mpr trivial
    · refine finds_noting (by simp) ?_
      simp only [Node.compiledFields, hdescriptor, hroutine] at h ⊢
      cases routine with
      | param => simpa [hasSlot] using finds_parameter _ (h node _ (by simp))
      | function =>
        simpa [hasSlot] using
          finds_function (h node _ (by simp)) (h node _ (by simp)) (h node _ (by simp))
      | conditional =>
        -- The only kind for which fields of other nodes are compiled: those of its branches.
        have hfinds := finds_branches
          (fun branch hbranch name hname => h branch name (List.mem_append_left _
            (List.mem_flatMap.mpr ⟨branch, hbranch, by simpa using hname⟩)))
          fun branch hbranch => h branch _ (List.mem_append_right _ (List.mem_map_of_mem hbranch))
        simpa [hasSlot, List.flatMap_assoc, List.flatMap_map] using hfinds
      | whileLoop =>
        simpa [hasSlot] using finds_whileLoop (h node _ (by simp)) (h node _ (by simp))
      | doLoop => simpa [hasSlot] using finds_doLoop (h node _ (by simp)) (h node _ (by simp))
      | inlineHtml => exact finds_inlineText (node.constant_isLiteral "value" none)
  · have hslot := NodeKind.hasSlot_of_descriptor hdescriptor
    have hnone := NodeKind.routine?_of_descriptor hdescriptor
    refine finds_noting (by simp) ?_
    simp only [Node.compiledFields, hdescriptor, hnone] at h ⊢
    cases descriptor with
    | argument field =>
      simpa [hslot field (by simp [Descriptor.fields])] using
        finds_argument (h node field (by simp))
    | literal field separator => exact finds_constant (node.constant_isLiteral field separator)
    | unary operation field =>
      simpa [hslot field (by simp [Descriptor.fields])] using
        finds_unary operation (h node field (by simp))
    | binary operation left right =>
      simpa [hslot left (by simp [Descriptor.fields]), hslot right (by simp [Descriptor.fields])]
        using finds_binary operation (h node left (by simp)) (h node right (by simp))

mutual

/-- A content finds what is read off it, if this is so of the nodes in it. -/
theorem Child.emitter_finds : ∀ child : Child,
    (∀ node ∈ child.members, node.emitter.Finds fun _ => node.findings) →
      child.emitter.Finds fun inSlot => child.findings inSlot
  | .null, _ => by
    simp only [Child.emitter, Child.findings]
    exact finds_skip
  | .node n, h => by
    simp only [Child.emitter, Child.findings]
    exact h n (List.mem_singleton_self n)
  | .list items, h => by
    -- A literal that is alone in a list is folded like one that is not in a list.
    by_cases hsingle : ∃ s, items = [.scalar s]
    · obtain ⟨s, rfl⟩ := hsingle
      simp only [Child.emitter, Child.findings]
      exact finds_folded s
    · have hemitter : (Child.list items).emitter = itemsEmitter items :=
        (Child.emitter_list items).resolve_left fun ⟨s, hs, _⟩ => hsingle ⟨s, hs⟩
      have hfindings : ∀ inSlot, (Child.list items).findings inSlot = itemFindings items := by
        intro inSlot
        rw [Child.findings]
        exact fun s hs => hsingle ⟨s, hs⟩
      rw [hemitter, funext hfindings]
      exact itemsEmitter_finds items h
  | .scalar s, _ => by
    simp only [Child.emitter, Child.findings]
    exact finds_folded s

/-- The items of a list find what is read off them, if this is so of the nodes in them. -/
theorem itemsEmitter_finds : ∀ items : List Child,
    (∀ node ∈ membersIn items, node.emitter.Finds fun _ => node.findings) →
      (itemsEmitter items).Finds fun _ => itemFindings items
  | [], _ => by
    simp only [itemsEmitter, itemFindings]
    exact finds_skip
  | .null :: rest, h => by
    simp only [itemsEmitter, itemFindings]
    exact itemsEmitter_finds rest h
  | .node n :: rest, h => by
    obtain ⟨hnode, hrest⟩ := List.forall_mem_append.mp h
    simp only [itemsEmitter, itemFindings]
    exact finds_append (hnode n (List.mem_singleton_self n)) (itemsEmitter_finds rest hrest)
  | .list items :: rest, h => by
    obtain ⟨hitems, hrest⟩ := List.forall_mem_append.mp h
    simp only [itemsEmitter, itemFindings]
    exact finds_append (itemsEmitter_finds items hitems) (itemsEmitter_finds rest hrest)
  | .scalar s :: rest, h => by
    simp only [itemsEmitter, itemFindings]
    exact finds_append (finds_dropped s) (itemsEmitter_finds rest h)

end

/-- A node finds what is read off it. -/
theorem Node.emitter_finds (node : Node) : node.emitter.Finds fun _ => node.findings := by
  rw [Node.emitter_eq_assemble, Node.findings_eq]
  refine @Node.assemble_finds node Node.emitterOf Node.findingsOf fun owner name hfield => ?_
  have hmembers : ∀ member ∈ owner.membersOf name,
      member.emitter.Finds fun _ => member.findings := by
    intro member hmember
    -- The owner may be another node, a branch, so the step down is by size.
    have hlt := Node.sizeOf_lt_of_mem_membersOf hfield hmember
    exact Node.emitter_finds member
  unfold Node.membersOf at hmembers
  unfold Node.emitterOf Node.findingsOf
  rcases hcontent : owner.field? name with _ | content
  · exact finds_skip
  · rw [hcontent] at hmembers
    exact Child.emitter_finds content hmembers
termination_by sizeOf node

/-- Compiling a statement list finds what is read off it. -/
theorem compile_finds (nodes : List Node) : (compile nodes).Finds fun _ => findings nodes := by
  induction nodes with
  | nil => exact finds_skip
  | cons node rest ih => exact finds_append node.emitter_finds ih

/-! ## The log -/

/-- The literals that are dropped. -/
def droppedLiterals (found : List Finding) : List Scalar :=
  found.filterMap fun
    | .dropped literal => some literal
    | _ => none

/-- The words that a warning about a dropped literal begins with. -/
def dropWords : String := "dropping literal "

/-- Whether an event is a warning about a dropped literal, judged by what the log shows of it. -/
def Event.isDropWarning (event : Event) : Bool :=
  event.level = .warn && dropWords.toList.isPrefixOf event.message.toList

/-- A dropped literal is shown by a warning that begins with the words for it. -/
theorem Event.isDropWarning_literalDropped (literal : Scalar) :
    (literalDropped literal).isDropWarning = true := by
  have hmessage : (literalDropped literal).message =
      "dropping literal '" ++ (literal.text ++ "' inside a multi-element field") :=
    String.append_assoc ..
  have hwords : dropWords.toList <+: "dropping literal '".toList := by
    rw [dropWords]
    decide
  rw [isDropWarning, Bool.and_eq_true, List.isPrefixOf_iff_prefix, hmessage, String.toList_append]
  constructor
  · rfl
  · exact hwords.trans (List.prefix_append _ _)

/-- No other event is taken for such a warning: the only other warning begins otherwise. -/
theorem Event.isDropWarning_of_ne {event : Event} (h : ∀ literal, event ≠ .literalDropped literal) :
    event.isDropWarning = false := by
  cases event with
  | literalDropped literal => exact absurd rfl (h literal)
  | literalExpected found =>
    have hmessage : (literalExpected found).message =
        "e" ++ ("xpected a literal, found a " ++ found.tag ++ " node") := by
      rw [← String.append_assoc, ← String.append_assoc]
      rfl
    have hwords : dropWords.toList = 'd' :: "ropping literal ".toList := by
      rw [dropWords]
      decide
    have he : "e".toList = ['e'] := rfl
    have hne : ('d' == 'e') = false := rfl
    rw [isDropWarning, hmessage, hwords, String.toList_append, he, List.cons_append,
      List.isPrefixOf_cons_cons, hne, Bool.false_and, Bool.and_false]
  | _ => rfl

/-- The warnings about dropped literals among the events of some steps are those about the literals
that the steps have dropped. -/
theorem CompileState.Meets.exists_events {before after : CompileState} {found : List Finding}
    (h : before.Meets found after) :
    ∃ events, after.log = events ++ before.log ∧
      events.reverse.filter Event.isDropWarning =
        (droppedLiterals found).map .literalDropped := by
  induction h with
  | trans _ _ ih ih' =>
    obtain ⟨events, hlog, hwarnings⟩ := ih
    obtain ⟨more, hlog', hwarnings'⟩ := ih'
    refine ⟨more ++ events, by rw [hlog', hlog, List.append_assoc], ?_⟩
    rw [List.reverse_append, List.filter_append, hwarnings, hwarnings', ← List.map_append]
    simp [droppedLiterals]
  | noted state hevent =>
    exact ⟨[_], rfl, by simp [Event.isDropWarning_of_ne hevent, droppedLiterals]⟩
  | dropped state literal =>
    exact ⟨[_], rfl, by simp [Event.isDropWarning_literalDropped, droppedLiterals]⟩
  | _ => exact ⟨[], rfl, rfl⟩

/-! ## The slots -/

mutual

/-- No record stands in a literal. -/
theorem Value.records_of_isLiteral : ∀ value : Value, value.IsLiteral → value.records = []
  | .null, _ | .bool _, _ | .long _, _ | .double _, _ | .string _, _ => by simp [Value.records]
  | .array items, h => by
    rw [Value.IsLiteral] at h
    rw [Value.records, valueRecords_of_allLiteral items h]

/-- No record stands in literals. -/
theorem valueRecords_of_allLiteral : ∀ values : List Value,
    AllLiteral values → valueRecords values = []
  | [], _ => by rw [valueRecords]
  | value :: rest, h => by
    rw [AllLiteral] at h
    rw [valueRecords, Value.records_of_isLiteral value h.1, valueRecords_of_allLiteral rest h.2,
      List.append_nil]

end

/-- The records in values are in one part of them or the other. -/
theorem valueRecords_append (values more : List Value) :
    valueRecords (values ++ more) = valueRecords values ++ valueRecords more := by
  induction values with
  | nil => rw [valueRecords, List.nil_append, List.nil_append]
  | cons value rest ih =>
    rw [List.cons_append, valueRecords, valueRecords, ih, List.append_assoc]

/-- The records of a cell after something has been appended to it. -/
theorem Cell.mem_records_push {cell : Cell} {element : Value} {record : ParamRecord}
    (h : record ∈ (cell.push element).value.records) :
    record ∈ cell.value.records ∨ record ∈ element.records := by
  rw [Cell.push, Value.records, valueRecords_append, List.mem_append, valueRecords, valueRecords,
    List.append_nil] at h
  refine h.imp_left fun hold => ?_
  obtain ⟨value, type⟩ := cell
  cases value with
  | array items => rwa [Value.records]
  | _ => simp [Value.elements, valueRecords] at hold

/-- What a change of a cell does to its records it does to those of every slot. -/
theorem CompileState.mem_records_written {state : CompileState} {change : Cell → Cell}
    {p : ParamRecord → Prop}
    (h : ∀ cell : Cell, ∀ record ∈ (change cell).value.records,
      record ∈ cell.value.records ∨ p record) (target slot : SlotId) :
    ∀ record ∈ ((state.written target change).heap.get slot).value.records,
      record ∈ (state.heap.get slot).value.records ∨ p record := by
  rw [written_heap, Heap.get_modify]
  split
  · exact h _
  · exact fun _ => Or.inl

/-- A record in a slot behind some steps was there before or has been declared on the way. -/
theorem CompileState.Meets.mem_records {before after : CompileState} {found : List Finding}
    (h : before.Meets found after) (slot : SlotId) :
    ∀ record ∈ (after.heap.get slot).value.records,
      record ∈ (before.heap.get slot).value.records ∨ .declared record.declaration ∈ found := by
  induction h with
  | trans _ _ ih ih' =>
    intro record hrecord
    rcases ih' record hrecord with hbetween | hmore
    · exact (ih record hbetween).imp_right (List.mem_append_left _)
    · exact Or.inr (List.mem_append_right _ hmore)
  | added state hvalue =>
    intro record hrecord
    rw [added_heap, Heap.get_add] at hrecord
    split at hrecord
    · simp [Cell.ofValue, Value.records_of_isLiteral _ hvalue] at hrecord
    · exact Or.inl hrecord
  | assigned state target hvalue =>
    refine mem_records_written (fun _ record hrecord => ?_) target slot
    simp [Cell.ofValue, Value.records_of_isLiteral _ hvalue] at hrecord
  | folded state target literal =>
    refine mem_records_written (fun _ record hrecord => ?_) target slot
    simp [Cell.ofLiteral, Value.records_of_isLiteral _ literal.toValue_isLiteral] at hrecord
  | passed state target element =>
    refine mem_records_written (fun cell record hrecord => ?_) target slot
    exact Or.inl ((Cell.mem_records_push hrecord).resolve_right (by simp [Value.records]))
  -- Only this step stores a record, and it declares what is found.
  | stored state target stored =>
    refine mem_records_written (fun cell record hrecord => ?_) target slot
    refine (Cell.mem_records_push hrecord).imp_right fun hnew => ?_
    obtain rfl : record = stored := by simpa [Value.records] using hnew
    exact List.mem_singleton_self _
  | _ => exact fun _ => Or.inl

end Lowering
