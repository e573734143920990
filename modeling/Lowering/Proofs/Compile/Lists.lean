import Lowering.Proofs.Compile.Acyclic
import Lowering.Proofs.Compile.Frame

/-!
# Lists of arguments and of parameters

A call finds its arguments in an array, and a function its parameters. The array is filled on the
side, while the nodes of a field are compiled: each of them compiles a value into a slot of its own
and then appends an element to the context that they share. Of an argument the element is the slot,
and the op-lines are returned; of a parameter it is a record, which keeps the op-lines to itself.
`Form` has what differs between the two.

`Emitter.Appends` is what one node does to its context. `Form.ends_compile` follows from it by
induction: the nodes of a list leave one element each, in order, and nothing that a later node does
touches what an earlier one has compiled. `lists_complete` is the result for calls and functions.
-/

namespace Lowering

open CompileM Emitter Heap

/-! ## Entries -/

/-- A slot and the op-lines that were compiled into it. -/
structure Entry where
  slot : SlotId
  ops : List OpLine

/-- The slot of an entry was new in a state. An emitter was run in it, which returned the op-lines
and changed no slot that was there, and a later heap has in the slots that were added what they held
behind that run. The op-lines name none but these, of which the slot of the entry is the first. -/
structure Emitter.FillsFrom (value : Emitter) (state state' : CompileState) (after : Heap)
    (entry : Entry) : Prop where
  slot_eq : entry.slot = state.heap.next
  run : (value (some entry.slot)).run.run (state.added {}) = (.ok entry.ops, state')
  lt_size : state.heap.size < state'.heap.size
  size_le : state'.heap.size ≤ after.size
  frame : ∀ slot, slot.index < state.heap.size → state'.heap.get slot = state.heap.get slot
  kept : ∀ slot, state.heap.Added state'.heap slot → after.get slot = state'.heap.get slot
  named : ∀ slot ∈ lineSlots entry.ops, state.heap.Added state'.heap slot

/-- An emitter was run in the slot of an entry, which was added after a heap. -/
def Emitter.Fills (value : Emitter) (before after : Heap) (entry : Entry) : Prop :=
  ∃ state state' : CompileState, before.size ≤ state.heap.size ∧
    value.FillsFrom state state' after entry

namespace Emitter

variable {value : Emitter} {state state' : CompileState} {before between after final : Heap}
  {entry : Entry}

/-- A run in a new slot fills it. -/
theorem FillsFrom.of_run (hvalue : value.Extends) {ops : List OpLine}
    (hrun : (value (some state.heap.next)).run.run (state.added {}) = (.ok ops, state')) :
    value.FillsFrom state state' state'.heap ⟨state.heap.next, ops⟩ := by
  have hthere : ∀ slot ∈ some state.heap.next, slot.index < (state.added {}).heap.size := by
    simp [Heap.next, size_add]
  have hadds := (hvalue _ _ hthere).of_run_ok hrun
  have hlt : state.heap.size < state'.heap.size := by
    have hle := hadds.grows.size_le
    rw [CompileState.added_heap, size_add] at hle
    omega
  refine ⟨rfl, hrun, hlt, le_rfl, fun slot hslot => ?_, fun _ _ => rfl, fun slot hslot => ?_⟩
  -- Older slots are not the context of this run, so they keep their cells.
  · have hold : slot ∉ some state.heap.next := by
      rintro ⟨⟩
      exact Nat.lt_irrefl _ hslot
    rw [hadds.grows.frame slot (by rw [CompileState.added_heap, size_add]; omega) hold,
      CompileState.added_heap, get_add_of_lt _ hslot]
  · rcases hadds.spans slot hslot with hmem | ⟨hle, hlt'⟩
    · obtain rfl : state.heap.next = slot := Option.some.inj hmem
      exact ⟨le_rfl, hlt⟩
    · rw [CompileState.added_heap, size_add] at hle
      exact ⟨by omega, hlt'⟩

/-- The slots that were added hold in a later heap what they held. -/
theorem FillsFrom.later (h : value.FillsFrom state state' after entry)
    (hsize : after.size ≤ final.size)
    (hkept : ∀ slot, state.heap.Added after slot → final.get slot = after.get slot) :
    value.FillsFrom state state' final entry := by
  refine ⟨h.slot_eq, h.run, h.lt_size, h.size_le.trans hsize, h.frame, fun slot hslot => ?_,
    h.named⟩
  rw [hkept slot ⟨hslot.1, Nat.lt_of_lt_of_le hslot.2 h.size_le⟩, h.kept slot hslot]

/-- What fills a slot still does in a later heap that has left it alone. -/
theorem Fills.later (h : value.Fills before after entry) (hsize : after.size ≤ final.size)
    (hkept : ∀ slot, before.Added after slot → final.get slot = after.get slot) :
    value.Fills before final entry := by
  obtain ⟨state, state', hle, hfills⟩ := h
  refine ⟨state, state', hle, hfills.later hsize fun slot hslot => ?_⟩
  exact hkept slot ⟨hle.trans hslot.1, hslot.2⟩

/-- A slot that is new behind some slots is new behind fewer. -/
theorem Fills.earlier (h : value.Fills between after entry) (hsize : before.size ≤ between.size) :
    value.Fills before after entry := by
  obtain ⟨state, state', hle, hfills⟩ := h
  exact ⟨state, state', hsize.trans hle, hfills⟩

/-- The slot of an entry is a new one. -/
theorem Fills.size_le_slot (h : value.Fills before after entry) :
    before.size ≤ entry.slot.index := by
  obtain ⟨state, _, hle, hfills⟩ := h
  rw [hfills.slot_eq]
  exact hle

end Emitter

/-! ## Lists -/

/-- Appends elements one by one. -/
def Cell.pushAll (elements : List Value) (cell : Cell) : Cell :=
  elements.foldl (fun cell element => cell.push element) cell

/-- Appending elements makes an array of those that are there and the new ones. -/
theorem Cell.pushAll_of_ne_nil {elements : List Value} (h : elements ≠ []) (cell : Cell) :
    cell.pushAll elements = .ofValue (.array (cell.value.elements ++ elements)) := by
  induction elements generalizing cell with
  | nil => exact absurd rfl h
  | cons element rest ih =>
    by_cases hrest : rest = []
    · rw [hrest]
      rfl
    · calc cell.pushAll (element :: rest)
          = (cell.push element).pushAll rest := rfl
        _ = .ofValue (.array (cell.value.elements ++ [element] ++ rest)) := ih hrest _
        _ = .ofValue (.array (cell.value.elements ++ element :: rest)) := by
          rw [List.append_assoc, List.singleton_append]

/-- Appending elements to an empty array makes an array of them. -/
theorem Cell.pushAll_array (elements : List Value) :
    (Cell.ofValue (.array [])).pushAll elements = .ofValue (.array elements) := by
  by_cases h : elements = []
  · rw [h]
    rfl
  · exact Cell.pushAll_of_ne_nil h _

/-- How the elements of a list are made from entries: what is appended to the array, and what is
returned. -/
structure Form (α : Type) where
  element : α → Value
  entry : α → Entry
  code : α → List OpLine

/-- Arguments: the slot is appended, and the op-lines are returned. -/
def Form.argument : Form Entry :=
  ⟨fun entry => .slot entry.slot, id, Entry.ops⟩

/-- Parameters: a record is appended, and nothing is returned. -/
def Form.parameter : Form ParamRecord :=
  ⟨.param, fun record => ⟨record.default, record.ops⟩, fun _ => []⟩

section

variable {α : Type} {form : Form α}

/-- An emitter compiles a value into a new slot, and then appends an element to its context. -/
def Emitter.Appends (form : Form α) (emitter value : Emitter) (p : α → Prop) : Prop :=
  ∀ (target : SlotId) (state : CompileState), Ends (emitter (some target)) state
    (fun ops after => ∃ (item : α) (state₁ state₂ : CompileState), p item ∧
      state₁.heap = state.heap ∧ value.FillsFrom state₁ state₂ state₂.heap (form.entry item) ∧
      ops = form.code item ∧ after.heap = state₂.heap.modify target (.push (form.element item)))
    fun _ _ => True

/-- What nodes leave that are compiled one after another in the same context. -/
structure Form.Lists (form : Form α) (value : Node → Emitter) (p : Node → α → Prop)
    (nodes : List Node) (target : SlotId) (before : Heap) (items : List α) (after : Heap) :
    Prop where
  size_le : before.size ≤ after.size
  held : after.get target = (before.get target).pushAll (items.map form.element)
  nodup : (items.map fun item => (form.entry item).slot).Nodup
  each : List.Forall₂ (fun node item =>
    p node item ∧ (value node).Fills before after (form.entry item)) nodes items

namespace Form.Lists

variable {value : Node → Emitter} {p : Node → α → Prop} {node : Node} {nodes : List Node}
  {target : SlotId} {before between after : Heap} {item : α} {items : List α}

/-- The slots of the items of a list are new ones. -/
theorem size_le_slot (h : form.Lists value p nodes target before items after) :
    ∀ item ∈ items, before.size ≤ (form.entry item).slot.index := by
  obtain ⟨-, -, -, heach⟩ := h
  induction heach with
  | nil => simp
  | cons hitem _ ih => exact List.forall_mem_cons.mpr ⟨hitem.2.size_le_slot, ih⟩

/-- One node is compiled, and then others: it leaves its element in front of theirs. -/
theorem cons {state state₁ : CompileState} (htarget : target.index < state.heap.size)
    (hitem : p node item)
    (hfills : (value node).FillsFrom state state₁ state₁.heap (form.entry item))
    (hbetween : between = state₁.heap.modify target (.push (form.element item)))
    (hgrows : Grows (some target) between after)
    (h : form.Lists value p nodes target between items after) :
    form.Lists value p (node :: nodes) target state.heap (item :: items) after := by
  have hlt := hfills.lt_size
  have hsize : between.size = state₁.heap.size := by rw [hbetween, size_modify]
  have hkept : ∀ slot, state.heap.Added state₁.heap slot →
      after.get slot = state₁.heap.get slot := by
    -- The context is older than the slots that the first node has added.
    rintro slot ⟨hle, hslot⟩
    have hne : target ≠ slot := by
      rintro rfl
      omega
    rw [hgrows.frame slot (by omega) (by simpa using hne), hbetween, get_modify,
      if_neg fun heq => hne heq.1]
  have hle := hgrows.size_le
  refine ⟨by omega, ?_, ?_, .cons ⟨hitem, state, state₁, le_rfl, ?_⟩ ?_⟩
  · rw [h.held, hbetween, get_modify, if_pos ⟨rfl, by omega⟩, hfills.frame target htarget]
    rfl
  · refine List.nodup_cons.mpr ⟨fun hmem => ?_, h.nodup⟩
    -- The slots of the others are newer.
    obtain ⟨other, hother, heq⟩ := List.mem_map.mp hmem
    have heq : (form.entry other).slot = (form.entry item).slot := heq
    have hnewer := h.size_le_slot other hother
    rw [heq, hfills.slot_eq, hsize] at hnewer
    exact Nat.not_lt.mpr hnewer hlt
  · exact hfills.later (by omega) hkept
  · exact h.each.imp fun _ _ heach => ⟨heach.1, heach.2.earlier (by omega)⟩

end Form.Lists

/-- Nodes that each append an element to the context that they are compiled in leave one element
each, in order. -/
theorem Form.ends_compile {value : Node → Emitter} {p : Node → α → Prop} {nodes : List Node}
    (hnodes : ∀ node ∈ nodes, node.emitter.Appends form (value node) (p node))
    (target : SlotId) (state : CompileState) (htarget : target.index < state.heap.size) :
    Ends (compile nodes (some target)) state
      (fun ops after => ∃ items, ops = items.flatMap form.code ∧
        form.Lists value p nodes target state.heap items after.heap) fun _ _ => True := by
  -- The heap grows from item to item; the slot that takes them is there throughout.
  induction nodes generalizing state with
  | nil => exact ⟨[], rfl, le_rfl, rfl, List.nodup_nil, .nil⟩
  | cons node rest ih =>
    obtain ⟨hnode, hrest⟩ := List.forall_mem_cons.mp hnodes
    rw [compile, ends_append]
    refine (hnode target state).mono (fun ops between hops => ?_) fun _ _ _ => trivial
    obtain ⟨item, state₁, state₂, hitem, hheap, hfills, rfl, hbetween⟩ := hops
    rw [← hheap] at htarget ⊢
    have hthere : target.index < between.heap.size := by
      rw [hbetween, size_modify]
      exact htarget.trans hfills.lt_size
    have hends := (compile_built rest).extends (some target) between (by simpa using hthere)
    refine (hends.and (ih hrest between hthere)).mono (fun more after hmore => ?_)
      fun _ _ _ => trivial
    obtain ⟨hadds, items, rfl, hlists⟩ := hmore
    exact ⟨item :: items, rfl, hlists.cons htarget hitem hfills hbetween hadds.grows⟩

end

/-! ## Arguments and parameters -/

namespace Emitter

variable {value : Emitter}

/-- An event in front appends nothing. -/
theorem appends_noting {α : Type} {form : Form α} {emitter : Emitter} {p : α → Prop} (event : Event)
    (h : emitter.Appends form value p) : (noting event emitter).Appends form value p := by
  intro target state
  rw [ends_noting]
  exact h target (state.noted event)

/-- An argument appends the slot of its value. -/
theorem appends_argument (hvalue : value.Extends) :
    (argument value).Appends .argument value fun _ => True := by
  intro target state
  rw [ends_argument]
  refine (ends_run _ _).mono (fun ops state₁ hrun => ?_) fun _ _ _ => trivial
  exact ⟨⟨state.heap.next, ops⟩, state, state₁, trivial, rfl, .of_run hvalue hrun, rfl, rfl⟩

/-- A parameter appends a record with what it declares. -/
theorem appends_parameter (hvalue : value.Extends) (declaration : Declaration) :
    (parameter declaration value).Appends .parameter value fun record =>
      record.name = declaration.name ∧ record.byRef = declaration.byRef ∧
        record.typeHint = declaration.typeHint := by
  intro target state
  rw [ends_parameter]
  refine (ends_run _ _).mono (fun ops state₁ hrun => ?_) fun _ _ _ => trivial
  exact ⟨⟨declaration.name, state.heap.next, ops, declaration.byRef, declaration.typeHint⟩, state,
    state₁, ⟨rfl, rfl, rfl⟩, rfl, .of_run hvalue hrun, rfl, rfl⟩

end Emitter

/-- An argument node appends the slot of its value. -/
theorem Node.appends_of_arg {node : Node} (hkind : node.kind = .arg) :
    node.emitter.Appends .argument (node.emitterOf "value") fun _ => True := by
  rw [Node.emitter_eq, hkind]
  exact appends_noting _ (appends_argument (node.emitterOf_built "value").extends)

/-- A parameter node appends a record with what it declares. -/
theorem Node.appends_of_param {node : Node} (hkind : node.kind = .param) :
    node.emitter.Appends .parameter (node.emitterOf "default") fun record =>
      record.name = node.declaration.name ∧ record.byRef = node.declaration.byRef ∧
        record.typeHint = node.declaration.typeHint := by
  rw [Node.emitter_eq, hkind]
  exact appends_noting _
    (appends_parameter (node.emitterOf_built "default").extends node.declaration)

/-- A field that holds a list of nodes is compiled like statements. -/
theorem Node.emitterOf_list {node : Node} {name : String} {nodes : List Node}
    (h : node.field? name = some (.list (nodes.map .node))) :
    node.emitterOf name = compile nodes := by
  have hitems : ∀ nodes : List Node, itemsEmitter (nodes.map .node) = compile nodes := by
    intro nodes
    induction nodes with
    | nil => rw [List.map_nil, itemsEmitter, compile]
    | cons node rest ih => rw [List.map_cons, itemsEmitter, compile, ih]
  rw [Node.emitterOf, h, Option.map_some, Option.getD_some]
  rcases Child.emitter_list (nodes.map .node) with ⟨s, hscalar, -⟩ | heq
  · -- Nodes are not a literal that could be folded.
    cases nodes <;> simp at hscalar
  · rw [heq, hitems]

/-- A call passes all arguments. Behind the op-lines of its name stand those of the field with the
arguments and then the call. The former are those of the arguments, one after another. The second
operand of the call is a new slot, which holds an array of as many slots, all different and newer
than itself; each of them is that of an argument, in order, whose value was compiled into it. -/
def Node.PassesAll (node : Node) (args : List Node) (state : CompileState) (ops : List OpLine)
    (after : CompileState) : Prop :=
  ∃ (entries : List Entry) (named : List OpLine) (id : OpId) (name list result : SlotId)
    (state₀ state₁ state₂ : CompileState),
    ops = named ++ entries.flatMap Entry.ops ++ [⟨id, .binary .functionCall name list result⟩] ∧
    (node.emitterOf "name" (some name)).run.run state₀ = (.ok named, state₁) ∧
    (node.emitterOf "args" (some list)).run.run state₁ =
      (.ok (entries.flatMap Entry.ops), state₂) ∧
    state.heap.Added state₁.heap list ∧
    after.heap.get list = ⟨.array (entries.map fun entry => .slot entry.slot), .array⟩ ∧
    (entries.map Entry.slot).Nodup ∧
    List.Forall₂ (fun arg entry =>
      (arg.emitterOf "value").Fills state₁.heap after.heap entry) args entries

/-- A function takes all parameters. Behind the op-lines of its name stands the definition, and the
field with the parameters has none. The last slot of the definition is a new one, which holds an
array of as many records; each of them is that of a parameter, in order, with the name, the flag and
the type that the parameter declares, and with a slot of its own and the op-lines that were compiled
into it for the default. -/
def Node.TakesAll (node : Node) (params : List Node) (state : CompileState) (ops : List OpLine)
    (after : CompileState) : Prop :=
  ∃ (records : List ParamRecord) (named stmts : List OpLine) (id : OpId) (name list : SlotId)
    (state₀ state₁ state₂ state₃ : CompileState),
    ops = named ++ [⟨id, .functionDef name stmts list⟩] ∧
    (node.emitterOf "name" (some name)).run.run state₀ = (.ok named, state₁) ∧
    (node.emitterOf "params" (some list)).run.run state₂ = (.ok [], state₃) ∧
    state.heap.Added state₂.heap list ∧
    after.heap.get list = ⟨.array (records.map .param), .array⟩ ∧
    (records.map ParamRecord.default).Nodup ∧
    List.Forall₂ (fun param record =>
      (record.name = ((param.scalar? "name").map Scalar.text).getD "" ∧
        record.byRef = param.flag "byRef" ∧
        record.typeHint = (param.field? "type").bind Child.typeHint?) ∧
      (param.emitterOf "default").Fills state₂.heap after.heap ⟨record.default, record.ops⟩)
      params records

/-- The slot of a result is new or was there before: no other slot changes. -/
theorem CompileState.get_withResult (state : CompileState) (context : Option SlotId)
    {slot : SlotId} (h : slot.index < state.heap.size) :
    (state.withResult context).heap.get slot = state.heap.get slot := by
  cases context with
  | none => exact get_add_of_lt _ h
  | some _ => rfl

/-- Finding the slot to write removes none. -/
theorem CompileState.size_le_withResult (state : CompileState) (context : Option SlotId) :
    state.heap.size ≤ (state.withResult context).heap.size := by
  cases context with
  | none =>
    rw [CompileState.withResult, CompileState.added_heap, size_add]
    exact Nat.le_succ _
  | some _ => exact le_rfl

/-- Behind the code of a left operand, the slot of the right one is there and still empty. -/
theorem Emitter.Extends.right_empty {left : Emitter} (h : left.Extends) (state : CompileState) :
    Ends (left (some state.heap.next)) ((state.added {}).added {})
      (fun _ after => state.heap.Added after.heap (state.added {}).heap.next ∧
        after.heap.get (state.added {}).heap.next = {}) fun _ _ => True := by
  have hsize : ((state.added {}).added {}).heap.size = state.heap.size + 2 := by
    simp only [CompileState.added_heap, size_add]
  have hindex : (state.added {}).heap.next.index = state.heap.size + 1 := by
    rw [CompileState.added_heap, Heap.next, size_add]
  have hleft : state.heap.next.index = state.heap.size := rfl
  have hthere : ∀ slot ∈ some state.heap.next,
      slot.index < ((state.added {}).added {}).heap.size := by
    rintro _ ⟨⟩
    omega
  refine (h _ _ hthere).mono (fun ops after hadds => ?_) fun _ _ _ => trivial
  have hle := hadds.grows.size_le
  refine ⟨⟨by omega, by omega⟩, ?_⟩
  -- The left operand has a slot of its own, so the one for the right operand is still untouched.
  rw [hadds.grows.frame _ (by omega) ?_, CompileState.added_heap, get_add_next]
  intro hmem
  rw [← Option.some.inj hmem] at hindex
  omega

/-- A call with arguments passes all of them, whenever it is compiled. -/
theorem Node.ends_passesAll {node : Node} {args : List Node} (hkind : node.kind = .exprFuncCall)
    (hfield : node.field? "args" = some (.list (args.map .node))) (hne : args ≠ [])
    (hargs : ∀ arg ∈ args, arg.kind = .arg) (context : Option SlotId) (state : CompileState) :
    Ends (node.emitter context) state (fun ops after => node.PassesAll args state ops after)
      fun _ _ => True := by
  have hcall : node.emitter = .noting
      (.dispatched node.kind (.binary .functionCall "name" "args"))
      (.binary .functionCall (node.emitterOf "name") (node.emitterOf "args")) := by
    rw [Node.emitter_eq, hkind]
    rfl
  rw [hcall, ends_noting, ends_binary, Node.emitterOf_list hfield]
  have hright := (node.emitterOf_built "name").extends.right_empty
    (state.noted (.dispatched node.kind (.binary .functionCall "name" "args")))
  refine ((ends_run _ _).and hright).mono (fun named state₁ hnamed => ?_) fun _ _ _ => trivial
  obtain ⟨hnamed, hlist, hempty⟩ := hnamed
  generalize ((state.noted _).added {}).heap.next = list at hlist hempty ⊢
  have hends := Form.ends_compile (fun arg harg => Node.appends_of_arg (hargs arg harg)) list state₁
    hlist.2
  refine ((ends_run _ _).and hends).mono (fun more state₂ hmore => ?_) fun _ _ _ => trivial
  obtain ⟨hrun, entries, rfl, hlists⟩ := hmore
  -- Taking the slot of the result changes neither the array nor what was compiled for it.
  refine ⟨entries, named, _, _, list, _, _, state₁, state₂, rfl, hnamed, ?_, hlist, ?_,
    hlists.nodup, ?_⟩
  · rw [Node.emitterOf_list hfield]
    exact hrun
  · have helements : entries.map Form.argument.element ≠ [] := by
      intro hnil
      have heach := hlists.each
      rw [List.map_eq_nil_iff.mp hnil] at heach
      exact hne (List.forall₂_nil_right_iff.mp heach)
    have hthere : list.index < state₂.heap.size := hlist.2.trans_le hlists.size_le
    rw [CompileState.advanced_heap, CompileState.get_withResult _ _ hthere, hlists.held, hempty,
      Cell.pushAll_of_ne_nil helements]
    rfl
  · refine hlists.each.imp fun arg entry heach =>
      heach.2.later (state₂.size_le_withResult context) fun slot hslot => ?_
    exact CompileState.get_withResult _ _ hslot.2

/-- A function takes all of its parameters, whenever it is compiled. -/
theorem Node.ends_takesAll {node : Node} {params : List Node} (hkind : node.kind = .stmtFunction)
    (hfield : node.field? "params" = some (.list (params.map .node)))
    (hparams : ∀ param ∈ params, param.kind = .param) (context : Option SlotId)
    (state : CompileState) :
    Ends (node.emitter context) state (fun ops after => node.TakesAll params state ops after)
      fun _ _ => True := by
  have hfunction : node.emitter = .noting (.routed node.kind .function)
      (.function (node.emitterOf "stmts") (node.emitterOf "name") (node.emitterOf "params")) := by
    rw [Node.emitter_eq, hkind]
    rfl
  rw [hfunction, ends_noting, ends_function]
  have hbody := (node.emitterOf_built "stmts").extends none
    (state.noted (.routed node.kind .function)) (by simp)
  refine hbody.mono (fun stmts state₀ hstmts => ?_) fun _ _ _ => trivial
  have hname := (node.emitterOf_built "name").extends (some state₀.heap.next) (state₀.added {})
    (by simp [Heap.next, size_add])
  refine ((ends_run _ _).and hname).mono (fun named state₁ hnamed => ?_) fun _ _ _ => trivial
  obtain ⟨hnamed, hadds⟩ := hnamed
  have hle := hstmts.grows.size_le
  have hle' := hadds.grows.size_le
  simp only [CompileState.added_heap, CompileState.noted_heap, size_add] at hle hle'
  -- The array is there, and empty, before the parameters are compiled.
  have hthere : state₁.heap.next.index < (state₁.added (.ofValue (.array []))).heap.size := by
    simp [Heap.next, size_add]
  rw [Node.emitterOf_list hfield]
  have hends := Form.ends_compile (fun param hparam => Node.appends_of_param (hparams param hparam))
    state₁.heap.next _ hthere
  refine ((ends_run _ _).and hends).mono (fun more state₂ hmore => ?_) fun _ _ _ => trivial
  obtain ⟨hrun, records, rfl, hlists⟩ := hmore
  have hnone : records.flatMap Form.parameter.code = [] :=
    List.flatMap_eq_nil_iff.mpr fun _ _ => rfl
  rw [hnone] at hrun
  rw [hnone, List.append_nil]
  refine ⟨records, named, stmts, _, _, state₁.heap.next, _, state₁, _, state₂, rfl, hnamed, ?_,
    ⟨?_, hthere⟩, ?_, hlists.nodup, hlists.each⟩
  · rw [Node.emitterOf_list hfield]
    exact hrun
  · show state.heap.size ≤ state₁.heap.size
    omega
  · show state₂.heap.get state₁.heap.next = _
    rw [hlists.held, CompileState.added_heap, get_add_next, Cell.pushAll_array]
    rfl

/-- Lists of arguments and of parameters are complete and in order. Wherever a call is compiled, in
any state and with or without a context, whose arguments are a list of arguments that is not empty,
it passes all of them; and wherever a function is compiled whose parameters are a list of
parameters, it takes all of them. -/
theorem lists_complete (node : Node) (context : Option SlotId) (state after : CompileState)
    (ops : List OpLine) (hrun : (node.emitter context).run.run state = (.ok ops, after)) :
    (∀ args : List Node, node.kind = .exprFuncCall →
      node.field? "args" = some (.list (args.map .node)) → args ≠ [] →
      (∀ arg ∈ args, arg.kind = .arg) → node.PassesAll args state ops after) ∧
    ∀ params : List Node, node.kind = .stmtFunction →
      node.field? "params" = some (.list (params.map .node)) →
      (∀ param ∈ params, param.kind = .param) → node.TakesAll params state ops after := by
  constructor
  · intro args hkind hfield hne hargs
    exact (Node.ends_passesAll hkind hfield hne hargs context state).of_run_ok hrun
  · intro params hkind hfield hparams
    exact (Node.ends_takesAll hkind hfield hparams context state).of_run_ok hrun

/-- An argument with a value. -/
def argumentNode (value : Child) : Node :=
  ⟨.arg, [], [("value", value)]⟩

/-- Arguments: a call with an argument of its own, a number, a sum and nothing. -/
def nestedArguments : List Node :=
  [argumentNode (.node ⟨.exprFuncCall, [], [("name", .node (variableNode "g")),
      ("args", .list [.node (argumentNode (.node (variableNode "x")))])]⟩),
    argumentNode (.scalar (.long 7)),
    argumentNode (.node ⟨.exprPlus, [], [("left", .node (variableNode "x")),
      ("right", .scalar (.long 1))]⟩),
    argumentNode .null]

/-- A call with `nestedArguments`. -/
def nestedCallNode : Node :=
  ⟨.exprFuncCall, [], [("name", .node ⟨.name, [], [("parts", .list [.scalar (.string "f")])]⟩),
    ("args", .list (nestedArguments.map .node))]⟩

/-- Parameters: one with all that a parameter can have, and one that has nothing. -/
def mixedParameters : List Node :=
  [⟨.param, [], [("name", .scalar (.string "p")), ("byRef", .scalar (.bool true)),
      ("type", .node ⟨.name, [],
        [("parts", .list [.scalar (.string "A"), .scalar (.string "B")])]⟩),
      ("default", .node nestedCallNode)]⟩,
    ⟨.param, [], []⟩]

/-- A function with `mixedParameters`. -/
def mixedFunction : Node :=
  ⟨.stmtFunction, [], [("name", .scalar (.string "f")),
    ("params", .list (mixedParameters.map .node)), ("stmts", .list [.node (variableNode "x")])]⟩

/-- In `nestedCallNode`, compiled into a slot that is there, and in `mixedFunction`, compiled
without a context, no element of the two lists is lost. -/
theorem lists_complete_nested :
    (∃ ops after, (nestedCallNode.emitter (some ⟨0⟩)).run.run (.added {} {}) = (.ok ops, after) ∧
      (ops.map fun line => line.op.mnemonic) =
        ["FETCH_VAR", "FETCH_VAR", "CALL", "FETCH_VAR", "ADD", "CALL"] ∧
      nestedCallNode.PassesAll nestedArguments (.added {} {}) ops after) ∧
    ∃ ops after, (mixedFunction.emitter none).run.run {} = (.ok ops, after) ∧
      (ops.map fun line => line.op.mnemonic) = ["FUNC"] ∧
      mixedFunction.TakesAll mixedParameters {} ops after := by
  have hcall : ((nestedCallNode.emitter (some ⟨0⟩)).run.run (.added {} {})).1.toOption.map
      (List.map fun line => line.op.mnemonic) =
        some ["FETCH_VAR", "FETCH_VAR", "CALL", "FETCH_VAR", "ADD", "CALL"] := by decide +kernel
  have hfunction : ((mixedFunction.emitter none).run.run {}).1.toOption.map
      (List.map fun line => line.op.mnemonic) = some ["FUNC"] := by decide +kernel
  constructor
  · rcases hrun : (nestedCallNode.emitter (some ⟨0⟩)).run.run (.added {} {}) with ⟨e | ops, after⟩
    · rw [hrun] at hcall
      cases hcall
    · rw [hrun] at hcall
      refine ⟨ops, after, rfl, Option.some.inj hcall, ?_⟩
      exact (lists_complete nestedCallNode _ _ after ops hrun).1 nestedArguments rfl rfl
        (List.cons_ne_nil _ _) (by decide +kernel)
  · rcases hrun : (mixedFunction.emitter none).run.run {} with ⟨e | ops, after⟩
    · rw [hrun] at hfunction
      cases hfunction
    · rw [hrun] at hfunction
      refine ⟨ops, after, rfl, Option.some.inj hfunction, ?_⟩
      exact (lists_complete mixedFunction _ _ after ops hrun).2 mixedParameters rfl rfl
        (by decide +kernel)

end Lowering
