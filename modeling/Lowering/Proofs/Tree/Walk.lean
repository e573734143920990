import Lowering.Proofs.Compile.Built

/-!
# The fields that compile

A strategy names the fields of a node that it has compiled, and their order. `Node.compiledFields`
is that table, read off the kinds alone, and `Node.walk` follows it down a tree: it lists the nodes
that are compiled, each before its content. Neither of them knows of emitters.

`Node.emitter_eq` says the same of the compiler: the emitter of a node is made from those of the
fields in the table, each looked up by its name. A property of emitters that depends on the nodes
that stand in a field is then proved of trees in one step, from the fields of a node to the node
(`Node.emitter_gathers`).
-/

namespace Lowering

/-! ## The walk -/

/-- The fields that are compiled for a node, in order, each with the node that it is a field of. A
conditional has the fields of its branches compiled as well, whatever their kinds are. -/
def Node.compiledFields (node : Node) : List (Node × String) :=
  match node.kind.descriptor? with
  | some (.argument field) | some (.unary _ field) => [(node, field)]
  | some (.literal _ _) => []
  | some (.binary _ left right) => [(node, left), (node, right)]
  | none =>
    match node.kind.routine? with
    | none | some .inlineHtml => []
    | some .param => [(node, "default")]
    | some .function => [(node, "stmts"), (node, "name"), (node, "params")]
    | some .conditional =>
      (node :: node.nodes "elseifs").flatMap
          (fun branch => [(branch, "cond"), (branch, "stmts")]) ++
        (node.nodes "else").map fun branch => (branch, "stmts")
    | some .whileLoop => [(node, "cond"), (node, "stmts")]
    | some .doLoop => [(node, "stmts"), (node, "cond")]

/-- Whether nodes of a kind apply an operation to operands. -/
def NodeKind.isOperation (kind : NodeKind) : Bool :=
  match kind.descriptor? with
  | some (.unary _ _) | some (.binary _ _ _) => true
  | _ => false

/-- The fields of a node that are compiled into a slot of their own, each with the node that it is a
field of. -/
def Node.operandFields (node : Node) : List (Node × String) :=
  match node.kind.descriptor? with
  | some (.argument field) | some (.unary _ field) => [(node, field)]
  | some (.literal _ _) => []
  | some (.binary _ left right) => [(node, left), (node, right)]
  | none =>
    match node.kind.routine? with
    | none | some .inlineHtml => []
    | some .param => [(node, "default")]
    | some .function => [(node, "name"), (node, "params")]
    | some .conditional => (node :: node.nodes "elseifs").map fun branch => (branch, "cond")
    | some .whileLoop | some .doLoop => [(node, "cond")]

/-- The fields that are compiled into a slot are among those that are compiled. -/
theorem Node.operandFields_subset (node : Node) : node.operandFields ⊆ node.compiledFields := by
  unfold Node.operandFields Node.compiledFields
  rcases node.kind.descriptor? with _ | descriptor
  · rcases node.kind.routine? with _ | routine
    · exact List.Subset.refl _
    · cases routine with
      | conditional =>
        intro field hfield
        obtain ⟨branch, hbranch, rfl⟩ := List.mem_map.mp hfield
        exact List.mem_append_left _ (List.mem_flatMap.mpr ⟨branch, hbranch, List.mem_cons_self⟩)
      | _ => simp
  · cases descriptor <;> exact List.Subset.refl _

/-- The contents that are compiled for a node, in order. -/
def Node.contents (node : Node) : List Child :=
  node.compiledFields.filterMap fun (owner, name) => owner.field? name

section

variable {node owner : Node} {name : String} {child : Child}

/-- A content that is found in fields is smaller than they are. -/
theorem Child.sizeOf_lt_of_lookup : ∀ {fields : List (String × Child)},
    fields.lookup name = some child → sizeOf child < sizeOf fields
  | [], h => by simp at h
  | (other, content) :: rest, h => by
    rw [Fields.lookup_cons] at h
    split at h
    · obtain rfl := Option.some.inj h
      simp only [List.cons.sizeOf_spec, Prod.mk.sizeOf_spec]
      omega
    · have hrest := Child.sizeOf_lt_of_lookup h
      simp only [List.cons.sizeOf_spec]
      omega

/-- The content of a field is smaller than the node. -/
theorem Node.sizeOf_field?_lt (h : node.field? name = some child) : sizeOf child < sizeOf node := by
  have hfields := Child.sizeOf_lt_of_lookup h
  cases node
  simp only [Node.mk.sizeOf_spec] at hfields ⊢
  omega

/-- The nodes that stand directly in a content are smaller than the content. -/
theorem Child.sizeOf_lt_of_mem_nodes (h : node ∈ child.nodes) : sizeOf node < sizeOf child := by
  cases child with
  | null => simp [Child.nodes] at h
  | scalar s => simp [Child.nodes] at h
  | node n =>
    obtain rfl : node = n := by simpa [Child.nodes] using h
    simp
  | list items =>
    obtain ⟨item, hitem, heq⟩ := List.mem_filterMap.mp h
    have hitems := List.sizeOf_lt_of_mem hitem
    cases item <;> simp at heq
    subst heq
    simp only [Child.node.sizeOf_spec, Child.list.sizeOf_spec] at hitems ⊢
    omega

/-- The nodes that stand directly in a field are smaller than the node that the field is of. -/
theorem Node.sizeOf_lt_of_mem_nodes (h : owner ∈ node.nodes name) : sizeOf owner < sizeOf node := by
  unfold Node.nodes at h
  rcases hfield : node.field? name with _ | content
  · simp [hfield] at h
  · rw [hfield] at h
    exact Nat.lt_trans (Child.sizeOf_lt_of_mem_nodes h) (Node.sizeOf_field?_lt hfield)

/-- A field that is compiled for a node is its own or that of a node in one of its fields. -/
theorem Node.owner_of_mem_compiledFields (h : (owner, name) ∈ node.compiledFields) :
    owner = node ∨ ∃ field, owner ∈ node.nodes field := by
  unfold Node.compiledFields at h
  split at h
  case h_5 =>
    split at h
    case h_5 =>
      simp only [List.mem_append, List.mem_flatMap, List.mem_map, List.mem_cons, Prod.mk.injEq,
        List.not_mem_nil, or_false] at h
      rcases h with ⟨branch, hbranch, hfield⟩ | ⟨branch, hbranch, rfl, -⟩
      · obtain rfl : owner = branch := hfield.elim And.left And.left
        exact hbranch.imp_right fun hmem => ⟨_, hmem⟩
      · exact Or.inr ⟨_, hbranch⟩
    all_goals grind
  all_goals grind

/-- A content that is compiled for a node is smaller than the node. -/
theorem Node.sizeOf_lt_of_mem_contents (h : child ∈ node.contents) :
    sizeOf child < sizeOf node := by
  obtain ⟨⟨owner, name⟩, hmem, hfield⟩ := List.mem_filterMap.mp h
  have hlt := Node.sizeOf_field?_lt hfield
  rcases Node.owner_of_mem_compiledFields hmem with rfl | ⟨field, hnodes⟩
  · exact hlt
  · exact Nat.lt_trans hlt (Node.sizeOf_lt_of_mem_nodes hnodes)

end

mutual

/-- The nodes that are compiled for a node: itself, and then those of its contents. -/
def Node.walk (node : Node) : List Node :=
  node :: node.contents.attach.flatMap fun ⟨child, _⟩ => child.walk
termination_by sizeOf node
decreasing_by exact Node.sizeOf_lt_of_mem_contents ‹_›

/-- The nodes that are compiled for a content, from left to right and through nested lists. -/
def Child.walk : Child → List Node
  | .node n => n.walk
  | .list items => items.flatMap Child.walk
  | .null | .scalar _ => []
termination_by child => sizeOf child

end

/-- The nodes that are compiled for a statement list. -/
def walk (nodes : List Node) : List Node :=
  nodes.flatMap Node.walk

/-- The walk through a single statement is that through its nodes. -/
theorem walk_singleton (node : Node) : walk [node] = node.walk :=
  List.flatMap_singleton ..

/-- Statements one after another are walked through in order. -/
theorem walk_append (nodes more : List Node) : walk (nodes ++ more) = walk nodes ++ walk more :=
  List.flatMap_append

/-- A node is met first, and then the nodes of the contents that are compiled for it. -/
theorem Node.walk_eq (node : Node) : node.walk = node :: node.contents.flatMap Child.walk := by
  rw [Node.walk, List.flatMap_subtype fun _ _ => rfl, List.unattach_attach]

/-- The nodes that are compiled for the field with a name. -/
def Node.walkOf (node : Node) (name : String) : List Node :=
  ((node.field? name).map Child.walk).getD []

/-- The walk of a node goes through the fields that are compiled for it. -/
theorem Node.walk_eq_fields (node : Node) :
    node.walk = node :: node.compiledFields.flatMap fun (owner, name) => owner.walkOf name := by
  rw [Node.walk_eq, Node.contents]
  congr 1
  induction node.compiledFields with
  | nil => rfl
  | cons field rest ih =>
    obtain ⟨owner, name⟩ := field
    rw [List.flatMap_cons, ← ih]
    rcases hfield : owner.field? name with _ | content <;> simp [Node.walkOf, hfield]

/-! ## The nodes in a field -/

mutual

/-- The nodes that stand in a content, from left to right and through nested lists. -/
def Child.members : Child → List Node
  | .node n => [n]
  | .list items => membersIn items
  | .null | .scalar _ => []

/-- The nodes that stand in contents, from left to right and through nested lists. -/
def membersIn : List Child → List Node
  | [] => []
  | child :: rest => child.members ++ membersIn rest

end

/-- The nodes that stand in the field with a name. -/
def Node.membersOf (node : Node) (name : String) : List Node :=
  ((node.field? name).map Child.members).getD []

mutual

/-- A node that stands in a content is smaller than the content. -/
theorem Child.sizeOf_lt_of_mem_members {node : Node} : ∀ {child : Child},
    node ∈ child.members → sizeOf node < sizeOf child
  | .null, h | .scalar _, h => by simp [Child.members] at h
  | .node n, h => by
    obtain rfl : node = n := by simpa [Child.members] using h
    simp
  | .list items, h => by
    have hitems := sizeOf_lt_of_mem_membersIn h
    simp only [Child.list.sizeOf_spec]
    omega

/-- A node that stands in contents is smaller than they are. -/
theorem sizeOf_lt_of_mem_membersIn {node : Node} : ∀ {items : List Child},
    node ∈ membersIn items → sizeOf node < sizeOf items
  | [], h => by simp [membersIn] at h
  | child :: rest, h => by
    simp only [List.cons.sizeOf_spec]
    rcases List.mem_append.mp h with hmem | hmem
    · have hchild := Child.sizeOf_lt_of_mem_members hmem
      omega
    · have hrest := sizeOf_lt_of_mem_membersIn hmem
      omega

end

mutual

/-- The walk of a content goes through the nodes that stand in it. -/
theorem Child.walk_eq_members : ∀ child : Child, child.walk = Lowering.walk child.members
  | .null | .scalar _ => by rw [Child.walk, Child.members, Lowering.walk, List.flatMap_nil]
  | .node n => by rw [Child.walk, Child.members, walk_singleton]
  | .list items => by
    rw [Child.walk, Child.members]
    exact flatMap_walk_eq_members items

/-- Walking through contents is walking through the nodes that stand in them. -/
theorem flatMap_walk_eq_members : ∀ items : List Child,
    items.flatMap Child.walk = walk (membersIn items)
  | [] => rfl
  | child :: rest => by
    rw [List.flatMap_cons, membersIn, walk_append, Child.walk_eq_members child,
      flatMap_walk_eq_members rest]

end

/-- Walking through a field is walking through the nodes that stand in it. -/
theorem Node.walkOf_eq_members (node : Node) (name : String) :
    node.walkOf name = Lowering.walk (node.membersOf name) := by
  unfold Node.walkOf Node.membersOf
  rcases node.field? name with _ | content
  · rfl
  · exact content.walk_eq_members

/-- The nodes in a field that is compiled for a node are smaller than the node. -/
theorem Node.sizeOf_lt_of_mem_membersOf {node owner member : Node} {name : String}
    (hfield : (owner, name) ∈ node.compiledFields) (hmember : member ∈ owner.membersOf name) :
    sizeOf member < sizeOf node := by
  unfold Node.membersOf at hmember
  rcases hcontent : owner.field? name with _ | content
  · simp [hcontent] at hmember
  · rw [hcontent] at hmember
    have hcontents : content ∈ node.contents :=
      List.mem_filterMap.mpr ⟨(owner, name), hfield, hcontent⟩
    exact Nat.lt_trans (Child.sizeOf_lt_of_mem_members hmember)
      (Node.sizeOf_lt_of_mem_contents hcontents)

/-! ## Emitters by field -/

/-- The compilation of the field with a name; a field that is missing has no code. -/
def Node.emitterOf (node : Node) (name : String) : Emitter :=
  ((node.field? name).map Child.emitter).getD .skip

namespace Emitter

/-- The code of pieces one after another. -/
def inTurn (emitters : List Emitter) : Emitter :=
  emitters.foldr append skip

/-- No code behind a piece adds nothing to it. -/
theorem append_skip (emitter : Emitter) : append emitter skip = emitter := by
  funext context
  simp [append, skip]

end Emitter

open Emitter (inTurn)

/-- The code of a field is that of its content, and none if the field is missing. -/
theorem fieldEmitter_eq (name : String) (fields : List (String × Child)) :
    fieldEmitter name fields = ((fields.lookup name).map Child.emitter).getD .skip := by
  induction fields with
  | nil => simp [fieldEmitter]
  | cons field rest ih =>
    obtain ⟨other, child⟩ := field
    rw [fieldEmitter, Fields.lookup_cons]
    by_cases h : name = other
    · simp [h]
    · simpa [h] using ih

/-- A branch has the code of the condition and of the statements of its node. -/
theorem Node.branch_eq (node : Node) :
    node.branch = ⟨node.emitterOf "cond", node.emitterOf "stmts"⟩ := by
  obtain ⟨kind, attributes, fields⟩ := node
  rw [Node.branch, fieldEmitter_eq, fieldEmitter_eq]
  rfl

/-- The statements of a node are the code of one of its fields. -/
theorem Node.statements_eq (node : Node) : node.statements = node.emitterOf "stmts" := by
  obtain ⟨kind, attributes, fields⟩ := node
  rw [Node.statements, fieldEmitter_eq]
  rfl

/-- The branches in a content are those of its nodes. -/
theorem Child.branches_eq (child : Child) : child.branches = child.nodes.map Node.branch := by
  have hitems : ∀ items, itemBranches items = (Child.list items).nodes.map Node.branch := by
    intro items
    induction items with
    | nil => rfl
    | cons item rest ih => cases item <;> simp [itemBranches, ih, Child.nodes]
  cases child with
  | list items => exact hitems items
  | _ => simp [Child.branches, Child.nodes]

/-- The statements of the nodes in a content stand one after another. -/
theorem Child.alternative_eq (child : Child) :
    child.alternative = inTurn (child.nodes.map Node.statements) := by
  have hitems : ∀ items, itemAlternatives items =
      inTurn ((Child.list items).nodes.map Node.statements) := by
    intro items
    induction items with
    | nil => rfl
    | cons item rest ih => cases item <;> simp [itemAlternatives, ih, Child.nodes, inTurn]
  cases child with
  | list items => exact hitems items
  | node n => exact (Emitter.append_skip n.statements).symm
  | _ => simp [Child.alternative, Child.nodes, inTurn]

/-- The further branches of a conditional are those of the nodes in one of its fields. -/
theorem branches_eq (fields : List (String × Child)) :
    branches fields =
      (((fields.lookup "elseifs").map Child.nodes).getD []).map Node.branch := by
  induction fields with
  | nil => simp [branches]
  | cons field rest ih =>
    obtain ⟨other, child⟩ := field
    rw [branches, Fields.lookup_cons]
    by_cases h : "elseifs" = other
    · simp [h, Child.branches_eq]
    · simpa [h] using ih

/-- The statements behind all branches are those of the nodes in one of its fields. -/
theorem alternative_eq (fields : List (String × Child)) :
    alternative fields =
      inTurn ((((fields.lookup "else").map Child.nodes).getD []).map Node.statements) := by
  induction fields with
  | nil => simp [alternative, inTurn]
  | cons field rest ih =>
    obtain ⟨other, child⟩ := field
    rw [alternative, Fields.lookup_cons]
    by_cases h : "else" = other
    · simp [h, Child.alternative_eq]
    · simpa [h] using ih

/-- The emitter of a node, with every field looked up by its name. -/
theorem Node.emitter_eq (node : Node) :
    node.emitter =
      match node.kind.descriptor? with
      | some descriptor =>
        .noting (.dispatched node.kind descriptor) <|
          match descriptor with
          | .argument field => .argument (node.emitterOf field)
          | .literal field separator => .constant (node.constant field separator)
          | .unary operation field => .unary operation (node.emitterOf field)
          | .binary operation left right =>
            .binary operation (node.emitterOf left) (node.emitterOf right)
      | none =>
        match node.kind.routine? with
        | none => .unsupported node.kind
        | some routine =>
          .noting (.routed node.kind routine) <|
            match routine with
            | .param => .parameter node.declaration (node.emitterOf "default")
            | .function =>
              .function (node.emitterOf "stmts") (node.emitterOf "name") (node.emitterOf "params")
            | .conditional =>
              .conditional ((node :: node.nodes "elseifs").map Node.branch)
                (inTurn ((node.nodes "else").map Node.statements))
            | .whileLoop => .whileLoop node.branch
            | .doLoop => .doLoop node.branch
            | .inlineHtml => .inlineText (node.constant "value" none) := by
  have hbranch := Node.branch_eq node
  obtain ⟨kind, attributes, fields⟩ := node
  simp only [Node.emitter, fieldEmitter_eq, branches_eq, alternative_eq, List.map_cons, hbranch]
  rfl

/-! ## From fields to trees -/

/-- A property of emitters and of the nodes that they are for is kept when code is put together, and
literals, which are for no nodes, have it. -/
structure Emitter.Gathers (P : Emitter → List Node → Prop) : Prop where
  skip : P .skip []
  append : ∀ {first second : Emitter} {nodes more : List Node},
    P first nodes → P second more → P (.append first second) (nodes ++ more)
  folded : ∀ literal, P (.folded literal) []
  dropped : ∀ literal, P (.dropped literal) []

section

variable {P : Emitter → List Node → Prop}

mutual

/-- What holds of the nodes in a content holds of the content. -/
theorem Child.emitter_gathers (hP : Emitter.Gathers P) : ∀ child : Child,
    (∀ node ∈ child.members, P node.emitter [node]) → P child.emitter child.members
  | .null, _ => by
    rw [Child.emitter, Child.members]
    exact hP.skip
  | .node n, h => by
    rw [Child.emitter]
    exact h n (List.mem_singleton_self n)
  | .list items, h => by
    rcases Child.emitter_list items with ⟨s, rfl, hfolded⟩ | hitems
    · rw [hfolded]
      exact hP.folded s
    · rw [hitems]
      exact itemsEmitter_gathers hP items h
  | .scalar s, _ => by
    rw [Child.emitter, Child.members]
    exact hP.folded s

/-- What holds of the nodes in the items of a list holds of the items. -/
theorem itemsEmitter_gathers (hP : Emitter.Gathers P) : ∀ items : List Child,
    (∀ node ∈ membersIn items, P node.emitter [node]) → P (itemsEmitter items) (membersIn items)
  | [], _ => by
    rw [itemsEmitter]
    exact hP.skip
  | .null :: rest, h => by
    rw [itemsEmitter]
    exact itemsEmitter_gathers hP rest h
  | .node n :: rest, h => by
    rw [itemsEmitter]
    obtain ⟨hnode, hrest⟩ := List.forall_mem_append.mp h
    exact hP.append (hnode n (List.mem_singleton_self n)) (itemsEmitter_gathers hP rest hrest)
  | .list items :: rest, h => by
    rw [itemsEmitter]
    obtain ⟨hitems, hrest⟩ := List.forall_mem_append.mp h
    exact hP.append (itemsEmitter_gathers hP items hitems) (itemsEmitter_gathers hP rest hrest)
  | .scalar s :: rest, h => by
    rw [itemsEmitter]
    exact hP.append (hP.dropped s) (itemsEmitter_gathers hP rest h)

end

/-- What holds of a node if it holds of the fields that are compiled for it holds of all nodes. -/
theorem Node.emitter_gathers (hP : Emitter.Gathers P)
    (hnode : ∀ node : Node, (∀ owner name, (owner, name) ∈ node.compiledFields →
      P (owner.emitterOf name) (owner.membersOf name)) → P node.emitter [node]) (node : Node) :
    P node.emitter [node] := by
  refine hnode node fun owner name hfield => ?_
  have hmembers : ∀ member ∈ owner.membersOf name, P member.emitter [member] := by
    intro member hmember
    -- The owner may be a node in another field, so the step down is by size, not by structure.
    have hlt := Node.sizeOf_lt_of_mem_membersOf hfield hmember
    exact Node.emitter_gathers hP hnode member
  unfold Node.membersOf at hmembers ⊢
  unfold Node.emitterOf
  rcases hcontent : owner.field? name with _ | content
  · exact hP.skip
  · rw [hcontent] at hmembers
    exact Child.emitter_gathers hP content hmembers
termination_by sizeOf node

/-- What holds of statements holds of statement lists. -/
theorem compile_gathers (hP : Emitter.Gathers P) (nodes : List Node)
    (h : ∀ node ∈ nodes, P node.emitter [node]) : P (compile nodes) nodes := by
  induction nodes with
  | nil => exact hP.skip
  | cons node rest ih =>
    obtain ⟨hnode, hrest⟩ := List.forall_mem_cons.mp h
    exact hP.append hnode (ih hrest)

end

end Lowering
