import Lowering.Proofs.Tree.Walk

/-!
# What the compiled fields hold

A literal in a field that is compiled meets one of two fates. Alone in a field that has a slot of
its own it is folded into that slot; anywhere else it has no effect. `findings` reads the fate of
every literal off a tree, in the order in which the fields are compiled, together with the
parameters that are declared on the way. It knows of no emitters.

`Node.assemble` is the other half of the compiler: how a node is put together from its fields,
whatever these compile to.
-/

namespace Lowering

open Emitter (Declaration inTurn)

/-- What compiling a tree comes across. -/
inductive Finding where
  /-- A literal that is written into the slot of its field. -/
  | folded (literal : Scalar)
  /-- A literal without an effect. -/
  | dropped (literal : Scalar)
  /-- A parameter. -/
  | declared (declaration : Declaration)

/-- A literal that is all there is in a field, with a slot for the field or without one. -/
def Finding.single (inSlot : Bool) (literal : Scalar) : Finding :=
  if inSlot then .folded literal else .dropped literal

/-- The fields that a descriptor has compiled. -/
def Descriptor.fields : Descriptor → List String
  | .argument field | .unary _ field => [field]
  | .literal _ _ => []
  | .binary _ left right => [left, right]

/-- Whether a field that is compiled has a slot of its own: all do but those of statements. -/
def hasSlot (name : String) : Bool :=
  name != "stmts"

/-- The fields that a descriptor names have slots of their own. -/
theorem NodeKind.hasSlot_of_descriptor : ∀ {kind : NodeKind} {descriptor : Descriptor},
    kind.descriptor? = some descriptor → ∀ name ∈ descriptor.fields, hasSlot name = true := by
  intro kind descriptor h
  cases kind <;> simp only [NodeKind.descriptor?, Option.some.injEq, reduceCtorEq] at h <;>
    subst h <;> decide

/-- A kind with a descriptor has no routine. -/
theorem NodeKind.routine?_of_descriptor {kind : NodeKind} {descriptor : Descriptor}
    (h : kind.descriptor? = some descriptor) : kind.routine? = none := by
  cases kind <;> first | rfl | simp [NodeKind.descriptor?] at h

/-- The parameter that a node declares, if it is one. -/
def Node.declared (node : Node) : List Finding :=
  match node.kind.routine? with
  | some .param => [.declared node.declaration]
  | _ => []

/-- The contents of the fields that are compiled for a node are smaller than the node. -/
theorem Node.sizeOf_lt_of_compiled {node owner : Node} {name : String} {child : Child}
    (hmem : (owner, name) ∈ node.compiledFields) (hfield : owner.field? name = some child) :
    sizeOf child < sizeOf node :=
  Node.sizeOf_lt_of_mem_contents (List.mem_filterMap.mpr ⟨(owner, name), hmem, hfield⟩)

mutual

/-- What compiling a node comes across: the contents of the fields that are compiled for it, in
order, and then the parameter that it declares itself. -/
def Node.findings (node : Node) : List Finding :=
  node.compiledFields.attach.flatMap (fun ⟨(owner, name), _⟩ =>
    match _ : owner.field? name with
    | some child => child.findings (hasSlot name)
    | none => []) ++ node.declared
termination_by sizeOf node
decreasing_by exact Node.sizeOf_lt_of_compiled ‹_› ‹_›

/-- What compiling the whole content of a field comes across. -/
def Child.findings (inSlot : Bool) : Child → List Finding
  | .null => []
  | .node n => n.findings
  | .list [.scalar s] => [.single inSlot s]
  | .list items => itemFindings items
  | .scalar s => [.single inSlot s]
termination_by child => sizeOf child

/-- What compiling the items of a list comes across, from left to right and through nested lists. -/
def itemFindings : List Child → List Finding
  | [] => []
  | .null :: rest => itemFindings rest
  | .node n :: rest => n.findings ++ itemFindings rest
  | .list items :: rest => itemFindings items ++ itemFindings rest
  | .scalar s :: rest => .dropped s :: itemFindings rest
termination_by items => sizeOf items

end

/-- What compiling a statement list comes across. -/
def findings (nodes : List Node) : List Finding :=
  nodes.flatMap Node.findings

/-- What compiling the field with a name comes across. -/
def Node.findingsOf (node : Node) (name : String) (inSlot : Bool) : List Finding :=
  ((node.field? name).map (Child.findings inSlot)).getD []

/-- What compiling a node comes across is found in the fields that are compiled for it, before the
parameter that it declares. -/
theorem Node.findings_eq (node : Node) :
    node.findings = node.compiledFields.flatMap (fun (owner, name) =>
      owner.findingsOf name (hasSlot name)) ++ node.declared := by
  rw [Node.findings]
  rw [List.flatMap_subtype (g := fun (owner, name) => owner.findingsOf name (hasSlot name)),
    List.unattach_attach]
  rintro ⟨owner, name⟩ hfield
  unfold Node.findingsOf
  dsimp only
  split <;> simp [*]

/-! ## Putting a node together -/

/-- The compilation of a node with a given one for each of its fields. -/
def Node.assemble (node : Node) (part : Node → String → Emitter) : Emitter :=
  match node.kind.descriptor? with
  | some descriptor =>
    .noting (.dispatched node.kind descriptor) <|
      match descriptor with
      | .argument field => .argument (part node field)
      | .literal field separator => .constant (node.constant field separator)
      | .unary operation field => .unary operation (part node field)
      | .binary operation left right => .binary operation (part node left) (part node right)
  | none =>
    match node.kind.routine? with
    | none => .unsupported node.kind
    | some routine =>
      .noting (.routed node.kind routine) <|
        match routine with
        | .param => .parameter node.declaration (part node "default")
        | .function => .function (part node "stmts") (part node "name") (part node "params")
        | .conditional =>
          .conditional
            ((node :: node.nodes "elseifs").map fun branch =>
              ⟨part branch "cond", part branch "stmts"⟩)
            (inTurn ((node.nodes "else").map fun branch => part branch "stmts"))
        | .whileLoop => .whileLoop ⟨part node "cond", part node "stmts"⟩
        | .doLoop => .doLoop ⟨part node "cond", part node "stmts"⟩
        | .inlineHtml => .inlineText (node.constant "value" none)

/-- A node is put together from the emitters of its fields. -/
theorem Node.emitter_eq_assemble (node : Node) : node.emitter = node.assemble Node.emitterOf := by
  rw [Node.emitter_eq, Node.assemble]
  rcases node.kind.descriptor? with _ | descriptor
  · rcases node.kind.routine? with _ | routine
    · rfl
    · cases routine with
      | conditional => simp only [funext Node.branch_eq, funext Node.statements_eq]
      | whileLoop => simp only [Node.branch_eq]
      | doLoop => simp only [Node.branch_eq]
      | _ => rfl
  · cases descriptor <;> rfl

end Lowering
