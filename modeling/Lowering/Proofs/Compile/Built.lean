import Lowering.Compile

/-!
# Emitters that come from trees

Every emitter of a tree is put together by the operations of `Emitter` from literals.
`Emitter.Built` says this of an emitter, and `compile_built` of all statement lists. What holds of
all code that is compiled is then proved by induction on `Built`: one case for each way of
compiling, and no recursion over trees.
-/

namespace Lowering

/-! ## Literal values -/

mutual

/-- A value of literals and lists of them. -/
def Value.IsLiteral : Value → Prop
  | .null | .bool _ | .long _ | .double _ | .string _ => True
  | .array items => AllLiteral items
  | .slot _ | .param _ => False

/-- Values of literals and lists of them. -/
def AllLiteral : List Value → Prop
  | [] => True
  | value :: rest => value.IsLiteral ∧ AllLiteral rest

end

/-- The value of a literal is a value of literals. -/
theorem Scalar.toValue_isLiteral (s : Scalar) : s.toValue.IsLiteral := by
  cases s <;> trivial

mutual

/-- Literal content of a tree is a literal value. -/
theorem Child.toValue_isLiteral : ∀ child : Child, child.toValue.IsLiteral
  | .null | .node _ => by simp [Child.toValue, Value.IsLiteral]
  | .scalar s => by
    rw [Child.toValue]
    exact s.toValue_isLiteral
  | .list items => by
    rw [Child.toValue, Value.IsLiteral]
    exact childValues_allLiteral items

/-- Literal contents of a tree are literal values. -/
theorem childValues_allLiteral : ∀ items : List Child, AllLiteral (childValues items)
  | [] => by simp [childValues, AllLiteral]
  | child :: rest => by
    rw [childValues, AllLiteral]
    exact ⟨Child.toValue_isLiteral child, childValues_allLiteral rest⟩

end

/-- The constant in a field of a node is a literal value. -/
theorem Node.constant_isLiteral (node : Node) (field : String) (separator : Option String) :
    (node.constant field separator).value.IsLiteral := by
  unfold Node.constant
  split
  · trivial
  · exact Child.toValue_isLiteral _
  · trivial

/-! ## Construction -/

namespace Emitter

/-- Emitters that are put together from literals. -/
inductive Built : Emitter → Prop where
  | skip : Built skip
  | append {first second : Emitter} : Built first → Built second → Built (append first second)
  | noting {emitter : Emitter} (event : Event) : Built emitter → Built (noting event emitter)
  | unsupported (kind : NodeKind) : Built (unsupported kind)
  | dropped (literal : Scalar) : Built (dropped literal)
  | folded (literal : Scalar) : Built (folded literal)
  | constant {literal : Constant} : literal.value.IsLiteral → Built (constant literal)
  | unary {operand : Emitter} (kind : UnaryKind) : Built operand → Built (unary kind operand)
  | binary {left right : Emitter} (kind : BinaryKind) :
      Built left → Built right → Built (binary kind left right)
  | argument {value : Emitter} : Built value → Built (argument value)
  | inlineText {text : Constant} : text.value.IsLiteral → Built (inlineText text)
  | parameter {default : Emitter} (declaration : Declaration) :
      Built default → Built (parameter declaration default)
  | function {body name params : Emitter} :
      Built body → Built name → Built params → Built (function body name params)
  | conditional {first : Branch} {rest : List Branch} {otherwise : Emitter} :
      (∀ branch ∈ first :: rest, Built branch.cond) →
        (∀ branch ∈ first :: rest, Built branch.stmts) → Built otherwise →
          Built (conditional (first :: rest) otherwise)
  | whileLoop {loop : Branch} : Built loop.cond → Built loop.stmts → Built (whileLoop loop)
  | doLoop {loop : Branch} : Built loop.cond → Built loop.stmts → Built (doLoop loop)

/-- A branch whose two parts are put together from literals. -/
def Branch.Built (branch : Branch) : Prop :=
  Emitter.Built branch.cond ∧ Emitter.Built branch.stmts

/-- A conditional of built branches, of which there is at least one. -/
theorem Built.conditional_of_branches {first : Branch} {rest : List Branch} {otherwise : Emitter}
    (hbranches : ∀ branch ∈ first :: rest, branch.Built) (hotherwise : Built otherwise) :
    Built (Emitter.conditional (first :: rest) otherwise) :=
  .conditional (fun branch h => (hbranches branch h).1) (fun branch h => (hbranches branch h).2)
    hotherwise

end Emitter

open Emitter (Built)

/-- A list is a folded literal when it has nothing else, and else compiles item by item. -/
theorem Child.emitter_list (items : List Child) :
    (∃ s, items = [.scalar s] ∧ (Child.list items).emitter = .folded s) ∨
      (Child.list items).emitter = itemsEmitter items := by
  by_cases h : ∃ s, items = [.scalar s]
  · obtain ⟨s, rfl⟩ := h
    exact Or.inl ⟨s, rfl, by simp [Child.emitter]⟩
  · refine Or.inr ?_
    rw [Child.emitter]
    exact fun s hs => h ⟨s, hs⟩

mutual

/-- The emitter of a node is built. -/
theorem Node.emitter_built : ∀ node : Node, Built node.emitter
  | ⟨kind, attributes, fields⟩ => by
    unfold Node.emitter
    split
    · refine .noting _ ?_
      split
      · exact .argument (fieldEmitter_built _ fields)
      · exact .constant (Node.constant_isLiteral _ _ _)
      · exact .unary _ (fieldEmitter_built _ fields)
      · exact .binary _ (fieldEmitter_built _ fields) (fieldEmitter_built _ fields)
    · split
      · exact .unsupported kind
      · refine .noting _ ?_
        split
        · exact .parameter _ (fieldEmitter_built _ fields)
        · exact .function (fieldEmitter_built _ fields) (fieldEmitter_built _ fields)
            (fieldEmitter_built _ fields)
        · refine .conditional_of_branches ?_ (alternative_built fields)
          intro branch hbranch
          rcases List.mem_cons.mp hbranch with rfl | hbranch
          · exact ⟨fieldEmitter_built _ fields, fieldEmitter_built _ fields⟩
          · exact branches_built fields branch hbranch
        · exact .whileLoop (fieldEmitter_built _ fields) (fieldEmitter_built _ fields)
        · exact .doLoop (fieldEmitter_built _ fields) (fieldEmitter_built _ fields)
        · exact .inlineText (Node.constant_isLiteral _ _ _)

/-- The emitter of a field is built. -/
theorem fieldEmitter_built (name : String) :
    ∀ fields : List (String × Child), Built (fieldEmitter name fields)
  | [] => by unfold fieldEmitter; exact .skip
  | (other, child) :: rest => by
    unfold fieldEmitter
    split
    · exact Child.emitter_built child
    · exact fieldEmitter_built name rest

/-- The emitter of the content of a field is built. -/
theorem Child.emitter_built : ∀ child : Child, Built child.emitter
  | .null => by unfold Child.emitter; exact .skip
  | .node n => by unfold Child.emitter; exact Node.emitter_built n
  | .list items => by
    rcases Child.emitter_list items with ⟨s, -, hfolded⟩ | hitems
    · rw [hfolded]; exact .folded s
    · rw [hitems]; exact itemsEmitter_built items
  | .scalar s => by unfold Child.emitter; exact .folded s

/-- The emitter of the items of a list is built. -/
theorem itemsEmitter_built : ∀ items : List Child, Built (itemsEmitter items)
  | [] => by unfold itemsEmitter; exact .skip
  | .null :: rest => by unfold itemsEmitter; exact itemsEmitter_built rest
  | .node n :: rest => by
    unfold itemsEmitter
    exact .append (Node.emitter_built n) (itemsEmitter_built rest)
  | .list items :: rest => by
    unfold itemsEmitter
    exact .append (itemsEmitter_built items) (itemsEmitter_built rest)
  | .scalar s :: rest => by
    unfold itemsEmitter
    exact .append (.dropped s) (itemsEmitter_built rest)

/-- A node taken as a branch is built. -/
theorem Node.branch_built : ∀ node : Node, node.branch.Built
  | ⟨_, _, fields⟩ => by
    unfold Node.branch
    exact ⟨fieldEmitter_built _ fields, fieldEmitter_built _ fields⟩

/-- The further branches of a conditional are built. -/
theorem branches_built :
    ∀ (fields : List (String × Child)), ∀ branch ∈ branches fields, branch.Built
  | [] => by simp [branches]
  | (name, child) :: rest => by
    unfold branches
    split
    · exact Child.branches_built child
    · exact branches_built rest

/-- The branches in a content are built. -/
theorem Child.branches_built : ∀ child : Child, ∀ branch ∈ child.branches, branch.Built
  | .null | .scalar _ => by simp [Child.branches]
  | .node n => by
    simp only [Child.branches, List.mem_singleton, forall_eq]
    exact Node.branch_built n
  | .list items => by
    unfold Child.branches
    exact itemBranches_built items

/-- The branches in a list are built. -/
theorem itemBranches_built : ∀ items : List Child, ∀ branch ∈ itemBranches items, branch.Built
  | [] => by simp [itemBranches]
  | .node n :: rest => by
    simp only [itemBranches, List.mem_cons, forall_eq_or_imp]
    exact ⟨Node.branch_built n, itemBranches_built rest⟩
  | .null :: rest | .list _ :: rest | .scalar _ :: rest => by
    simp only [itemBranches]
    exact itemBranches_built rest

/-- The statements of a node are built. -/
theorem Node.statements_built : ∀ node : Node, Built node.statements
  | ⟨_, _, fields⟩ => by unfold Node.statements; exact fieldEmitter_built _ fields

/-- The statements behind all branches are built. -/
theorem alternative_built : ∀ fields : List (String × Child), Built (alternative fields)
  | [] => by unfold alternative; exact .skip
  | (name, child) :: rest => by
    unfold alternative
    split
    · exact Child.alternative_built child
    · exact alternative_built rest

/-- The statements of the nodes in a content are built. -/
theorem Child.alternative_built : ∀ child : Child, Built child.alternative
  | .null | .scalar _ => by unfold Child.alternative; exact .skip
  | .node n => by unfold Child.alternative; exact Node.statements_built n
  | .list items => by unfold Child.alternative; exact itemAlternatives_built items

/-- The statements of the nodes in a list are built. -/
theorem itemAlternatives_built : ∀ items : List Child, Built (itemAlternatives items)
  | [] => by unfold itemAlternatives; exact .skip
  | .node n :: rest => by
    unfold itemAlternatives
    exact .append (Node.statements_built n) (itemAlternatives_built rest)
  | .null :: rest | .list _ :: rest | .scalar _ :: rest => by
    unfold itemAlternatives
    exact itemAlternatives_built rest

end

/-- The compilation of a statement list is built. -/
theorem compile_built : ∀ nodes : List Node, Built (compile nodes)
  | [] => .skip
  | node :: rest => .append (Node.emitter_built node) (compile_built rest)

end Lowering
