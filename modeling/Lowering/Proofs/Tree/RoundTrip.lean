import Lowering.Tree.Printer
import Lowering.Proofs.Compile.History
import Lowering.Proofs.Json.ReadBack
import Lowering.Proofs.Tree.Grammar
import Lowering.Proofs.Tree.Walk

/-!
# Syntax trees written and read back

What is written for a node is read as that node without its attributes (`Node.cleared`). Not every
tree has this property: a kind may hide behind the tag of another one, fields may be out of order or
have the name of the kind. The trees that are decoded from JSON have none of these faults, and so
the induction is over the JSON value that a tree comes from (`Json.Rewrites`). It says three things
of the value that is written: it is decoded as the tree without attributes, it has no numbers that no
reader returns, and it has no fault where the value that was read had none, so that its text can be
read with the same levels of containers. The text must also give back the doubles that are written,
which is asked of them where texts come in.

Attributes have no bearing on the code of a node (`Node.emitter_cleared`), so a statement list that
is read back compiles as before.
-/

namespace Lowering

open Fields (valuesOf)

/-! ## Trees without attributes -/

mutual

/-- A content with the attributes of all nodes in it cleared. -/
def Child.cleared : Child → Child
  | .null => .null
  | .node ⟨kind, _, fields⟩ => .node ⟨kind, [], clearedFields fields⟩
  | .list items => .list (clearedItems items)
  | .scalar s => .scalar s

/-- Contents with the attributes of all nodes in them cleared. -/
def clearedItems : List Child → List Child
  | [] => []
  | child :: rest => child.cleared :: clearedItems rest

/-- Fields with the attributes of all nodes in them cleared. -/
def clearedFields : List (String × Child) → List (String × Child)
  | [] => []
  | (name, child) :: rest => (name, child.cleared) :: clearedFields rest

end

/-- A node with its attributes and those of all nodes in it cleared. -/
def Node.cleared (node : Node) : Node :=
  ⟨node.kind, [], clearedFields node.fields⟩

/-- The items of a list are cleared one by one. -/
theorem clearedItems_eq_map (items : List Child) :
    clearedItems items = items.map Child.cleared := by
  induction items with
  | nil => rfl
  | cons child rest ih => rw [clearedItems, ih, List.map_cons]

/-- Fields are cleared one by one, under their names. -/
theorem clearedFields_eq_map (fields : List (String × Child)) :
    clearedFields fields = fields.map fun field => (field.1, field.2.cleared) := by
  induction fields with
  | nil => rfl
  | cons field rest ih => rw [clearedFields, ih, List.map_cons]

/-- The items of a list are written one by one. -/
theorem childrenToJson_eq_map (items : List Child) :
    childrenToJson items = items.map Child.toJson := by
  induction items with
  | nil => rfl
  | cons child rest ih => rw [childrenToJson, ih, List.map_cons]

/-- Fields are written one by one, under their names. -/
theorem fieldsToJson_eq_map (fields : List (String × Child)) :
    fieldsToJson fields = fields.map fun field => (field.1, field.2.toJson) := by
  induction fields with
  | nil => rfl
  | cons field rest ih => rw [fieldsToJson, ih, List.map_cons]

section

open Child (cleared)

/-- Nothing has no attributes. -/
@[simp] theorem Child.cleared_null : cleared .null = .null := by rw [cleared]

/-- A literal has no attributes. -/
@[simp] theorem Child.cleared_scalar (s : Scalar) : cleared (.scalar s) = .scalar s := by
  rw [cleared]

/-- A list is cleared item by item. -/
@[simp] theorem Child.cleared_list (items : List Child) :
    cleared (.list items) = .list (items.map cleared) := by
  rw [cleared, clearedItems_eq_map]

/-- A node in a field is cleared as that node. -/
@[simp] theorem Child.cleared_node (node : Node) : cleared (.node node) = .node node.cleared := by
  cases node
  rw [cleared, Node.cleared]

end

/-- A node in a field is written as that node. -/
theorem Child.toJson_node (node : Node) : (Child.node node).toJson = node.toJson := by
  cases node
  rw [Child.toJson, Node.toJson]

/-! ## Values that are written -/

/-- A literal is decoded from what is written for it. -/
theorem Scalar.ofJson?_toJson (s : Scalar) : Child.ofJson? s.toJson = some (.scalar s) := by
  rw [Child.ofJson?_eq_match]
  cases s with
  | bool _ | double _ | string _ => rfl
  | long n =>
    have hrange : -(Json.signedBound : Int) ≤ n.toInt ∧ n.toInt < Json.signedBound :=
      ⟨n.le_toInt, n.toInt_lt⟩
    simp [Scalar.toJson, Json.int, Json.Number.toScalar, hrange]

/-- A node is decoded from what is written for it if its tag is its own, its fields are in order and
have names of fields, and their contents are decoded from what is written for them. -/
theorem Node.ofJson?_toJson {node : Node} (hkind : NodeKind.ofTag node.kind.tag = node.kind)
    (hsorted : Fields.Sorted node.fields)
    (hnames : ∀ field ∈ node.fields, Node.IsFieldName field.1)
    (hfields : ∀ field ∈ node.fields, Child.ofJson? field.2.toJson = some field.2.cleared) :
    Node.ofJson? node.toJson = some node.cleared := by
  -- No field has the name of the kind or of the attributes, so what is found under these names is
  -- the one member in front.
  have hvalues : ∀ name, ¬ Node.IsFieldName name →
      valuesOf name (fieldsToJson node.fields) = [] := by
    intro name hname
    by_contra hvalues
    obtain ⟨member, hmember, rfl⟩ := List.mem_map.mp (Fields.valuesOf_ne_nil.mp hvalues)
    rw [fieldsToJson_eq_map] at hmember
    obtain ⟨field, hfield, rfl⟩ := List.mem_map.mp hmember
    exact hname (hnames field hfield)
  have hne : Node.kindName ≠ Node.attributesName := by decide
  have hkindName : ¬ Node.IsFieldName Node.kindName := fun h => h.1 rfl
  have hattributesName : ¬ Node.IsFieldName Node.attributesName := fun h => h.2 rfl
  have hmembers : Node.fieldMembers ((Node.kindName, .string node.kind.tag) ::
      fieldsToJson node.fields) = fieldsToJson node.fields := by
    rw [Node.fieldMembers, List.filter_cons_of_neg (by simpa using hkindName), fieldsToJson_eq_map,
      List.filter_eq_self]
    intro member hmember
    obtain ⟨field, hfield, rfl⟩ := List.mem_map.mp hmember
    exact decide_eq_true (hnames field hfield)
  refine Node.ofJson?_object.mpr ⟨⟨node.kind.tag, ?_, hkind.symm⟩, Or.inl ⟨?_, rfl⟩,
    clearedFields node.fields, ?_, ?_⟩
  · rw [Fields.valuesOf_cons, if_pos rfl, hvalues _ hkindName]
  · rw [Fields.valuesOf_cons, if_neg hne, hvalues _ hattributesName]
  · rw [hmembers, Node.fieldsOf?_eq_some, fieldsToJson_eq_map, clearedFields_eq_map,
      List.forall₂_map_left_iff, List.forall₂_map_right_iff, List.forall₂_same]
    exact fun field hfield => ⟨rfl, hfields field hfield⟩
  · refine (Fields.ofList_of_sorted ?_).symm
    rw [Node.cleared, clearedFields_eq_map]
    exact List.pairwise_map.mpr hsorted

/-- What a value and the content that is decoded from it have to do with the value that is written
for the content. -/
structure Json.Rewrites (value : Json) (child : Child) : Prop where
  decoded : Child.ofJson? child.toJson = some child.cleared
  bounded : value.Bounded → child.toJson.Bounded
  faultless : ∀ {depth : Nat}, value.readFault depth = none → child.toJson.readFault depth = none

/-- What stands in a list is related to something that stands in the other. -/
theorem exists_related_of_mem {α β : Type} {R : α → β → Prop} {as : List α} {bs : List β}
    (h : List.Forall₂ R as bs) {b : β} (hb : b ∈ bs) : ∃ a ∈ as, R a b := by
  induction h with
  | nil => cases hb
  | @cons a b' as bs hhead _ ih =>
    rcases List.mem_cons.mp hb with rfl | hb
    · exact ⟨a, List.mem_cons_self, hhead⟩
    · obtain ⟨a', ha', hrelated⟩ := ih hb
      exact ⟨a', List.mem_cons_of_mem _ ha', hrelated⟩

section

variable {members : List (String × Json)} {ending : Json.Ending} {node : Node}

/-- A field of a node that is decoded comes from a member with its name. -/
theorem Node.member_of_mem_fields (hnode : Node.ofJson? (.object members ending) = some node)
    {field : String × Child} (hfield : field ∈ node.fields) :
    Node.IsFieldName field.1 ∧
      ∃ member ∈ members, Child.ofJson? member.2 = some field.2 := by
  obtain ⟨-, -, given, hgiven, hfields⟩ := Node.ofJson?_object.mp hnode
  rw [hfields] at hfield
  obtain ⟨member, hmember, hname, hchild⟩ :=
    exists_related_of_mem (Node.fieldsOf?_eq_some.mp hgiven) (Fields.mem_ofList hfield)
  obtain ⟨hmember, hisName⟩ := List.mem_filter.mp hmember
  exact ⟨hname ▸ of_decide_eq_true hisName, member, hmember, hchild⟩

/-- From the contents of the members of an object to the node that it is decoded into. -/
theorem Json.rewrites_node (hnode : Node.ofJson? (.object members ending) = some node)
    (hmembers : ∀ member ∈ members, ∀ child, Child.ofJson? member.2 = some child →
      member.2.Rewrites child) : (Json.object members ending).Rewrites (.node node) := by
  have hfields : ∀ field ∈ node.fields, ∃ member ∈ members, member.2.Rewrites field.2 := by
    intro field hfield
    obtain ⟨-, member, hmember, hchild⟩ := Node.member_of_mem_fields hnode hfield
    exact ⟨member, hmember, hmembers member hmember _ hchild⟩
  -- Each field was read from a member, which passes on its bounds and its depth.
  refine ⟨?_, fun hbounded => ?_, fun {depth} hfault => ?_⟩
  · obtain ⟨⟨tag, -, hkind⟩, -, given, -, hgiven⟩ := Node.ofJson?_object.mp hnode
    have hdecoded : Node.ofJson? node.toJson = some node.cleared := by
      refine Node.ofJson?_toJson ?_ ?_ (fun field hfield => ?_) fun field hfield => ?_
      · rw [hkind, NodeKind.tag_ofTag]
      · rw [hgiven]
        exact Fields.sorted_ofList given
      · exact (Node.member_of_mem_fields hnode hfield).1
      · obtain ⟨member, -, hrewrites⟩ := hfields field hfield
        exact hrewrites.decoded
    rw [Child.toJson_node, Node.toJson, Json.record, Child.ofJson?_object, Child.cleared_node]
    exact congrArg (Option.map Child.node) hdecoded
  · cases hbounded with
    | object hbounded =>
    rw [Child.toJson_node, Node.toJson, Json.record]
    refine .object (List.forall_mem_cons.mpr ⟨.string _, ?_⟩)
    rw [fieldsToJson_eq_map, List.forall_mem_map]
    intro field hfield
    obtain ⟨member, hmember, hrewrites⟩ := hfields field hfield
    exact hrewrites.bounded (hbounded member hmember)
  · obtain ⟨inner, rfl, hfaults, -⟩ := Json.readFault_object.mp hfault
    rw [Child.toJson_node, Node.toJson, Json.record, Json.readFault_object]
    refine ⟨inner, rfl, List.forall_mem_cons.mpr ⟨by simp [Json.readFault], ?_⟩, rfl⟩
    rw [fieldsToJson_eq_map, List.forall_mem_map]
    intro field hfield
    obtain ⟨member, hmember, hrewrites⟩ := hfields field hfield
    exact hrewrites.faultless (hfaults member hmember)

end

/-- A number that a reader returns stays one when it becomes a literal. -/
theorem Json.Number.toScalar_bounded {n : Json.Number} (h : n.Bounded) :
    n.toScalar.toJson.Bounded := by
  cases n with
  | double x => exact .number h
  | int n =>
    rw [toScalar]
    split
    · next hlong =>
      refine .number ⟨(Int64.ofInt n).le_toInt, ?_⟩
      exact Int.lt_trans (Int64.ofInt n).toInt_lt (by decide)
    · -- An integer beyond 64 signed bits has become a double, and a finite one.
      have hsigned : (signedBound : Int) = 2 ^ 63 := rfl
      have hunsigned : (unsignedBound : Int) = 2 ^ 64 := rfl
      obtain ⟨hlow, hhigh⟩ := h
      exact .number (Double.isFinite_ofInt (by omega))

/-- A literal is written as a value that stands for it. -/
theorem Json.rewrites_scalar {value : Json} {s : Scalar}
    (h : value.Bounded → s.toJson.Bounded) : value.Rewrites (.scalar s) where
  decoded := by
    rw [Child.toJson, Child.cleared, Scalar.ofJson?_toJson]
  bounded := by rwa [Child.toJson]
  faultless := by
    intro depth _
    rw [Child.toJson]
    cases s <;> simp [Scalar.toJson, Json.int, Json.readFault]

/-- From the items of an array to the list that it is decoded into. -/
theorem Json.rewrites_list {items : List Json} {ending : Ending} {children : List Child}
    (h : ∀ child ∈ children, ∃ item ∈ items, item.Rewrites child) :
    (Json.array items ending).Rewrites (.list children) := by
  refine ⟨?_, fun hbounded => ?_, fun {depth} hfault => ?_⟩
  · rw [Child.toJson, Json.list, Child.ofJson?_eq_match, Child.cleared, Option.map_eq_some_iff]
    refine ⟨_, childrenOfJson?_eq_some.mpr ?_, rfl⟩
    rw [childrenToJson_eq_map, clearedItems_eq_map, List.forall₂_map_left_iff,
      List.forall₂_map_right_iff, List.forall₂_same]
    intro child hchild
    obtain ⟨item, -, hrewrites⟩ := h child hchild
    exact hrewrites.decoded
  · cases hbounded with
    | array hbounded =>
    rw [Child.toJson, Json.list, childrenToJson_eq_map]
    refine .array (List.forall_mem_map.mpr fun child hchild => ?_)
    obtain ⟨item, hitem, hrewrites⟩ := h child hchild
    exact hrewrites.bounded (hbounded item hitem)
  · obtain ⟨inner, rfl, hfaults, -⟩ := readFault_array.mp hfault
    rw [Child.toJson, Json.list, childrenToJson_eq_map, readFault_array]
    refine ⟨inner, rfl, List.forall_mem_map.mpr fun child hchild => ?_, rfl⟩
    obtain ⟨item, hitem, hrewrites⟩ := h child hchild
    exact hrewrites.faultless (hfaults item hitem)

/-- What is written for a content that was decoded is decoded as the content without attributes, and
it can be written and read where the value that it was decoded from can. -/
theorem Json.rewrites_of_ofJson? {value : Json} {child : Child}
    (h : Child.ofJson? value = some child) : value.Rewrites child := by
  -- A written value is read as the child once more, within the bounds of what it was read from.
  induction value using Json.induction generalizing child with
  | null =>
    obtain rfl : Child.null = child := by simpa [Child.ofJson?_eq_match] using h
    refine ⟨by simp [Child.toJson, Child.ofJson?_eq_match, Child.cleared], fun _ => .null, fun _ => ?_⟩
    simp [Child.toJson, Json.readFault]
  | bool b =>
    obtain rfl : Child.scalar (.bool b) = child := by simpa [Child.ofJson?_eq_match] using h
    exact rewrites_scalar fun _ => .bool b
  | number n =>
    obtain rfl : Child.scalar n.toScalar = child := by simpa [Child.ofJson?_eq_match] using h
    refine rewrites_scalar fun hbounded => ?_
    cases hbounded with
    | number hn => exact n.toScalar_bounded hn
  | string s =>
    obtain rfl : Child.scalar (.string s) = child := by simpa [Child.ofJson?_eq_match] using h
    exact rewrites_scalar fun _ => .string s
  | array items ending ih =>
    rw [Child.ofJson?_eq_match, Option.map_eq_some_iff] at h
    obtain ⟨children, hchildren, rfl⟩ := h
    refine rewrites_list fun child hchild => ?_
    obtain ⟨item, hitem, hdecoded⟩ :=
      exists_related_of_mem (childrenOfJson?_eq_some.mp hchildren) hchild
    exact ⟨item, hitem, ih item hitem hdecoded⟩
  | object members ending ih =>
    rw [Child.ofJson?_object, Option.map_eq_some_iff] at h
    obtain ⟨node, hnode, rfl⟩ := h
    exact rewrites_node hnode fun member hmember child hchild => ih member hmember hchild
  | unreadable fault => simp [Child.ofJson?_eq_match] at h

/-! ## Texts that are written -/

section

variable {value : Json} {node : Node}

/-- A value that is a node is written again as the node that it stands for. -/
theorem Node.rewrites_of_ofJson? (h : Node.ofJson? value = some node) :
    value.Rewrites (.node node) := by
  by_cases hobject : ∃ members ending, value = .object members ending
  · obtain ⟨members, ending, rfl⟩ := hobject
    refine Json.rewrites_of_ofJson? ?_
    rw [Child.ofJson?_object, h]
    rfl
  · rw [Node.ofJson?_of_not_object hobject] at h
    cases h

/-- What is written for a node is decoded as that node without attributes. -/
theorem Json.Rewrites.node_decoded (h : value.Rewrites (.node node)) :
    Node.ofJson? node.toJson = some node.cleared := by
  have hdecoded := h.decoded
  rw [Child.toJson_node, Node.toJson, Json.record, Child.ofJson?_object, Child.cleared_node,
    Option.map_eq_some_iff] at hdecoded
  obtain ⟨_, hnode, ⟨⟩⟩ := hdecoded
  exact hnode

/-- A reader that reads a node from a value reads it, less its attributes, from the value that is
written for it. -/
theorem Node.read_toJson {depth : Nat} (h : Node.read depth value = .ok node) :
    Node.read depth node.toJson = .ok node.cleared := by
  rw [Node.read_eq_ok_iff] at h ⊢
  have hrewrites := Node.rewrites_of_ofJson? h.2
  refine ⟨?_, hrewrites.node_decoded⟩
  rw [← Child.toJson_node]
  exact hrewrites.faultless h.1

end

/-- A text that is written for a value without faults is read by reading the value, if its doubles
read back. -/
theorem Json.readText_compact {α : Type} {reader : Nat → Json → Except ReadError α} {value : Json}
    {a : α} (hbounded : value.Bounded) (hback : ∀ x ∈ value.doubles, x.isFinite → x.ReadsBack)
    (hfault : value.readFault nestingLimit = none) (hread : reader nestingLimit value = .ok a) :
    readText reader value.compact = .ok a := by
  rw [readText_eq_ok_iff, read_compact (hbounded.readable hback) hfault]
  exact ⟨hread, rfl⟩

/-- The text of a node that was read from a text is read as the node without attributes, if the
doubles in it read back. -/
theorem Node.ofText_text {text : String} {node : Node} (h : Node.ofText text = .ok node)
    (hback : ∀ x ∈ node.toJson.doubles, x.isFinite → x.ReadsBack) :
    Node.ofText node.text = .ok node.cleared := by
  obtain ⟨hread, -⟩ := Json.readText_eq_ok_iff.mp h
  obtain ⟨hfault, hnode⟩ := (Node.read_eq_ok_iff _ _ _).mp hread
  have hrewrites := Node.rewrites_of_ofJson? hnode
  refine Json.readText_compact ?_ hback ?_ (Node.read_toJson hread)
  · rw [← Child.toJson_node]
    exact hrewrites.bounded (Json.read_bounded text)
  · rw [← Child.toJson_node]
    exact hrewrites.faultless hfault

/-- Nodes are read up to the end of a list if it is closed and a node is read from every item. -/
theorem Node.readAll_eq_ok_iff {depth : Nat} {ending : Json.Ending} {items : List Json}
    {nodes : List Node} : Node.readAll depth ending items = .ok nodes ↔
      List.Forall₂ (fun item node => Node.read depth item = .ok node) items nodes ∧
        ending = .closed := by
  rw [← Json.Ending.reading_eq_none]
  induction items generalizing nodes with
  | nil =>
    rw [Node.readAll, List.forall₂_nil_left_iff]
    rcases ending.reading <;> simp [Json.proceed, Except.map, eq_comm]
  | cons item rest ih =>
    rw [Node.readAll, List.forall₂_cons_left_iff]
    constructor
    · intro h
      rcases hitem : Node.read depth item with e | node
      · rw [hitem] at h
        cases h
      · rcases hrest : Node.readAll depth ending rest with e | more
        · rw [hitem, hrest] at h
          cases h
        · rw [hitem, hrest] at h
          cases h
          obtain ⟨hmore, hending⟩ := ih.mp hrest
          exact ⟨⟨node, more, rfl, hmore, rfl⟩, hending⟩
    · rintro ⟨⟨node, more, hitem, hmore, rfl⟩, hending⟩
      rw [hitem, ih.mpr ⟨hmore, hending⟩]
      rfl

/-- A statement list is read from a complete array with a node in every item. -/
theorem Node.readStatements_eq_ok_iff {depth : Nat} {value : Json} {nodes : List Node} :
    Node.readStatements depth value = .ok nodes ↔ ∃ inner items, depth = inner + 1 ∧
      value = .list items ∧
      List.Forall₂ (fun item node => Node.read inner item = .ok node) items nodes := by
  cases value with
  | array items ending =>
    cases depth with
    | zero => simp [Node.readStatements]
    | succ depth =>
      rw [Node.readStatements, Node.readAll_eq_ok_iff]
      simp only [Json.list, Json.array.injEq, Nat.add_right_cancel_iff]
      constructor
      · rintro ⟨hall, rfl⟩
        exact ⟨depth, items, rfl, ⟨rfl, rfl⟩, hall⟩
      · rintro ⟨_, _, rfl, ⟨rfl, rfl⟩, hall⟩
        exact ⟨hall, rfl⟩
  | _ => simp [Node.readStatements, Json.list]

/-- The JSON form of a statement list. -/
def statementsToJson (nodes : List Node) : Json :=
  .list (nodes.map Node.toJson)

/-- A reader that reads a statement list from a value reads it, less all attributes, from the value
that is written for it. -/
theorem Node.readStatements_statementsToJson {depth : Nat} {value : Json} {nodes : List Node}
    (h : Node.readStatements depth value = .ok nodes) :
    Node.readStatements depth (statementsToJson nodes) = .ok (nodes.map Node.cleared) := by
  obtain ⟨inner, items, hdepth, -, hall⟩ := Node.readStatements_eq_ok_iff.mp h
  refine Node.readStatements_eq_ok_iff.mpr ⟨inner, _, hdepth, rfl, ?_⟩
  rw [List.forall₂_map_left_iff, List.forall₂_map_right_iff, List.forall₂_same]
  intro node hnode
  obtain ⟨item, -, hread⟩ := exists_related_of_mem hall hnode
  exact Node.read_toJson hread

/-- The text of a statement list that was read from a text is read as the list without attributes,
if the doubles in it read back. -/
theorem statementsOfText_compact {text : String} {nodes : List Node}
    (h : statementsOfText text = .ok nodes)
    (hback : ∀ x ∈ (statementsToJson nodes).doubles, x.isFinite → x.ReadsBack) :
    statementsOfText (statementsToJson nodes).compact = .ok (nodes.map Node.cleared) := by
  obtain ⟨hread, -⟩ := Json.readText_eq_ok_iff.mp h
  obtain ⟨inner, items, hdepth, hroot, hall⟩ := Node.readStatements_eq_ok_iff.mp hread
  have hbounded : (Json.list items).Bounded := hroot ▸ Json.read_bounded text
  refine Json.readText_compact ?_ hback ?_ (Node.readStatements_statementsToJson hread)
  · cases hbounded with
    | array hbounded =>
    refine .array (List.forall_mem_map.mpr fun node hnode => ?_)
    obtain ⟨item, hitem, hread⟩ := exists_related_of_mem hall hnode
    have hrewrites := Node.rewrites_of_ofJson? ((Node.read_eq_ok_iff _ _ _).mp hread).2
    rw [← Child.toJson_node]
    exact hrewrites.bounded (hbounded item hitem)
  · rw [hdepth]
    refine Json.readFault_array.mpr ⟨inner, rfl, List.forall_mem_map.mpr fun node hnode => ?_, rfl⟩
    obtain ⟨item, -, hread⟩ := exists_related_of_mem hall hnode
    exact ((Node.read_eq_ok_iff _ _ _).mp (Node.read_toJson hread)).1

/-! ## Code without attributes -/

mutual

/-- Attributes do not change the value of literal content. -/
theorem Child.toValue_cleared : ∀ child : Child, child.cleared.toValue = child.toValue
  | .null | .scalar _ => by simp
  | .node node => by rw [Child.cleared_node, Child.toValue, Child.toValue]
  | .list items => by
    rw [Child.cleared_list, Child.toValue, Child.toValue, childValues_cleared items]

/-- Attributes do not change the values of literal contents. -/
theorem childValues_cleared : ∀ items : List Child,
    childValues (items.map Child.cleared) = childValues items
  | [] => rfl
  | child :: rest => by
    rw [List.map_cons, childValues, childValues, child.toValue_cleared, childValues_cleared rest]

end

mutual

/-- Attributes do not change which nodes stand in literal content. -/
theorem Child.misplaced_cleared : ∀ child : Child, child.cleared.misplaced = child.misplaced
  | .null | .scalar _ => by simp
  | .node ⟨kind, _, fields⟩ => by rw [Child.cleared, Child.misplaced, Child.misplaced]
  | .list items => by
    rw [Child.cleared_list, Child.misplaced, Child.misplaced, misplacedIn_cleared items]

/-- Attributes do not change which nodes stand in literal contents. -/
theorem misplacedIn_cleared : ∀ items : List Child,
    misplacedIn (items.map Child.cleared) = misplacedIn items
  | [] => rfl
  | child :: rest => by
    rw [List.map_cons, misplacedIn, misplacedIn, child.misplaced_cleared, misplacedIn_cleared rest]

end

/-- Attributes do not change the constant of a content. -/
theorem Child.constant_cleared (child : Child) : child.cleared.constant = child.constant := by
  rw [Child.constant, Child.constant, child.toValue_cleared, child.misplaced_cleared]

/-- Attributes do not change the texts in a list. -/
theorem literalTexts_cleared (items : List Child) :
    literalTexts (items.map Child.cleared) = literalTexts items := by
  rw [literalTexts, List.filterMap_map]
  refine List.filterMap_congr fun child _ => ?_
  cases child <;> simp

/-- The nodes that stand in a cleared content are the cleared nodes of that content. -/
theorem Child.nodes_cleared (child : Child) :
    child.cleared.nodes = child.nodes.map Node.cleared := by
  cases child with
  | list items =>
    rw [Child.cleared_list, Child.nodes, Child.nodes, List.filterMap_map, List.map_filterMap]
    refine List.filterMap_congr fun item _ => ?_
    cases item <;> simp
  | _ => simp [Child.nodes]

section

variable (node : Node)

/-- The fields of a cleared node are its cleared fields. -/
theorem Node.field?_cleared (name : String) :
    node.cleared.field? name = (node.field? name).map Child.cleared := by
  unfold Node.field? Node.cleared
  induction node.fields with
  | nil => rfl
  | cons field rest ih =>
    rw [clearedFields, Fields.lookup_cons, ih, Fields.lookup_cons]
    split <;> rfl

/-- The nodes in a field of a cleared node are cleared. -/
theorem Node.nodes_cleared (name : String) :
    node.cleared.nodes name = (node.nodes name).map Node.cleared := by
  unfold Node.nodes
  rw [Node.field?_cleared]
  rcases node.field? name with _ | child
  · rfl
  · exact child.nodes_cleared

/-- Attributes do not change the constant in a field. -/
theorem Node.constant_cleared (field : String) (separator : Option String) :
    node.cleared.constant field separator = node.constant field separator := by
  unfold Node.constant
  rw [Node.field?_cleared]
  rcases node.field? field with _ | child
  · rfl
  · cases child with
    | list items =>
      cases separator with
      | none => exact Child.constant_cleared (.list items)
      | some separator => simp [literalTexts_cleared]
    | node n => simpa using Child.constant_cleared (.node n)
    | null | scalar s => simp

/-- Attributes do not change the literal in a field. -/
theorem Node.scalar?_cleared (name : String) : node.cleared.scalar? name = node.scalar? name := by
  unfold Node.scalar?
  rw [Node.field?_cleared]
  rcases node.field? name with _ | child
  · rfl
  · cases child <;> simp

/-- Attributes do not change a flag. -/
theorem Node.flag_cleared (name : String) : node.cleared.flag name = node.flag name := by
  unfold Node.flag
  rw [Node.field?_cleared]
  rcases node.field? name with _ | child
  · rfl
  · cases child <;> simp

/-- Attributes do not change the type that a content names. -/
theorem Child.typeHint?_cleared (child : Child) : child.cleared.typeHint? = child.typeHint? := by
  cases child with
  | node n =>
    rw [Child.cleared_node, Child.typeHint?, Child.typeHint?, Node.field?_cleared]
    rcases n.field? "parts" with _ | content
    · rfl
    · cases content with
      | list items => simp [literalTexts_cleared]
      | _ => simp [Node.cleared]
  | _ => simp [Child.typeHint?]

/-- Attributes do not change what a node declares. -/
theorem Node.declaration_cleared : node.cleared.declaration = node.declaration := by
  have hhint : (node.cleared.field? "type").bind Child.typeHint? =
      (node.field? "type").bind Child.typeHint? := by
    rw [Node.field?_cleared, Option.bind_map]
    congr 1
    funext child
    exact child.typeHint?_cleared
  rw [Node.declaration, Node.declaration, Node.scalar?_cleared, Node.flag_cleared, hhint]

end

/-- The code of a field does not depend on attributes if that of its content does not. -/
theorem Node.emitterOf_cleared {node : Node} {name : String}
    (h : ∀ child, node.field? name = some child → child.cleared.emitter = child.emitter) :
    node.cleared.emitterOf name = node.emitterOf name := by
  unfold Node.emitterOf
  rw [Node.field?_cleared]
  rcases hfield : node.field? name with _ | child
  · rfl
  · exact h child hfield

/-- The code of a node does not depend on attributes if that of every content below it does not. -/
theorem Node.emitter_cleared_of_smaller {node : Node}
    (h : ∀ child : Child, sizeOf child < sizeOf node → child.cleared.emitter = child.emitter) :
    node.cleared.emitter = node.emitter := by
  have hown : ∀ name, node.cleared.emitterOf name = node.emitterOf name := fun name =>
    Node.emitterOf_cleared fun child hchild => h child (Node.sizeOf_field?_lt hchild)
  -- The branches of a conditional are nodes in a field, so their own fields are two steps down.
  have hbelow : ∀ field, ∀ owner ∈ node.nodes field, ∀ name,
      owner.cleared.emitterOf name = owner.emitterOf name := fun field owner howner name =>
    Node.emitterOf_cleared fun child hchild =>
      h child (Nat.lt_trans (Node.sizeOf_field?_lt hchild) (Node.sizeOf_lt_of_mem_nodes howner))
  have hbranch : node.cleared.branch = node.branch := by
    rw [Node.branch_eq, Node.branch_eq, hown, hown]
  have hbranches : (node.cleared.nodes "elseifs").map Node.branch =
      (node.nodes "elseifs").map Node.branch := by
    rw [Node.nodes_cleared, List.map_map]
    refine List.map_congr_left fun owner howner => ?_
    rw [Function.comp_apply, Node.branch_eq, Node.branch_eq, hbelow _ owner howner,
      hbelow _ owner howner]
  have hotherwise : (node.cleared.nodes "else").map Node.statements =
      (node.nodes "else").map Node.statements := by
    rw [Node.nodes_cleared, List.map_map]
    refine List.map_congr_left fun owner howner => ?_
    rw [Function.comp_apply, Node.statements_eq, Node.statements_eq, hbelow _ owner howner]
  have hkind : node.cleared.kind = node.kind := rfl
  rw [Node.emitter_eq, Node.emitter_eq]
  simp only [hkind, hown, hbranch, hbranches, hotherwise, Node.constant_cleared,
    Node.declaration_cleared, List.map_cons]

mutual

/-- Attributes have no bearing on the code of a content. -/
theorem Child.emitter_cleared : ∀ child : Child, child.cleared.emitter = child.emitter
  | .null | .scalar _ => by simp
  | .node node => by
    rw [Child.cleared_node, Child.emitter, Child.emitter]
    exact Node.emitter_cleared node
  | .list items => by
    rw [Child.cleared_list]
    -- A list of one literal is folded; clearing neither makes such a list nor breaks it.
    rcases Child.emitter_list (items.map Child.cleared) with ⟨s, hone, -⟩ | hcleared
    · obtain ⟨child, rfl, hchild⟩ := List.map_eq_singleton_iff.mp hone
      cases child <;> simp at hchild
      subst hchild
      rfl
    · rcases Child.emitter_list items with ⟨s, rfl, -⟩ | hitems
      · simp
      · rw [hcleared, hitems, itemsEmitter_cleared items]

/-- Attributes have no bearing on the code of the items of a list. -/
theorem itemsEmitter_cleared : ∀ items : List Child,
    itemsEmitter (items.map Child.cleared) = itemsEmitter items
  | [] => rfl
  | .null :: rest => by
    simp only [List.map_cons, Child.cleared_null, itemsEmitter]
    exact itemsEmitter_cleared rest
  | .node node :: rest => by
    simp only [List.map_cons, Child.cleared_node, itemsEmitter]
    rw [Node.emitter_cleared node, itemsEmitter_cleared rest]
  | .list items :: rest => by
    simp only [List.map_cons, Child.cleared_list, itemsEmitter]
    rw [itemsEmitter_cleared items, itemsEmitter_cleared rest]
  | .scalar s :: rest => by
    simp only [List.map_cons, Child.cleared_scalar, itemsEmitter]
    rw [itemsEmitter_cleared rest]

/-- Attributes have no bearing on the code of a node. -/
theorem Node.emitter_cleared (node : Node) : node.cleared.emitter = node.emitter :=
  Node.emitter_cleared_of_smaller fun child _ => Child.emitter_cleared child

end

/-- Attributes do not change how a statement list is compiled. -/
theorem compile_cleared (nodes : List Node) : compile (nodes.map Node.cleared) = compile nodes := by
  induction nodes with
  | nil => rfl
  | cons node rest ih => rw [List.map_cons, compile, compile, node.emitter_cleared, ih]

/-- What statements become does not depend on their attributes. -/
theorem outcome_cleared (nodes : List Node) (context : Option SlotId) (state : CompileState) :
    outcome (nodes.map Node.cleared) context state = outcome nodes context state := by
  rw [outcome, outcome, compile_cleared]

/-- A syntax tree survives being written and read back, less its attributes. A node that is decoded
from a value is decoded, with its attributes and those of all nodes in it cleared, from the value
that is written for it, and the same holds of statement lists, and of the texts of both if every
finite double that is written reads back. Compiling and linking the statement list that is read gives
what it gave before, in every context and state of the compiler. -/
theorem Node.survives_rewriting :
    (∀ value node, Node.ofJson? value = some node →
      Node.ofJson? node.toJson = some node.cleared) ∧
    (∀ depth value nodes, Node.readStatements depth value = .ok nodes →
      ∃ again, Node.readStatements depth (statementsToJson nodes) = .ok again ∧
        again = nodes.map Node.cleared ∧
        ∀ context state, outcome again context state = outcome nodes context state) ∧
    (∀ text node, Node.ofText text = .ok node →
      (∀ x ∈ node.toJson.doubles, x.isFinite → x.ReadsBack) →
      Node.ofText node.text = .ok node.cleared) ∧
    ∀ text nodes, statementsOfText text = .ok nodes →
      (∀ x ∈ (statementsToJson nodes).doubles, x.isFinite → x.ReadsBack) →
      ∃ again, statementsOfText (statementsToJson nodes).compact = .ok again ∧
        again = nodes.map Node.cleared ∧
        ∀ context state, outcome again context state = outcome nodes context state := by
  refine ⟨fun value node h => ?_, fun depth value nodes h => ?_, fun text node h hback => ?_,
    fun text nodes h hback => ?_⟩
  · exact (Node.rewrites_of_ofJson? h).node_decoded
  · exact ⟨_, Node.readStatements_statementsToJson h, rfl, outcome_cleared nodes⟩
  · exact Node.ofText_text h hback
  · exact ⟨_, statementsOfText_compact h hback, rfl, outcome_cleared nodes⟩

/-- A statement list with attributes, an unknown kind, nested lists and nodes, an integer that is
too large to stay one and a field that is given twice. -/
def annotatedText : String :=
  "[\x7b\"nodeType\":\"X\",\"attributes\":\x7b\"line\":3\x7d,\"b\":-0,\"a\":[null,[],\x7b" ++
    "\"attributes\":\x7b\x7d,\"nodeType\":\"Arg\"\x7d,18446744073709551615]," ++
    "\"b\":\"\\u00e9\\n\"\x7d]"

/-- What is written for the statements of `annotatedText`. -/
def rewrittenText : String :=
  "[\x7b\"nodeType\":\"X\",\"a\":[null,[],\x7b\"nodeType\":\"Arg\"\x7d,1.8446744073709552e+19]," ++
    "\"b\":\"é\\n\"\x7d]"

/-- The one double of `rewrittenText`. -/
def largeDouble : Double :=
  ⟨0x43F0000000000000⟩

/-- The digits of `largeDouble` do not fit fifty-three bits, but nothing is rounded off them. -/
theorem largeDouble_readsBack : largeDouble.ReadsBack := by
  let numeral : Double.Numeral := ⟨['1'], some "8446744073709552".toList, some 19⟩
  have hformed : numeral.WellFormed := by
    refine ⟨by simp [numeral], Or.inr ⟨'1', [], rfl, by simp⟩, ?_⟩
    rintro _ ⟨rfl⟩
    exact ⟨by simp, by simp⟩
  exact (Json.readsBack_iff hformed (Or.inl rfl) (by decide +kernel)).mpr (by decide +kernel)

/-- The statements of `annotatedText` are written as `rewrittenText` and read back from it. -/
theorem Node.survives_rewriting_annotated :
    ∃ nodes, statementsOfText annotatedText = .ok nodes ∧
      (statementsToJson nodes).doubles = [largeDouble] ∧ largeDouble.ReadsBack ∧
      (statementsToJson nodes).compact = rewrittenText ∧
      ∃ again, statementsOfText rewrittenText = .ok again ∧ again = nodes.map Node.cleared ∧
        ∀ context state, outcome again context state = outcome nodes context state := by
  have hwritten : (statementsOfText annotatedText).toOption.map (fun nodes =>
      ((statementsToJson nodes).doubles, (statementsToJson nodes).compact)) =
        some ([largeDouble], rewrittenText) := by decide +kernel
  rcases hnodes : statementsOfText annotatedText with e | nodes
  · rw [hnodes] at hwritten
    cases hwritten
  · rw [hnodes] at hwritten
    obtain ⟨hdoubles, htext⟩ := Prod.mk.inj (Option.some.inj hwritten)
    have hagain := Node.survives_rewriting.2.2.2 annotatedText nodes hnodes (by
      rw [hdoubles]
      exact List.forall_mem_singleton.mpr fun _ => largeDouble_readsBack)
    rw [htext] at hagain
    exact ⟨nodes, rfl, hdoubles, largeDouble_readsBack, htext, hagain⟩

end Lowering
