import Mathlib.Data.List.Forall2
import Lowering.Tree.Reader

/-!
# The grammar of syntax trees

Which JSON values are nodes is said by a grammar: `Json.IsNode` asks for one kind, at most one object
of attributes and contents in all other members, and `Json.IsContent` says what a content is.
`Json.Spells` says which node it is: its fields are the names of the other members, and of a name
that is repeated the last member counts.

A decoder goes through the members of an object once and builds up a draft. The first part takes
this apart (`Node.ofJson?_object`): the kind, the attributes and the fields can each be found from
the members alone. What a value stands for is tried one after another, and the second part says
which trial each value passes (`Child.ofJson?_eq_match`). From this the decoder accepts what the
grammar says, with the node that the grammar says (`Node.decoded_iff_grammar`).
-/

namespace Lowering

/-! ## Named values -/

namespace Fields

variable {α : Type}

/-- The values of all members with a name, in their order. -/
def valuesOf (name : String) (members : List (String × α)) : List α :=
  members.filterMap fun member => if member.1 = name then some member.2 else none

/-- Members in increasing order of their names, without repetition. -/
def Sorted (members : List (String × α)) : Prop :=
  members.Pairwise fun member next => member.1 < next.1

/-- The values of a name are that of the first member, if it has the name, and those of the others.
-/
theorem valuesOf_cons (name : String) (member : String × α) (members : List (String × α)) :
    valuesOf name (member :: members) =
      if member.1 = name then member.2 :: valuesOf name members else valuesOf name members := by
  unfold valuesOf
  split
  · next h => simp [h]
  · next h => simp [h]

/-- A name has the values of the members that it names. -/
theorem mem_valuesOf {name : String} {value : α} {members : List (String × α)} :
    value ∈ valuesOf name members ↔ (name, value) ∈ members := by
  simp only [valuesOf, List.mem_filterMap, Option.ite_none_right_eq_some, Option.some.injEq]
  constructor
  · rintro ⟨⟨other, _⟩, hmem, rfl, rfl⟩
    exact hmem
  · exact fun hmem => ⟨_, hmem, rfl, rfl⟩

/-- A name has values if it names a member. -/
theorem valuesOf_ne_nil {name : String} {members : List (String × α)} :
    valuesOf name members ≠ [] ↔ name ∈ members.map Prod.fst := by
  constructor
  · intro h
    obtain ⟨value, hvalue⟩ := List.exists_mem_of_ne_nil _ h
    exact List.mem_map.mpr ⟨_, mem_valuesOf.mp hvalue, rfl⟩
  · intro h
    obtain ⟨⟨_, value⟩, hmem, rfl⟩ := List.mem_map.mp h
    exact List.ne_nil_of_mem (mem_valuesOf.mpr hmem)

/-- Of the members that are put in one after another the last one with a name counts, and without
one what was there. -/
theorem lookup_foldl_insert (name : String) (members fields : List (String × α)) :
    (members.foldl (fun fields (name, value) => insert name value fields) fields).lookup name =
      (valuesOf name members).getLast?.or (fields.lookup name) := by
  induction members generalizing fields with
  | nil => rfl
  | cons member rest ih =>
    rw [List.foldl_cons, ih, lookup_insert, valuesOf_cons]
    by_cases h : member.1 = name
    · rw [if_pos h, if_pos h.symm, List.getLast?_cons]
      cases (valuesOf name rest).getLast? <;> rfl
    · rw [if_neg h, if_neg (Ne.symm h)]

/-- Of repeated names the last one counts. -/
theorem lookup_ofList (name : String) (members : List (String × α)) :
    (ofList members).lookup name = (valuesOf name members).getLast? := by
  rw [ofList, lookup_foldl_insert]
  simp

/-- What stands in a list after something was put in is that or was there. -/
theorem mem_insert {name : String} {value : α} {fields : List (String × α)} {member : String × α}
    (h : member ∈ insert name value fields) : member = (name, value) ∨ member ∈ fields := by
  fun_induction insert name value fields with
  | case1 => simpa using h
  | case2 => simpa using h
  | case3 old rest _ =>
    rcases List.mem_cons.mp h with rfl | h
    · exact Or.inl rfl
    · exact Or.inr (List.mem_cons_of_mem _ h)
  | case4 other old rest _ _ ih =>
    rcases List.mem_cons.mp h with rfl | h
    · exact Or.inr List.mem_cons_self
    · exact (ih h).imp_right (List.mem_cons_of_mem _)

/-- Of two different names one comes first. -/
theorem lt_of_not_lt_of_ne {name other : String} (h : ¬ name < other) (hne : name ≠ other) :
    other < name := by
  by_contra hnot
  exact hne (String.le_antisymm (String.not_lt.mp hnot) (String.not_lt.mp h))

/-- Members stay in order when something is put in. -/
theorem sorted_insert {name : String} {value : α} {fields : List (String × α)}
    (h : Sorted fields) : Sorted (insert name value fields) := by
  fun_induction insert name value fields with
  | case1 => exact List.pairwise_singleton _ _
  | case2 other old rest hlt =>
    obtain ⟨hother, -⟩ := List.pairwise_cons.mp h
    refine List.pairwise_cons.mpr ⟨List.forall_mem_cons.mpr ⟨hlt, fun member hmember => ?_⟩, h⟩
    exact String.lt_trans hlt (hother member hmember)
  | case3 old rest _ =>
    obtain ⟨hother, hrest⟩ := List.pairwise_cons.mp h
    exact List.pairwise_cons.mpr ⟨hother, hrest⟩
  | case4 other old rest hnot hne ih =>
    obtain ⟨hother, hrest⟩ := List.pairwise_cons.mp h
    refine List.pairwise_cons.mpr ⟨fun member hmember => ?_, ih hrest⟩
    rcases mem_insert hmember with rfl | hmember
    · exact lt_of_not_lt_of_ne hnot hne
    · exact hother member hmember

/-- Fields are in order, whatever the order of the assignments is. -/
theorem sorted_ofList (members : List (String × α)) : Sorted (ofList members) := by
  suffices h : ∀ (members fields : List (String × α)), Sorted fields →
      Sorted (members.foldl (fun fields (name, value) => insert name value fields) fields) from
    h members [] List.Pairwise.nil
  intro members
  induction members with
  | nil => exact fun _ hfields => hfields
  | cons member rest ih => exact fun fields hfields => ih _ (sorted_insert hfields)

/-- What stands in a list of fields is one of the members that it is made of. -/
theorem mem_ofList {member : String × α} {members : List (String × α)}
    (h : member ∈ ofList members) : member ∈ members := by
  suffices hfold : ∀ members fields : List (String × α),
      member ∈ members.foldl (fun fields (name, value) => insert name value fields) fields →
        member ∈ members ∨ member ∈ fields from
    (hfold members [] h).resolve_right List.not_mem_nil
  intro members
  induction members with
  | nil => exact fun _ hmember => Or.inr hmember
  | cons first rest ih =>
    intro fields hmember
    rcases ih _ hmember with hrest | hinsert
    · exact Or.inl (List.mem_cons_of_mem _ hrest)
    · rcases mem_insert hinsert with rfl | hfields
      · exact Or.inl List.mem_cons_self
      · exact Or.inr hfields

/-- A name behind all others is put in at the end. -/
theorem insert_of_forall_lt {name : String} (value : α) {fields : List (String × α)}
    (h : ∀ field ∈ fields, field.1 < name) :
    insert name value fields = fields ++ [(name, value)] := by
  induction fields with
  | nil => rfl
  | cons field rest ih =>
    obtain ⟨hfield, hrest⟩ := List.forall_mem_cons.mp h
    have hnot : ¬ name < field.1 := fun hlt => String.lt_irrefl _ (String.lt_trans hlt hfield)
    have hne : name ≠ field.1 := fun heq => String.lt_irrefl _ (heq ▸ hfield)
    rw [insert, if_neg hnot, if_neg hne, ih hrest, List.cons_append]

/-- Members that are in order are the fields that they assign. -/
theorem ofList_of_sorted {members : List (String × α)} (h : Sorted members) :
    ofList members = members := by
  suffices hfold : ∀ members fields : List (String × α), Sorted (fields ++ members) →
      members.foldl (fun fields (name, value) => insert name value fields) fields =
        fields ++ members from hfold members [] h
  intro members
  induction members with
  | nil => exact fun fields _ => (List.append_nil fields).symm
  | cons member rest ih =>
    intro fields hsorted
    have hlt : ∀ field ∈ fields, field.1 < member.1 := fun field hfield =>
      (List.pairwise_append.mp hsorted).2.2 field hfield member List.mem_cons_self
    rw [List.append_cons] at hsorted ⊢
    rw [← ih _ hsorted, List.foldl_cons, ← insert_of_forall_lt member.2 hlt]

/-- A name is that of a field if there is a look-up for it. -/
theorem mem_names_iff_lookup {name : String} {fields : List (String × α)} :
    name ∈ fields.map Prod.fst ↔ fields.lookup name ≠ none := by
  rw [Ne, List.lookup_eq_none_iff]
  simp

/-- The fields of a list of assignments have their names. -/
theorem mem_names_ofList {name : String} {members : List (String × α)} :
    name ∈ (ofList members).map Prod.fst ↔ name ∈ members.map Prod.fst := by
  rw [mem_names_iff_lookup, lookup_ofList, ← valuesOf_ne_nil, Ne, List.getLast?_eq_none_iff]

end Fields

open Fields (valuesOf)

/-! ## The parts of a node -/

/-- Whether a member with a name is a field of a node, not its kind or its attributes. -/
def Node.IsFieldName (name : String) : Prop :=
  name ≠ Node.kindName ∧ name ≠ Node.attributesName

instance (name : String) : Decidable (Node.IsFieldName name) :=
  inferInstanceAs (Decidable (_ ∧ _))

namespace Node

/-- The members of an object that are the fields of a node. -/
def fieldMembers (members : List (String × Json)) : List (String × Json) :=
  members.filter fun member => IsFieldName member.1

/-- The kind that a value names. -/
def kindOf? : Json → Option NodeKind
  | .string tag => some (.ofTag tag)
  | _ => none

/-- The attributes that a value holds. -/
def attributesOf? : Json → Option (List (String × Json))
  | .object members _ => some (Fields.ofList (Json.canonicalMembers members))
  | _ => none

/-- A part of which there may be one: the one that was met before, or the only one of some values. -/
def onlyPart {α : Type} (part? : Json → Option α) : Option α → List Json → Option (Option α)
  | met, [] => some met
  | none, value :: rest => (part? value).bind fun part => onlyPart part? (some part) rest
  | some _, _ :: _ => none

/-- The fields that some members become. -/
def fieldsOf? : List (String × Json) → Option (List (String × Child))
  | [] => some []
  | (name, value) :: rest =>
    (Child.ofJson? value).bind fun child => (fieldsOf? rest).map ((name, child) :: ·)

/-- There is one part if there is one value, which has it, and none if there is no value. -/
theorem onlyPart_eq_some {α : Type} {part? : Json → Option α} {values : List Json}
    {part : Option α} : onlyPart part? none values = some part ↔
      (values = [] ∧ part = none) ∨ ∃ value a, values = [value] ∧ part? value = some a ∧
        part = some a := by
  rcases values with _ | ⟨value, _ | ⟨other, rest⟩⟩
  · simp [onlyPart, eq_comm]
  · rcases h : part? value with _ | a
    · simp [onlyPart, h]
    · simp [onlyPart, h, eq_comm]
  · rcases h : part? value with _ | a
    · simp [onlyPart, h]
    · simp [onlyPart, h]

/-- A draft is filled by the kind, the attributes and the fields among the members, each of which can
be found by itself. -/
theorem draftOfJson?_eq (members : List (String × Json)) (draft : Draft) :
    draftOfJson? members draft =
      (onlyPart kindOf? draft.kind (valuesOf kindName members)).bind fun kind =>
        (onlyPart attributesOf? draft.attributes (valuesOf attributesName members)).bind
          fun attributes => (fieldsOf? (fieldMembers members)).map fun fields =>
            ⟨kind, attributes, fields.foldl (fun fields (name, child) =>
              Fields.insert name child fields) draft.fields⟩ := by
  induction members generalizing draft with
  | nil => simp [draftOfJson?, valuesOf, onlyPart, fieldMembers, fieldsOf?]
  | cons member rest ih =>
    obtain ⟨name, value⟩ := member
    rw [draftOfJson?.eq_def, Fields.valuesOf_cons, Fields.valuesOf_cons]
    dsimp only
    by_cases hkind : name = kindName
    · have hfield : fieldMembers ((name, value) :: rest) = fieldMembers rest := by
        simp [fieldMembers, IsFieldName, hkind]
      have hother : name ≠ attributesName := by rw [hkind]; decide
      rw [if_pos hkind, if_pos hkind, if_neg hother, hfield]
      -- A second kind is refused, whatever its value is.
      obtain ⟨_ | kind, attributes, fields⟩ := draft
      · cases value <;> simp [onlyPart, kindOf?, ih]
      · simp [onlyPart]
    · rw [if_neg hkind, if_neg hkind]
      by_cases hattributes : name = attributesName
      · have hfield : fieldMembers ((name, value) :: rest) = fieldMembers rest := by
          simp [fieldMembers, IsFieldName, hattributes]
        rw [if_pos hattributes, if_pos hattributes, hfield]
        obtain ⟨kind, _ | attributes, fields⟩ := draft
        · cases value <;> simp [onlyPart, attributesOf?, ih]
        · simp [onlyPart]
      · have hfield : fieldMembers ((name, value) :: rest) = (name, value) :: fieldMembers rest := by
          simp [fieldMembers, IsFieldName, hkind, hattributes]
        rw [if_neg hattributes, if_neg hattributes, hfield, fieldsOf?]
        rcases Child.ofJson? value with _ | child
        · simp
        · simp [ih, Function.comp_def]

/-- Members become fields if each of them has a content, under the same name. -/
theorem fieldsOf?_eq_some {members : List (String × Json)} {fields : List (String × Child)} :
    fieldsOf? members = some fields ↔ List.Forall₂ (fun member field =>
      member.1 = field.1 ∧ Child.ofJson? member.2 = some field.2) members fields := by
  induction members generalizing fields with
  | nil => simp [fieldsOf?, eq_comm]
  | cons member rest ih =>
    obtain ⟨name, value⟩ := member
    rw [fieldsOf?, List.forall₂_cons_left_iff]
    rcases h : Child.ofJson? value with _ | child
    · simp
    · simp only [Option.bind_some, Option.map_eq_some_iff, ih]
      constructor
      · rintro ⟨fields, hfields, rfl⟩
        exact ⟨_, fields, ⟨rfl, rfl⟩, hfields, rfl⟩
      · rintro ⟨⟨_, _⟩, fields, ⟨rfl, ⟨⟩⟩, hfields, rfl⟩
        exact ⟨fields, hfields, rfl⟩

/-- An object is a node if its members have one kind, at most one object of attributes and contents
for fields. -/
theorem ofJson?_object {members : List (String × Json)} {ending : Json.Ending} {node : Node} :
    ofJson? (.object members ending) = some node ↔
      (∃ tag, valuesOf kindName members = [.string tag] ∧ node.kind = .ofTag tag) ∧
      ((valuesOf attributesName members = [] ∧ node.attributes = []) ∨
        ∃ inner ending', valuesOf attributesName members = [.object inner ending'] ∧
          node.attributes = Fields.ofList (Json.canonicalMembers inner)) ∧
      ∃ fields, fieldsOf? (fieldMembers members) = some fields ∧
        node.fields = Fields.ofList fields := by
  have hkind : ∀ {value : Json} {kind : NodeKind},
      kindOf? value = some kind ↔ ∃ tag, value = .string tag ∧ kind = .ofTag tag := by
    intro value kind
    cases value <;> simp [kindOf?, eq_comm]
  have hattributes : ∀ {value : Json} {attributes : List (String × Json)},
      attributesOf? value = some attributes ↔ ∃ inner ending', value = .object inner ending' ∧
        attributes = Fields.ofList (Json.canonicalMembers inner) := by
    intro value attributes
    cases value <;> simp [attributesOf?, eq_comm]
  obtain ⟨kind, attributes, fields⟩ := node
  -- A draft is filled part by part; each part depends on the members of its own name only.
  rw [ofJson?, draftOfJson?_eq]
  simp only [Option.bind_eq_some_iff, Option.map_eq_some_iff, onlyPart_eq_some, hkind, hattributes,
    Draft.finish]
  constructor
  · rintro ⟨_, ⟨_, hkinds, _, hattributes, _, hfields, rfl⟩, kind', rfl, heq⟩
    obtain ⟨rfl, rfl, rfl⟩ := Node.mk.inj heq
    refine ⟨?_, ?_, _, hfields, rfl⟩
    · rcases hkinds with ⟨-, hnone⟩ | ⟨_, _, hvalues, ⟨tag, rfl, rfl⟩, hsome⟩
      · cases hnone
      · exact ⟨tag, hvalues, Option.some.inj hsome⟩
    · rcases hattributes with ⟨hvalues, rfl⟩ | ⟨_, _, hvalues, ⟨inner, ending', rfl, rfl⟩, rfl⟩
      · exact Or.inl ⟨hvalues, rfl⟩
      · exact Or.inr ⟨inner, ending', hvalues, rfl⟩
  · rintro ⟨⟨tag, hvalues, rfl⟩, hattributes, children, hfields, rfl⟩
    rcases hattributes with ⟨hnone, rfl⟩ | ⟨inner, ending', hsome, rfl⟩
    · exact ⟨_, ⟨_, Or.inr ⟨_, _, hvalues, ⟨tag, rfl, rfl⟩, rfl⟩, _, Or.inl ⟨hnone, rfl⟩, children,
        hfields, rfl⟩, _, rfl, rfl⟩
    · exact ⟨_, ⟨_, Or.inr ⟨_, _, hvalues, ⟨tag, rfl, rfl⟩, rfl⟩, _,
        Or.inr ⟨_, _, hsome, ⟨inner, ending', rfl, rfl⟩, rfl⟩, children, hfields, rfl⟩, _, rfl, rfl⟩

end Node

/-- Items become contents if each of them is one. -/
theorem childrenOfJson?_eq_some {items : List Json} {children : List Child} :
    childrenOfJson? items = some children ↔
      List.Forall₂ (fun item child => Child.ofJson? item = some child) items children := by
  induction items generalizing children with
  | nil => simp [childrenOfJson?, eq_comm]
  | cons item rest ih =>
    rw [childrenOfJson?.eq_def, List.forall₂_cons_left_iff]
    dsimp only
    -- One item that is not read is enough to refuse the list.
    rcases h : Child.ofJson? item with _ | child
    · simp
    · rcases hrest : childrenOfJson? rest with _ | more
      · simp only [hrest, reduceCtorEq, false_iff] at ih ⊢
        rintro ⟨_, more, -, hmore, -⟩
        exact ih hmore
      · simp only [← ih, hrest, Option.some.injEq]
        constructor
        · rintro rfl
          exact ⟨child, more, rfl, rfl, rfl⟩
        · rintro ⟨_, _, rfl, rfl, rfl⟩
          rfl

/-! ## Trials -/

/-- A number as a literal: an integer of 64 signed bits stays one, and all else is a double. -/
def Json.Number.toScalar : Json.Number → Scalar
  | .int n =>
    if -signedBound ≤ n ∧ n < signedBound then .long (Int64.ofInt n) else .double (Double.ofInt n)
  | .double x => .double x

/-- Only an integer passes two of the trials for literals: it is one of 64 signed bits if it can be,
and a double otherwise. -/
theorem Scalar.ofJson?_eq_match (value : Json) : Scalar.ofJson? value =
    match value with
    | .bool b => some (.bool b)
    | .number n => some n.toScalar
    | .string s => some (.string s)
    | _ => none := by
  rw [Scalar.ofJson?]
  cases value with
  | number n =>
    cases n with
    | double x => rfl
    | int n =>
      by_cases h : -(Json.signedBound : Int) ≤ n ∧ n < Json.signedBound
      · simp [Json.bool?, Json.long?, Json.Number.toScalar, h]
      · simp [Json.bool?, Json.long?, Json.double?, Json.Number.toScalar, h]
  | null | bool _ | string _ | array _ _ | object _ _ | unreadable _ => rfl

/-- No value passes more than one of the trials for contents, so which of them it passes can be told
from the value. -/
theorem Child.ofJson?_eq_match (value : Json) : Child.ofJson? value =
    match value with
    | .null => some .null
    | .bool b => some (.scalar (.bool b))
    | .number n => some (.scalar n.toScalar)
    | .string s => some (.scalar (.string s))
    | .array items _ => (childrenOfJson? items).map .list
    | .object members ending => (Node.ofJson? (.object members ending)).map .node
    | .unreadable _ => none := by
  rw [Child.ofJson?.eq_def, Scalar.ofJson?_eq_match]
  cases value <;> simp [Node.ofJson?]

/-- An object is a content if it is a node. -/
theorem Child.ofJson?_object (members : List (String × Json)) (ending : Json.Ending) :
    Child.ofJson? (.object members ending) =
      (Node.ofJson? (.object members ending)).map .node :=
  Child.ofJson?_eq_match _

/-! ## The grammar -/

mutual

/-- A value is a node: an object with one kind, at most one object of attributes, and a content in
every other member. -/
inductive Json.IsNode : Json → Prop where
  | object {members : List (String × Json)} {ending : Ending} {tag : String}
      (kind : valuesOf Node.kindName members = [.string tag])
      (attributes : valuesOf Node.attributesName members = [] ∨
        ∃ inner ending', valuesOf Node.attributesName members = [.object inner ending'])
      (fields : ∀ member ∈ members, Node.IsFieldName member.1 → IsContent member.2) :
      IsNode (.object members ending)

/-- A value is the content of a field: nothing, a literal, a list of contents or a node. -/
inductive Json.IsContent : Json → Prop where
  | null : IsContent .null
  | bool (b : Bool) : IsContent (.bool b)
  | number (n : Number) : IsContent (.number n)
  | string (s : String) : IsContent (.string s)
  | array {items : List Json} {ending : Ending} :
      (∀ item ∈ items, IsContent item) → IsContent (.array items ending)
  | node {value : Json} : IsNode value → IsContent value

end

mutual

/-- The node that a value stands for. Its fields are in order; their names are those of the members
other than the kind and the attributes, and each has the content of the last member with its name. -/
inductive Json.Spells : Json → Node → Prop where
  | object {members : List (String × Json)} {ending : Ending} {tag : String}
      {attributes : List (String × Json)} {fields : List (String × Child)}
      (kind : valuesOf Node.kindName members = [.string tag])
      (sorted : Fields.Sorted fields)
      (names : ∀ name, name ∈ fields.map Prod.fst ↔
        name ∈ members.map Prod.fst ∧ Node.IsFieldName name)
      (contents : ∀ name child value, fields.lookup name = some child →
        (valuesOf name members).getLast? = some value → SpellsContent value child) :
      Spells (.object members ending) ⟨.ofTag tag, attributes, fields⟩

/-- The content that a value stands for. Integers of 64 signed bits stay integers, and every other
number is a double. -/
inductive Json.SpellsContent : Json → Child → Prop where
  | null : SpellsContent .null .null
  | bool (b : Bool) : SpellsContent (.bool b) (.scalar (.bool b))
  | long (n : Int64) : SpellsContent (.int n.toInt) (.scalar (.long n))
  | large {n : Int} : (∀ m : Int64, m.toInt ≠ n) →
      SpellsContent (.int n) (.scalar (.double (.ofInt n)))
  | double (x : Double) : SpellsContent (.number (.double x)) (.scalar (.double x))
  | string (s : String) : SpellsContent (.string s) (.scalar (.string s))
  | list {items : List Json} {ending : Ending} {children : List Child} :
      items.length = children.length →
      (∀ (i : Nat) (item : Json) (child : Child), items[i]? = some item →
        children[i]? = some child → SpellsContent item child) →
      SpellsContent (.array items ending) (.list children)
  | node {value : Json} {node : Node} : Spells value node → SpellsContent value (.node node)

end

/-! ## What is accepted -/

/-- An object is a content if it is a node. -/
theorem Json.isContent_object_iff {members : List (String × Json)} {ending : Ending} :
    IsContent (.object members ending) ↔ IsNode (.object members ending) := by
  refine ⟨fun h => ?_, .node⟩
  cases h with
  | node h => exact h

/-- Members become fields if all of them have contents. -/
theorem Node.fieldsOf?_isSome_iff {members : List (String × Json)} :
    (fieldsOf? members).isSome ↔ ∀ member ∈ members, (Child.ofJson? member.2).isSome := by
  induction members with
  | nil => simp [fieldsOf?]
  | cons member rest ih =>
    rw [fieldsOf?, List.forall_mem_cons, ← ih]
    rcases Child.ofJson? member.2 with _ | child <;> simp

/-- Items become contents if all of them are. -/
theorem childrenOfJson?_isSome_iff {items : List Json} :
    (childrenOfJson? items).isSome ↔ ∀ item ∈ items, (Child.ofJson? item).isSome := by
  induction items with
  | nil => simp [childrenOfJson?]
  | cons item rest ih =>
    rw [childrenOfJson?.eq_def, List.forall_mem_cons, ← ih]
    dsimp only
    rcases Child.ofJson? item with _ | child <;> rcases childrenOfJson? rest with _ | more <;> simp

/-- An object is accepted as a node if it is one, given that its members are accepted as contents if
they are contents. -/
theorem Node.ofJson?_object_isSome_iff {members : List (String × Json)} {ending : Json.Ending}
    (h : ∀ member ∈ members, (Child.ofJson? member.2).isSome ↔ member.2.IsContent) :
    (Node.ofJson? (.object members ending)).isSome ↔ (Json.object members ending).IsNode := by
  rw [Option.isSome_iff_exists]
  constructor
  · rintro ⟨node, hnode⟩
    obtain ⟨⟨tag, hkind, -⟩, hattributes, fields, hfields, -⟩ := ofJson?_object.mp hnode
    refine .object hkind ?_ fun member hmember hname => (h member hmember).mp ?_
    · exact hattributes.imp And.left fun ⟨inner, ending', hvalues, _⟩ => ⟨inner, ending', hvalues⟩
    · refine fieldsOf?_isSome_iff.mp (by rw [hfields]; rfl) member ?_
      exact List.mem_filter.mpr ⟨hmember, decide_eq_true hname⟩
  · rintro (@⟨_, _, tag, hkind, hattributes, hfields⟩)
    have hsome : (fieldsOf? (fieldMembers members)).isSome := by
      refine fieldsOf?_isSome_iff.mpr fun member hmember => ?_
      obtain ⟨hmember, hname⟩ := List.mem_filter.mp hmember
      exact (h member hmember).mpr (hfields member hmember (of_decide_eq_true hname))
    obtain ⟨fields, hfields⟩ := Option.isSome_iff_exists.mp hsome
    rcases hattributes with hnone | ⟨inner, ending', hvalues⟩
    · exact ⟨⟨.ofTag tag, [], Fields.ofList fields⟩,
        ofJson?_object.mpr ⟨⟨tag, hkind, rfl⟩, Or.inl ⟨hnone, rfl⟩, fields, hfields, rfl⟩⟩
    · exact ⟨⟨.ofTag tag, Fields.ofList (Json.canonicalMembers inner), Fields.ofList fields⟩,
        ofJson?_object.mpr ⟨⟨tag, hkind, rfl⟩, Or.inr ⟨inner, ending', hvalues, rfl⟩, fields,
          hfields, rfl⟩⟩

/-- A value is accepted as the content of a field if it is one. -/
theorem Child.ofJson?_isSome_iff (value : Json) :
    (Child.ofJson? value).isSome ↔ value.IsContent := by
  induction value using Json.induction with
  | null => simpa [Child.ofJson?_eq_match] using Json.IsContent.null
  | bool b => simpa [Child.ofJson?_eq_match] using Json.IsContent.bool b
  | number n => simpa [Child.ofJson?_eq_match] using Json.IsContent.number n
  | string s => simpa [Child.ofJson?_eq_match] using Json.IsContent.string s
  | array items ending ih =>
    rw [Child.ofJson?_eq_match, Option.isSome_map, childrenOfJson?_isSome_iff]
    constructor
    · exact fun h => .array fun item hitem => (ih item hitem).mp (h item hitem)
    · intro h item hitem
      cases h with
      | array h => exact (ih item hitem).mpr (h item hitem)
      | node h => cases h
  | object members ending ih =>
    rw [Child.ofJson?_object, Option.isSome_map, Json.isContent_object_iff]
    exact Node.ofJson?_object_isSome_iff ih
  | unreadable fault =>
    simp only [Child.ofJson?_eq_match, Option.isSome_none, Bool.false_eq_true, false_iff]
    rintro ⟨⟩
    contradiction

/-- Only objects are accepted as nodes. -/
theorem Node.ofJson?_of_not_object {value : Json}
    (h : ¬ ∃ members ending, value = .object members ending) : Node.ofJson? value = none := by
  unfold Node.ofJson?
  split
  · exact absurd ⟨_, _, rfl⟩ h
  · rfl

/-- A value is accepted as a node if it is one. -/
theorem Node.ofJson?_isSome_iff (value : Json) : (Node.ofJson? value).isSome ↔ value.IsNode := by
  by_cases h : ∃ members ending, value = .object members ending
  · obtain ⟨members, ending, rfl⟩ := h
    exact Node.ofJson?_object_isSome_iff fun member _ => Child.ofJson?_isSome_iff member.2
  · rw [Node.ofJson?_of_not_object h]
    simp only [Option.isSome_none, Bool.false_eq_true, false_iff]
    rintro ⟨⟩
    exact h ⟨_, _, rfl⟩

/-! ## What is decoded -/

/-- The last values of a name correspond to each other. -/
theorem Node.getLast?_valuesOf {members : List (String × Json)} {fields : List (String × Child)}
    (h : List.Forall₂ (fun member field => member.1 = field.1 ∧
      Child.ofJson? member.2 = some field.2) members fields) (name : String) :
    Option.Rel (fun value child => Child.ofJson? value = some child)
      (valuesOf name members).getLast? (valuesOf name fields).getLast? := by
  induction h with
  | nil => exact .none
  | @cons member field members fields hhead _ ih =>
    rw [Fields.valuesOf_cons, Fields.valuesOf_cons, ← hhead.1]
    split
    · rw [List.getLast?_cons, List.getLast?_cons]
      generalize (valuesOf name members).getLast? = last at ih ⊢
      generalize (valuesOf name fields).getLast? = last' at ih ⊢
      cases ih with
      | some hlast => exact .some hlast
      | none => exact .some hhead.2
    · exact ih

/-- The members with the name of a field are all among the fields. -/
theorem Node.valuesOf_fieldMembers {name : String} (h : IsFieldName name)
    (members : List (String × Json)) :
    valuesOf name (fieldMembers members) = valuesOf name members := by
  induction members with
  | nil => rfl
  | cons member rest ih =>
    by_cases hname : IsFieldName member.1
    · have hcons : fieldMembers (member :: rest) = member :: fieldMembers rest := by
        simp [fieldMembers, hname]
      rw [hcons, Fields.valuesOf_cons, Fields.valuesOf_cons, ih]
    · have hcons : fieldMembers (member :: rest) = fieldMembers rest := by
        simp [fieldMembers, hname]
      have hne : member.1 ≠ name := fun heq => hname (heq ▸ h)
      rw [hcons, ih, Fields.valuesOf_cons, if_neg hne]

/-- A member is among the fields if its name is that of a field. -/
theorem Node.mem_names_fieldMembers {name : String} {members : List (String × Json)} :
    name ∈ (fieldMembers members).map Prod.fst ↔
      name ∈ members.map Prod.fst ∧ IsFieldName name := by
  simp only [fieldMembers, List.mem_map, List.mem_filter, decide_eq_true_eq]
  constructor
  · rintro ⟨member, ⟨hmember, hname⟩, rfl⟩
    exact ⟨⟨member, hmember, rfl⟩, hname⟩
  · rintro ⟨⟨member, hmember, rfl⟩, hname⟩
    exact ⟨member, ⟨hmember, hname⟩, rfl⟩

/-- Fields keep the names of the members that they come from. -/
theorem Node.names_eq_of_fieldsOf? {members : List (String × Json)}
    {fields : List (String × Child)} (h : fieldsOf? members = some fields) :
    fields.map Prod.fst = members.map Prod.fst := by
  have hall := fieldsOf?_eq_some.mp h
  clear h
  induction hall with
  | nil => rfl
  | cons hhead _ ih => rw [List.map_cons, List.map_cons, ih, hhead.1]

/-- The node that an object is decoded into is the one that it stands for, given this of the contents
of its members. -/
theorem Node.spells_of_ofJson? {members : List (String × Json)} {ending : Json.Ending}
    (h : ∀ member ∈ members, ∀ child, Child.ofJson? member.2 = some child →
      member.2.SpellsContent child) {node : Node}
    (hnode : Node.ofJson? (.object members ending) = some node) :
    (Json.object members ending).Spells node := by
  obtain ⟨kind, attributes, fields⟩ := node
  obtain ⟨⟨tag, hkind, rfl⟩, -, given, hgiven, rfl⟩ := ofJson?_object.mp hnode
  refine .object hkind (Fields.sorted_ofList given) (fun name => ?_)
    fun name child value hchild hvalue => ?_
  · rw [Fields.mem_names_ofList, names_eq_of_fieldsOf? hgiven, mem_names_fieldMembers]
  · have hname : IsFieldName name := by
      have hmem : name ∈ (Fields.ofList given).map Prod.fst := by
        rw [Fields.mem_names_iff_lookup, hchild]
        exact Option.some_ne_none child
      rw [Fields.mem_names_ofList, names_eq_of_fieldsOf? hgiven, mem_names_fieldMembers] at hmem
      exact hmem.2
    -- Of several members with one name, the last one is the field.
    have hlast := getLast?_valuesOf (fieldsOf?_eq_some.mp hgiven) name
    rw [valuesOf_fieldMembers hname, hvalue, ← Fields.lookup_ofList, hchild] at hlast
    cases hlast with
    | some hdecoded =>
      exact h (name, value) (Fields.mem_valuesOf.mp (List.mem_of_getLast? hvalue)) child hdecoded

/-- A number stands for the literal that it becomes. -/
theorem Json.Number.spellsContent (n : Number) :
    SpellsContent (.number n) (.scalar n.toScalar) := by
  cases n with
  | double x => exact .double x
  | int n =>
    rw [toScalar]
    split
    · next h =>
      have hn : (Int64.ofInt n).toInt = n := Int64.toInt_ofInt_of_le h.1 h.2
      have hlong := SpellsContent.long (Int64.ofInt n)
      rwa [hn] at hlong
    · next h =>
      refine .large fun m hm => h ?_
      have hlow := m.le_toInt
      have hhigh := m.toInt_lt
      rw [← hm]
      exact ⟨hlow, hhigh⟩

/-- The content that a value is decoded into is the one that it stands for. -/
theorem Child.spells_of_ofJson? {value : Json} {child : Child}
    (h : Child.ofJson? value = some child) : value.SpellsContent child := by
  induction value using Json.induction generalizing child with
  | null =>
    obtain rfl : Child.null = child := by simpa [Child.ofJson?_eq_match] using h
    exact .null
  | bool b =>
    obtain rfl : Child.scalar (.bool b) = child := by simpa [Child.ofJson?_eq_match] using h
    exact .bool b
  | number n =>
    obtain rfl : Child.scalar n.toScalar = child := by simpa [Child.ofJson?_eq_match] using h
    exact n.spellsContent
  | string s =>
    obtain rfl : Child.scalar (.string s) = child := by simpa [Child.ofJson?_eq_match] using h
    exact .string s
  | array items ending ih =>
    rw [Child.ofJson?_eq_match, Option.map_eq_some_iff] at h
    obtain ⟨children, hchildren, rfl⟩ := h
    have hall := childrenOfJson?_eq_some.mp hchildren
    refine .list hall.length_eq fun i item child hitem hchild => ?_
    obtain ⟨hi, rfl⟩ := List.getElem?_eq_some_iff.mp hitem
    obtain ⟨hi', rfl⟩ := List.getElem?_eq_some_iff.mp hchild
    exact ih _ (List.getElem_mem hi) (hall.get hi hi')
  | object members ending ih =>
    rw [Child.ofJson?_object, Option.map_eq_some_iff] at h
    obtain ⟨node, hnode, rfl⟩ := h
    exact .node (Node.spells_of_ofJson? (fun member hmember child hchild =>
      ih member hmember hchild) hnode)
  | unreadable fault => simp [Child.ofJson?_eq_match] at h

/-! ## Readers -/

/-- Going on behind a cause succeeds if there is none. -/
theorem Json.proceed_bind_eq_ok {α : Type} {cause : Option Cause} {next : Except ReadError α}
    {a : α} : (proceed cause >>= fun _ => next) = .ok a ↔ cause = none ∧ next = .ok a := by
  cases cause with
  | none => exact ⟨fun h => ⟨rfl, h⟩, fun h => h.2⟩
  | some cause => exact ⟨nofun, nofun⟩

/-- Reading members meets no fault if neither the first nor the others have one. -/
theorem Json.readFaultMembers_cons_eq_none {depth : Nat} {name : String} {value : Json}
    {rest : List (String × Json)} : readFaultMembers depth ((name, value) :: rest) = none ↔
      readFault depth value = none ∧ readFaultMembers depth rest = none := by
  simp only [readFaultMembers_eq_none, List.forall_mem_cons]

namespace Node

open Json in
/-- A reader that gets through the members of a node has met no fault in them. -/
theorem readFaultMembers_of_checkMembers {depth : Nat} {members : List (String × Json)}
    {hasKind hasAttributes found : Bool}
    (h : checkMembers depth members hasKind hasAttributes = .ok found) :
    readFaultMembers depth members = none := by
  induction members generalizing hasKind hasAttributes with
  | nil => rw [readFaultMembers]
  | cons member rest ih =>
    obtain ⟨name, value⟩ := member
    rw [readFaultMembers_cons_eq_none]
    -- The check reads every value to its end but the kind, which is a text and cannot nest.
    unfold checkMembers at h
    split at h
    · split at h
      · cases h
      · split at h
        · exact ⟨by simp [readFault], ih h⟩
        · cases h
    · split at h
      · split at h
        · cases h
        · split at h
          · rw [proceed_bind_eq_ok] at h
            exact ⟨h.1, ih h.2⟩
          · cases h
      · rw [proceed_bind_eq_ok] at h
        exact ⟨h.1, ih h.2⟩

open Json in
/-- A reader gets through the members of a node when there is no fault in them. -/
theorem checkMembers_of_draftOfJson? {depth : Nat} {members : List (String × Json)}
    {draft draft' : Draft} (hfault : readFaultMembers depth members = none)
    (hdraft : draftOfJson? members draft = some draft') :
    checkMembers depth members draft.kind.isSome draft.attributes.isSome =
      .ok draft'.kind.isSome := by
  induction members generalizing draft with
  | nil =>
    obtain rfl : draft = draft' := by simpa [draftOfJson?] using hdraft
    rfl
  | cons member rest ih =>
    obtain ⟨name, value⟩ := member
    obtain ⟨hvalue, hrest⟩ := readFaultMembers_cons_eq_none.mp hfault
    rw [draftOfJson?.eq_def] at hdraft
    dsimp only at hdraft
    -- The two walks look for the same names in the same order, and the draft holds what the check
    -- has seen.
    unfold checkMembers
    split
    · next hname =>
      rw [if_pos hname] at hdraft
      split at hdraft
      · next hkind =>
        rw [hkind]
        exact ih hrest hdraft
      · cases hdraft
    · next hname =>
      rw [if_neg hname] at hdraft
      split
      · next hattributes =>
        rw [if_pos hattributes] at hdraft
        split at hdraft
        · next hnone =>
          rw [hnone]
          exact proceed_bind_eq_ok.mpr ⟨hvalue, ih hrest hdraft⟩
        · cases hdraft
      · next hattributes =>
        rw [if_neg hattributes] at hdraft
        split at hdraft
        · have hmore := ih hrest hdraft
          exact proceed_bind_eq_ok.mpr ⟨hvalue, hmore⟩
        · cases hdraft

end Node

open Json in
/-- A node is read where there is no fault in the text, and the value is a node. -/
theorem Node.read_eq_ok_iff (depth : Nat) (value : Json) (node : Node) :
    Node.read depth value = .ok node ↔
      value.readFault depth = none ∧ Node.ofJson? value = some node := by
  by_cases hobject : ∃ members ending, value = .object members ending
  · obtain ⟨members, ending, rfl⟩ := hobject
    cases depth with
    | zero => simp [Node.read, readFault]
    | succ depth =>
      have hfault : readFault (depth + 1) (.object members ending) = none ↔
          readFaultMembers depth members = none ∧ ending.reading = none := by
        rw [readFault]
        cases readFaultMembers depth members <;> simp
      rw [hfault]
      unfold Node.read
      dsimp only
      constructor
      · intro h
        rcases hcheck : Node.checkMembers depth members false false with e | found
        · rw [hcheck] at h
          cases h
        · rw [hcheck] at h
          obtain ⟨hending, h⟩ := proceed_bind_eq_ok.mp h
          refine ⟨⟨readFaultMembers_of_checkMembers hcheck, hending⟩, ?_⟩
          cases found with
          | false => cases h
          | true =>
            rcases hnode : Node.ofJson? (.object members ending) with _ | node'
            · rw [hnode] at h
              cases h
            · rw [hnode] at h
              cases h
              rfl
      · rintro ⟨⟨hmembers, hending⟩, hnode⟩
        -- A node has a kind, so the members are passed with one.
        have hcheck : Node.checkMembers depth members false false = .ok true := by
          rw [Node.ofJson?, Option.bind_eq_some_iff] at hnode
          obtain ⟨draft, hdraft, hfinish⟩ := hnode
          obtain ⟨kind, hkind, -⟩ := Option.map_eq_some_iff.mp hfinish
          have hcheck := checkMembers_of_draftOfJson? hmembers hdraft
          rwa [hkind] at hcheck
        rw [hcheck, hnode]
        exact proceed_bind_eq_ok.mpr ⟨hending, rfl⟩
  · have hread : ∃ e, Node.read depth value = .error e := by
      unfold Node.read
      split
      · exact absurd ⟨_, _, rfl⟩ hobject
      · exact ⟨_, rfl⟩
    obtain ⟨e, hread⟩ := hread
    simp [hread, Node.ofJson?_of_not_object hobject]

/-- The decoder of syntax trees accepts what the grammar says and decodes it as the grammar says. A
value is decoded as a node exactly if it is one; the node is the one that the value stands for; and
a reader with some levels of containers left reads a node from it exactly if it meets no fault of
the text on these levels and the value is decoded as that node. -/
theorem Node.decoded_iff_grammar (value : Json) :
    ((Node.ofJson? value).isSome ↔ value.IsNode) ∧
      (∀ node, Node.ofJson? value = some node → value.Spells node) ∧
      ∀ depth node, Node.read depth value = .ok node ↔
        value.readFault depth = none ∧ Node.ofJson? value = some node := by
  refine ⟨Node.ofJson?_isSome_iff value, fun node hnode => ?_, fun depth node =>
    Node.read_eq_ok_iff depth value node⟩
  by_cases hobject : ∃ members ending, value = .object members ending
  · obtain ⟨members, ending, rfl⟩ := hobject
    exact Node.spells_of_ofJson? (fun member _ child hchild => Child.spells_of_ofJson? hchild) hnode
  · rw [Node.ofJson?_of_not_object hobject] at hnode
    cases hnode

end Lowering
