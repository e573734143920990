import Mathlib.Data.List.Forall2
import Mathlib.Logic.Function.Basic
import Lowering.Proofs.Compile.Built

/-!
# Terms

What an expression computes, as a term: literals and arrays, to which operations are applied.
`Node.term?` is the term of an expression that is simple, read off its tree alone, and `none` for
any other node.

The other half is what op-lines without jumps compute. A `Store` says what each slot holds while
they are executed: a value that the compiler left there, or a term that an op-line has written.
Reading a slot gives a term, through the slots that stand in arrays, and an op-line writes its
operation applied to the terms of its operands (`Executes`). Both are functional: a slot reads as
one term at most (`Store.Reads.unique`), and op-lines lead to one store at most (`Executes.unique`).
-/

namespace Lowering

/-- What an expression computes. -/
inductive Term where
  | null
  | bool (b : Bool)
  | long (n : Int64)
  | double (x : Double)
  | string (s : String)
  | array (items : List Term)
  | unary (kind : UnaryKind) (operand : Term)
  | binary (kind : BinaryKind) (left right : Term)

/-! ## Reading values -/

section

variable (slot : SlotId → Option Term)

mutual

/-- The term of a value, given those of the slots. A parameter record has none. -/
def Value.read : Value → Option Term
  | .null => some .null
  | .bool b => some (.bool b)
  | .long n => some (.long n)
  | .double x => some (.double x)
  | .string s => some (.string s)
  | .array items => (readValues items).map .array
  | .slot id => slot id
  | .param _ => none

/-- The terms of values. -/
def readValues : List Value → Option (List Term)
  | [] => some []
  | value :: rest => do
    let term ← value.read
    let terms ← readValues rest
    return term :: terms

end

end

/-- The term of a value that names no slot. -/
def Value.literal? (value : Value) : Option Term :=
  value.read fun _ => none

section

variable {slot slot' : SlotId → Option Term}

mutual

/-- A value reads the same where more slots can be read. -/
theorem Value.read_mono (h : ∀ id term, slot id = some term → slot' id = some term) :
    ∀ (value : Value) {term : Term}, value.read slot = some term → value.read slot' = some term
  | .null, _, hread | .bool _, _, hread | .long _, _, hread | .double _, _, hread
  | .string _, _, hread => by simpa [Value.read] using hread
  | .param _, _, hread => by simp [Value.read] at hread
  | .slot id, term, hread => by
    rw [Value.read] at hread ⊢
    exact h id term hread
  | .array items, term, hread => by
    simp only [Value.read, Option.map_eq_some_iff] at hread ⊢
    obtain ⟨terms, hterms, rfl⟩ := hread
    exact ⟨terms, readValues_mono h items hterms, rfl⟩

/-- Values read the same where more slots can be read. -/
theorem readValues_mono (h : ∀ id term, slot id = some term → slot' id = some term) :
    ∀ (values : List Value) {terms : List Term}, readValues slot values = some terms →
      readValues slot' values = some terms
  | [], _, hread => by simpa [readValues] using hread
  | value :: rest, terms, hread => by
    simp only [readValues, Option.bind_eq_bind, Option.bind_eq_some_iff] at hread ⊢
    obtain ⟨term, hvalue, terms', hrest, hterms⟩ := hread
    exact ⟨term, Value.read_mono h value hvalue, terms', readValues_mono h rest hrest, hterms⟩

end

end

mutual

/-- A literal has a term of its own. -/
theorem Value.literal?_isSome : ∀ value : Value, value.IsLiteral → value.literal?.isSome
  | .null, _ | .bool _, _ | .long _, _ | .double _, _ | .string _, _ => by
    simp [Value.literal?, Value.read]
  | .array items, h => by
    rw [Value.IsLiteral] at h
    rw [Value.literal?, Value.read, Option.isSome_map]
    exact readValues_isSome items h
  | .slot _, h | .param _, h => by simp [Value.IsLiteral] at h

/-- Literals have terms of their own. -/
theorem readValues_isSome : ∀ values : List Value, AllLiteral values →
    (readValues (fun _ => none) values).isSome
  | [], _ => by simp [readValues]
  | value :: rest, h => by
    rw [AllLiteral] at h
    obtain ⟨term, hterm⟩ := Option.isSome_iff_exists.mp (Value.literal?_isSome value h.1)
    obtain ⟨terms, hterms⟩ := Option.isSome_iff_exists.mp (readValues_isSome rest h.2)
    rw [Value.literal?] at hterm
    simp [readValues, hterm, hterms]

end

/-! ## Simple expressions -/

mutual

/-- The term of a simple expression: a literal or a name, or an operation on fields that have terms.
-/
def Node.term? : Node → Option Term
  | ⟨kind, attributes, fields⟩ =>
    match kind.descriptor? with
    | some (.literal field separator) =>
      (Node.constant ⟨kind, attributes, fields⟩ field separator).value.literal?
    | some (.unary operation field) => (fieldTerm? field fields).map (.unary operation)
    | some (.binary operation left right) => do
      let left ← fieldTerm? left fields
      let right ← fieldTerm? right fields
      return .binary operation left right
    | some (.argument _) | none => none

/-- The term of a field; a field that is missing is null. -/
def fieldTerm? (name : String) : List (String × Child) → Option Term
  | [] => some .null
  | (other, child) :: rest => if name == other then child.term? else fieldTerm? name rest

/-- The term of the content of a field: nothing, a literal or a simple expression, each bare or
alone in a list, or the arguments in a list. -/
def Child.term? : Child → Option Term
  | .null => some .null
  | .scalar s => s.toValue.literal?
  | .node n => n.term?
  | .list [.scalar s] => s.toValue.literal?
  | .list [.node n] => n.term? <|> n.argument?.map fun term => .array [term]
  | .list (first :: second :: rest) => (arguments? (first :: second :: rest)).map .array
  | .list [] | .list [.null] | .list [.list _] => none

/-- The term of an argument. -/
def Node.argument? : Node → Option Term
  | ⟨kind, _, fields⟩ =>
    match kind.descriptor? with
    | some (.argument field) => fieldTerm? field fields
    | _ => none

/-- The terms of a list of arguments. -/
def arguments? : List Child → Option (List Term)
  | [] => some []
  | .node n :: rest => do
    let term ← n.argument?
    let terms ← arguments? rest
    return term :: terms
  | _ => none

end

/-- Several items in a list are arguments, and there is at least one of them. -/
theorem Child.term?_list_cons_cons {first second : Child} {rest : List Child} {term : Term}
    (h : (Child.list (first :: second :: rest)).term? = some term) :
    ∃ argument terms, arguments? (first :: second :: rest) = some (argument :: terms) ∧
      term = .array (argument :: terms) := by
  rw [Child.term?] at h
  obtain ⟨terms, hterms, rfl⟩ := Option.map_eq_some_iff.mp h
  cases first with
  | node n =>
    rw [hterms]
    simp only [arguments?, Option.bind_eq_bind, Option.bind_eq_some_iff] at hterms
    obtain ⟨argument, -, terms', -, hcons⟩ := hterms
    obtain rfl := Option.some.inj hcons
    exact ⟨argument, terms', rfl, rfl⟩
  | null => simp [arguments?] at hterms
  | list items => simp [arguments?] at hterms
  | scalar s => simp [arguments?] at hterms

/-- Every literal and every name is a simple expression. -/
theorem Node.term?_isSome_of_literal {node : Node} {field : String} {separator : Option String}
    (h : node.kind.descriptor? = some (.literal field separator)) : node.term?.isSome := by
  obtain ⟨kind, attributes, fields⟩ := node
  simp only at h
  simp only [Node.term?, h]
  exact Value.literal?_isSome _ (Node.constant_isLiteral _ field separator)

/-! ## Executing op-lines -/

/-- What a slot holds: a value from before, or a term that has been computed. -/
inductive Content where
  | stored (value : Value)
  | computed (term : Term)

/-- What each slot holds. -/
abbrev Store := SlotId → Content

namespace Store

/-- The store of a heap: nothing has been computed. -/
def ofHeap (heap : Heap) : Store :=
  fun slot => .stored (heap.get slot).value

/-- The term of a slot, following slots in slots down to a depth. -/
def read (store : Store) : Nat → SlotId → Option Term
  | 0, _ => none
  | depth + 1, slot =>
    match store slot with
    | .stored value => value.read (store.read depth)
    | .computed term => some term

/-- A slot reads as a term. -/
def Reads (store : Store) (slot : SlotId) (term : Term) : Prop :=
  ∃ depth, store.read depth slot = some term

variable {store : Store} {slot : SlotId} {term term' : Term}

/-- A term that is found at a depth is found one deeper. -/
theorem read_succ {depth : Nat} (h : store.read depth slot = some term) :
    store.read (depth + 1) slot = some term := by
  induction depth generalizing slot term with
  | zero => simp [read] at h
  | succ depth ih =>
    rw [read] at h ⊢
    split at h
    · exact Value.read_mono (fun id term hread => ih hread) _ h
    · exact h

/-- A term that is found at a depth is found at every greater one. -/
theorem read_of_le {depth depth' : Nat} (hle : depth ≤ depth')
    (h : store.read depth slot = some term) : store.read depth' slot = some term := by
  induction hle with
  | refl => exact h
  | step _ ih => exact read_succ ih

/-- A slot reads as one term at most. -/
theorem Reads.unique (h : store.Reads slot term) (h' : store.Reads slot term') : term = term' := by
  obtain ⟨depth, hread⟩ := h
  obtain ⟨depth', hread'⟩ := h'
  have hmax := read_of_le (Nat.le_max_left depth depth') hread
  have hmax' := read_of_le (Nat.le_max_right depth depth') hread'
  exact Option.some.inj (hmax.symm.trans hmax')

/-- A slot in which a term has been computed reads as that term. -/
theorem reads_computed (h : store slot = .computed term) : store.Reads slot term :=
  ⟨1, by simp [read, h]⟩

/-- A slot that holds a literal reads as that. -/
theorem reads_literal {value : Value} (h : store slot = .stored value)
    (hliteral : value.literal? = some term) : store.Reads slot term := by
  refine ⟨1, ?_⟩
  rw [read, h]
  exact Value.read_mono (by simp) value hliteral

/-- A slot that holds an array of slots reads as the array of their terms. -/
theorem reads_slots {slots : List SlotId} {terms : List Term}
    (h : store slot = .stored (.array (slots.map .slot)))
    (hslots : List.Forall₂ store.Reads slots terms) : store.Reads slot (.array terms) := by
  -- A depth at which one more slot can be read is enough for the others too.
  have hread : ∃ depth, readValues (store.read depth) (slots.map .slot) = some terms := by
    clear h
    induction hslots with
    | nil => exact ⟨0, by simp [readValues]⟩
    | cons hslot _ ih =>
      obtain ⟨depth, hslot⟩ := hslot
      obtain ⟨depth', hrest⟩ := ih
      have hmax := read_of_le (Nat.le_max_left depth depth') hslot
      have hmax' := readValues_mono
        (fun _ _ hread => read_of_le (Nat.le_max_right depth depth') hread) _ hrest
      refine ⟨max depth depth', ?_⟩
      simp [readValues, Value.read, hmax, hmax']
  obtain ⟨depth, hread⟩ := hread
  refine ⟨depth + 1, ?_⟩
  rw [read, h]
  simp [Value.read, hread]

end Store

/-- Executing op-lines in order: each reads its operands and writes the term of its operation. -/
inductive Executes : Store → List OpLine → Store → Prop where
  | done {store : Store} : Executes store [] store
  | unary {store final : Store} {id : OpId} {kind : UnaryKind} {op1 result : SlotId} {term : Term}
      {rest : List OpLine} : store.Reads op1 term →
        Executes (Function.update store result (.computed (.unary kind term))) rest final →
        Executes store (⟨id, .unary kind op1 result⟩ :: rest) final
  | binary {store final : Store} {id : OpId} {kind : BinaryKind} {op1 op2 result : SlotId}
      {left right : Term} {rest : List OpLine} : store.Reads op1 left → store.Reads op2 right →
        Executes (Function.update store result (.computed (.binary kind left right))) rest final →
        Executes store (⟨id, .binary kind op1 op2 result⟩ :: rest) final

/-- Op-lines lead to one store at most. -/
theorem Executes.unique {store final final' : Store} {lines : List OpLine}
    (h : Executes store lines final) (h' : Executes store lines final') : final = final' := by
  induction h with
  | done => cases h'; rfl
  | unary hread _ ih =>
    cases h' with
    | unary hread' hrest =>
      obtain rfl := hread.unique hread'
      exact ih hrest
  | binary hleft hright _ ih =>
    cases h' with
    | binary hleft' hright' hrest =>
      obtain rfl := hleft.unique hleft'
      obtain rfl := hright.unique hright'
      exact ih hrest

/-- Op-lines one after another are executed one part after the other. -/
theorem Executes.append {store between final : Store} {lines more : List OpLine}
    (h : Executes store lines between) (h' : Executes between more final) :
    Executes store (lines ++ more) final := by
  induction h with
  | done => exact h'
  | unary hread _ ih => exact .unary hread (ih h')
  | binary hleft hright _ ih => exact .binary hleft hright (ih h')

end Lowering
