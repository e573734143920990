import Mathlib.Data.Set.Insert
import Lowering.Proofs.Compile.Ends
import Lowering.Proofs.Terms.Meaning

/-!
# Compiled expressions compute their terms

A term reaches its slot partly when an expression is compiled (literals, and arrays of the slots of
arguments) and partly when its op-lines are executed. `Computes` speaks of both: op-lines own some
slots, and from any store in which these hold what the compiler left there, executing the op-lines
changes no other slot and leaves what was promised in the slots that they own, whatever the others
hold by then.

An expression owns the slot that it is compiled into and the slots that were added on the way. Those
of operands side by side are different, so their op-lines can be executed one after the other
(`Computes.append`), and what the first of them own is as they left it in the end
(`Computes.later`).
-/

namespace Lowering

open CompileM

/-! ## Op-lines that compute -/

/-- Op-lines own some slots of a heap, and executing them leaves `result` in these. -/
def Computes (own : Set SlotId) (heap : Heap) (lines : List OpLine) (result : Store → Prop) :
    Prop :=
  ∀ store : Store, (∀ slot ∈ own, store slot = .stored (heap.get slot).value) →
    ∃ final, Executes store lines final ∧ (∀ slot ∉ own, final slot = store slot) ∧
      ∀ later : Store, (∀ slot ∈ own, later slot = final slot) → result later

namespace Computes

variable {own own' : Set SlotId} {heap heap' : Heap} {lines more : List OpLine}
  {result result' : Store → Prop}

/-- What holds of the heap needs no op-lines. -/
theorem nil (h : ∀ store : Store, (∀ slot ∈ own, store slot = .stored (heap.get slot).value) →
    result store) : Computes own heap [] result := by
  intro store hstore
  refine ⟨store, .done, fun _ _ => rfl, fun later hlater => h later fun slot hslot => ?_⟩
  rw [hlater slot hslot, hstore slot hslot]

/-- A slot that no op-line touches holds what the compiler left there. -/
theorem untouched (heap : Heap) (slot : SlotId) :
    Computes {slot} heap [] fun store => store slot = .stored (heap.get slot).value :=
  .nil fun _ hstore => hstore slot rfl

/-- Op-lines that own some slots own more, and may have less said about their result. -/
theorem mono (h : Computes own heap lines result) (hown : own ⊆ own')
    (hresult : ∀ store, result store → result' store) : Computes own' heap lines result' := by
  intro store hstore
  obtain ⟨final, hexec, hframe, hfinal⟩ := h store fun slot hslot => hstore slot (hown hslot)
  refine ⟨final, hexec, fun slot hslot => hframe slot fun hmem => hslot (hown hmem), ?_⟩
  exact fun later hlater => hresult later (hfinal later fun slot hslot => hlater slot (hown hslot))

/-- Only the slots that are owned matter. -/
theorem congr (h : Computes own heap lines result)
    (hheap : ∀ slot ∈ own, heap'.get slot = heap.get slot) : Computes own heap' lines result := by
  intro store hstore
  refine h store fun slot hslot => ?_
  rw [hstore slot hslot, hheap slot hslot]

/-- Op-lines that own different slots, one after the other. -/
theorem append (h : Computes own heap lines result) (h' : Computes own' heap more result')
    (hdisjoint : ∀ slot ∈ own, slot ∉ own') :
    Computes (own ∪ own') heap (lines ++ more) fun store => result store ∧ result' store := by
  intro store hstore
  obtain ⟨between, hexec, hframe, hbetween⟩ := h store fun slot hslot => hstore slot (Or.inl hslot)
  -- The first op-lines leave alone what the second own.
  obtain ⟨final, hexec', hframe', hfinal⟩ := h' between fun slot hslot => by
    rw [hframe slot fun hmem => hdisjoint slot hmem hslot]
    exact hstore slot (Or.inr hslot)
  refine ⟨final, hexec.append hexec', fun slot hslot => ?_, fun later hlater => ⟨?_, ?_⟩⟩
  · rw [hframe' slot fun hmem => hslot (Or.inr hmem), hframe slot fun hmem => hslot (Or.inl hmem)]
  · -- What the first leave is not touched by the second.
    refine hbetween later fun slot hslot => ?_
    rw [hlater slot (Or.inl hslot), hframe' slot (hdisjoint slot hslot)]
  · exact hfinal later fun slot hslot => hlater slot (Or.inr hslot)

/-- Op-lines and then one that writes a term into a slot. -/
theorem snoc {line : OpLine} {slot : SlotId} {term : Term} (h : Computes own heap lines result)
    (hline : ∀ store, result store →
      Executes store [line] (Function.update store slot (.computed term))) :
    Computes (insert slot own) heap (lines ++ [line]) (·.Reads slot term) := by
  intro store hstore
  obtain ⟨between, hexec, hframe, hbetween⟩ := h store fun other hother =>
    hstore other (Set.mem_insert_of_mem slot hother)
  refine ⟨_, hexec.append (hline between (hbetween between fun _ _ => rfl)), ?_, ?_⟩
  · intro other hother
    have hne : other ≠ slot := fun heq => hother (heq ▸ Set.mem_insert slot own)
    rw [Function.update_of_ne hne,
      hframe other fun hmem => hother (Set.mem_insert_of_mem slot hmem)]
  · intro later hlater
    refine Store.reads_computed ?_
    rw [hlater slot (Set.mem_insert slot own), Function.update_self]

end Computes

/-! ## Emitters that compute -/

/-- The slots that have been added from one heap to another. -/
def addedSlots (heap heap' : Heap) : Set SlotId :=
  {slot | heap.size ≤ slot.index ∧ slot.index < heap'.size}

/-- A slot that was there is none of those that were added. -/
theorem ne_of_mem_addedSlots {heap heap' : Heap} {context slot : SlotId}
    (hcontext : context.index < heap.size) (hslot : slot ∈ addedSlots heap heap') :
    slot ≠ context := by
  rintro rfl
  exact absurd hcontext (Nat.not_lt.mpr hslot.1)

/-- Nothing that was there has been changed but one slot. -/
structure ChangesOnly (context : SlotId) (heap heap' : Heap) : Prop where
  size_le : heap.size ≤ heap'.size
  frame : ∀ slot, slot.index < heap.size → slot ≠ context → heap'.get slot = heap.get slot

namespace ChangesOnly

variable {context : SlotId} {heap between heap' : Heap}

/-- Nothing has been changed at the start. -/
theorem refl (context : SlotId) (heap : Heap) : ChangesOnly context heap heap :=
  ⟨le_rfl, fun _ _ _ => rfl⟩

/-- Two steps change only one slot if each of them changes only that one. -/
theorem trans (h : ChangesOnly context heap between) (h' : ChangesOnly context between heap') :
    ChangesOnly context heap heap' := by
  refine ⟨h.size_le.trans h'.size_le, fun slot hslot hne => ?_⟩
  rw [h'.frame slot (Nat.lt_of_lt_of_le hslot h.size_le) hne, h.frame slot hslot hne]

/-- A change of a slot that was added changes nothing that was there. -/
theorem of_added {added : SlotId} (h : ChangesOnly context heap between)
    (hadded : heap.size ≤ added.index) (h' : ChangesOnly added between heap') :
    ChangesOnly context heap heap' := by
  refine ⟨h.size_le.trans h'.size_le, fun slot hslot hne => ?_⟩
  have hne' : slot ≠ added := by
    rintro rfl
    omega
  rw [h'.frame slot (Nat.lt_of_lt_of_le hslot h.size_le) hne', h.frame slot hslot hne]

/-- Adding a slot changes none that was there. -/
theorem add (context : SlotId) (heap : Heap) (cell : Cell) :
    ChangesOnly context heap (heap.add cell) := by
  refine ⟨?_, fun slot hslot _ => Heap.get_add_of_lt cell hslot⟩
  rw [Heap.size_add]
  exact Nat.le_succ _

/-- Changing a slot changes only that one. -/
theorem modify (context : SlotId) (heap : Heap) (change : Cell → Cell) :
    ChangesOnly context heap (heap.modify context change) := by
  refine ⟨?_, fun slot _ hne => ?_⟩
  · rw [Heap.size_modify]
  · rw [Heap.get_modify, if_neg fun h => hne h.1.symm]

end ChangesOnly

section

variable {context op1 op2 : SlotId} {own : Set SlotId} {heap between heap' : Heap}
  {lines more : List OpLine} {result result' : Store → Prop}

/-- What op-lines compute does not depend on what is compiled later. -/
theorem Computes.later (h : Computes own between lines result)
    (hchanges : ChangesOnly context between heap')
    (hown : ∀ slot ∈ own, slot.index < between.size ∧ slot ≠ context) :
    Computes own heap' lines result :=
  h.congr fun slot hslot => hchanges.frame slot (hown slot hslot).1 (hown slot hslot).2

/-- Operands side by side: the second is compiled behind the first and into a slot of its own, so
neither changes what the other owns. -/
theorem Computes.beside
    (h : Computes (insert op1 (addedSlots heap between)) between lines result)
    (h' : Computes (insert op2 (addedSlots between heap')) heap' more result')
    (hchanges : ChangesOnly op1 heap between) (hchanges' : ChangesOnly op2 between heap')
    (hop1 : op1.index < heap.size) (hop2 : op2.index < heap.size) (hne : op1 ≠ op2) :
    Computes (insert op1 (insert op2 (addedSlots heap heap'))) heap' (lines ++ more)
      fun store => result store ∧ result' store := by
  have hle := hchanges.size_le
  have hle' := hchanges'.size_le
  -- Neither operand's code writes what the other one's has written, so both results are there at
  -- the end.
  have hlater := h.later hchanges' fun slot hslot => by
    rcases hslot with rfl | ⟨hfirst, hlast⟩
    · exact ⟨by omega, hne⟩
    · refine ⟨hlast, ?_⟩
      rintro rfl
      omega
  refine (hlater.append h' fun slot hslot hslot' => ?_).mono ?_ fun _ hboth => hboth
  · rcases hslot with rfl | ⟨hfirst, hlast⟩ <;> rcases hslot' with rfl | ⟨hfirst', -⟩
    · exact hne rfl
    · omega
    · omega
    · omega
  · rintro slot ((rfl | ⟨hfirst, hlast⟩) | (rfl | ⟨hfirst, hlast⟩))
    · exact Set.mem_insert _ _
    · exact Set.mem_insert_of_mem _ (Set.mem_insert_of_mem _ ⟨hfirst, by omega⟩)
    · exact Set.mem_insert_of_mem _ (Set.mem_insert _ _)
    · exact Set.mem_insert_of_mem _ (Set.mem_insert_of_mem _ ⟨by omega, hlast⟩)

end

/-- A value with slots appended, where there are some. -/
def Value.extended (value : Value) : List SlotId → Value
  | [] => value
  | next :: rest => .array (value.elements ++ (next :: rest).map .slot)

/-- Slots may be appended at once or in two steps. -/
theorem Value.extended_append (value : Value) (slots more : List SlotId) :
    (value.extended slots).extended more = value.extended (slots ++ more) := by
  cases slots <;> cases more <;> simp [Value.extended, Value.elements]

namespace Emitter

/-- Compiling into a slot that is there and of whose cell `p` holds succeeds, changes no other slot
that was there, and gives op-lines that compute a term into the slot. -/
def Yields (emitter : Emitter) (p : Cell → Prop) (term : Term) : Prop :=
  ∀ (state : CompileState) (context : SlotId), context.index < state.heap.size →
    p (state.heap.get context) →
    Ends (emitter (some context)) state
      (fun lines state' => ChangesOnly context state.heap state'.heap ∧
        Computes (insert context (addedSlots state.heap state'.heap)) state'.heap lines
          (·.Reads context term))
      fun _ _ => False

variable {emitter first second : Emitter} {p : Cell → Prop} {term left right : Term}
  {state : CompileState} {context : SlotId}

/-- An emitter that yields a term succeeds, with what it has done at hand. -/
theorem Yields.ends (h : emitter.Yields p term) (hcontext : context.index < state.heap.size)
    (hp : p (state.heap.get context)) {done : List OpLine → CompileState → Prop}
    (hdone : ∀ lines state', ChangesOnly context state.heap state'.heap →
      Computes (insert context (addedSlots state.heap state'.heap)) state'.heap lines
        (·.Reads context term) → done lines state') :
    Ends (emitter (some context)) state done fun _ _ => False :=
  (h state context hcontext hp).mono (fun lines state' hends => hdone lines state' hends.1 hends.2)
    fun _ _ hfalse => hfalse

/-- An empty slot is null. -/
theorem yields_skip : skip.Yields (· = {}) .null := by
  intro state context _ hempty
  rw [ends_skip]
  refine ⟨.refl context state.heap, .nil fun store hstore => ?_⟩
  refine Store.reads_literal (hstore context (Set.mem_insert _ _)) ?_
  rw [hempty]
  rfl

/-- Writing a literal into a slot gives the slot its term. -/
theorem computes_modify {heap : Heap} {cell : Cell} (hcontext : context.index < heap.size)
    (hliteral : cell.value.literal? = some term) (own : Set SlotId) :
    Computes (insert context own) (heap.modify context fun _ => cell) []
      (·.Reads context term) := by
  refine .nil fun store hstore => ?_
  have hread := hstore context (Set.mem_insert _ _)
  rw [Heap.get_modify, if_pos ⟨rfl, hcontext⟩] at hread
  exact Store.reads_literal hread hliteral

/-- A literal is what its slot holds. -/
theorem yields_folded {literal : Scalar} (h : literal.toValue.literal? = some term) :
    (folded literal).Yields p term := by
  intro state context hcontext _
  rw [ends_folded_some, CompileState.written_heap]
  exact ⟨.modify context state.heap _, computes_modify hcontext h _⟩

/-- A constant is what its slot holds. -/
theorem yields_constant {literal : Constant} (h : literal.value.literal? = some term) :
    (constant literal).Yields p term := by
  intro state context hcontext _
  rw [ends_constant_some, CompileState.written_heap, CompileState.notedMisplaced_heap]
  exact ⟨.modify context state.heap _, computes_modify hcontext h _⟩

/-- An event in front changes nothing about the term. -/
theorem yields_noting (event : Event) (h : emitter.Yields p term) :
    (noting event emitter).Yields p term := by
  intro state context hcontext hp
  rw [ends_noting]
  exact h (state.noted event) context hcontext hp

/-- No code behind an emitter changes nothing about the term. -/
theorem yields_append_skip (h : emitter.Yields p term) : (append emitter skip).Yields p term := by
  intro state context hcontext hp
  rw [ends_append]
  refine h.ends hcontext hp fun lines state' hchanges hcomputes => ?_
  rw [ends_skip, List.append_nil]
  exact ⟨hchanges, hcomputes⟩

/-- An operation on one operand computes its operand in an empty slot and then itself. -/
theorem yields_unary (kind : UnaryKind) (h : emitter.Yields (· = {}) term) :
    (unary kind emitter).Yields p (.unary kind term) := by
  intro state context hcontext _
  rw [ends_unary]
  have hsize : (state.added {}).heap.size = state.heap.size + 1 := Heap.size_add _ _
  refine h.ends (by rw [hsize]; exact Nat.lt_succ_self _) (Heap.get_add_next _ _)
    fun ops state₁ hchanges hcomputes => ?_
  have hle := hchanges.size_le
  refine ⟨(ChangesOnly.add context state.heap {}).of_added le_rfl hchanges, ?_⟩
  -- The operand owns the slot that was added for it and those that were added behind it.
  refine (hcomputes.snoc fun store hread => .unary hread .done).mono ?_ fun _ hreads => hreads
  refine Set.insert_subset_insert fun slot hslot => ?_
  rcases hslot with rfl | ⟨hfirst, hlast⟩
  · exact ⟨le_rfl, by rw [hsize] at hle; exact hle⟩
  · exact ⟨by rw [hsize] at hfirst; omega, hlast⟩

/-- An operation on two operands computes each in an empty slot and then itself. -/
theorem yields_binary (kind : BinaryKind) (h : first.Yields (· = {}) left)
    (h' : second.Yields (· = {}) right) :
    (binary kind first second).Yields p (.binary kind left right) := by
  intro state context hcontext _
  rw [ends_binary]
  have hsize : (state.added {}).heap.size = state.heap.size + 1 := Heap.size_add _ _
  have hsize' : ((state.added {}).added {}).heap.size = state.heap.size + 2 := by
    rw [CompileState.added_heap, Heap.size_add, hsize]
  have hop1 : ((state.added {}).added {}).heap.get state.heap.next = {} := by
    rw [CompileState.added_heap, Heap.get_add_of_lt _ (by rw [hsize]; exact Nat.lt_succ_self _)]
    exact Heap.get_add_next _ _
  have hop2 : ((state.added {}).added {}).heap.get (state.added {}).heap.next = {} :=
    Heap.get_add_next _ _
  have hindex : state.heap.next.index = state.heap.size := rfl
  have hindex' : (state.added {}).heap.next.index = state.heap.size + 1 := hsize
  -- From here on only the indices of both operands matter.
  generalize state.heap.next = op1 at hop1 hindex ⊢
  generalize (state.added {}).heap.next = op2 at hop2 hindex' ⊢
  have hne : op1 ≠ op2 := by
    rintro rfl
    omega
  have hstart : ChangesOnly context state.heap ((state.added {}).added {}).heap :=
    (ChangesOnly.add context state.heap {}).trans (.add context _ {})
  refine h.ends (by omega) hop1 fun ops state₁ hleft hops => ?_
  have hle := hleft.size_le
  refine h'.ends (by omega) (by rw [hleft.frame op2 (by omega) hne.symm, hop2])
    fun more state₂ hright hmore => ?_
  have hle' := hright.size_le
  refine ⟨(hstart.of_added (by omega) hleft).of_added (by omega) hright, ?_⟩
  have hboth := hops.beside hmore hleft hright (by omega) (by omega) hne
  refine (hboth.snoc fun store hread => .binary hread.1 hread.2 .done).mono ?_
    fun _ hreads => hreads
  -- Both operands are among the slots that were added.
  refine Set.insert_subset_insert fun slot hslot => ?_
  change state.heap.size ≤ slot.index ∧ slot.index < state₂.heap.size
  rcases hslot with rfl | rfl | ⟨hfirst, hlast⟩ <;> omega

/-! ### Arguments -/

/-- Compiling into a slot that is there succeeds, changes no other slot that was there but appends
slots to this one, and gives op-lines that compute terms into the slots that were appended. -/
def Collects (emitter : Emitter) (terms : List Term) : Prop :=
  ∀ (state : CompileState) (context : SlotId), context.index < state.heap.size →
    Ends (emitter (some context)) state
      (fun lines state' => ChangesOnly context state.heap state'.heap ∧
        ∃ slots : List SlotId,
          (state'.heap.get context).value = (state.heap.get context).value.extended slots ∧
          Computes (addedSlots state.heap state'.heap) state'.heap lines
            fun store => List.Forall₂ store.Reads slots terms)
      fun _ _ => False

variable {terms moreTerms : List Term}

/-- No code appends no slots. -/
theorem collects_skip : skip.Collects [] := by
  intro state context _
  rw [ends_skip]
  exact ⟨.refl context state.heap, [], rfl, .nil fun _ _ => .nil⟩

/-- One piece and then another append their slots in order. -/
theorem collects_append (h : first.Collects terms) (h' : second.Collects moreTerms) :
    (append first second).Collects (terms ++ moreTerms) := by
  intro state context hcontext
  rw [ends_append]
  refine (h state context hcontext).mono (fun ops state₁ hfirst => ?_) fun _ _ hfalse => hfalse
  obtain ⟨hchanges, slots, hslots, hops⟩ := hfirst
  have hle := hchanges.size_le
  refine (h' state₁ context (by omega)).mono (fun more state₂ hsecond => ?_)
    fun _ _ hfalse => hfalse
  obtain ⟨hchanges', slots', hslots', hmore⟩ := hsecond
  have hle' := hchanges'.size_le
  refine ⟨hchanges.trans hchanges', slots ++ slots', ?_, ?_⟩
  · rw [hslots', hslots, Value.extended_append]
  -- What the first arguments computed is kept: the later ones only change newer slots and the
  -- context.
  have hops' := hops.later hchanges' fun slot hslot =>
    ⟨hslot.2, ne_of_mem_addedSlots hcontext hslot⟩
  refine (hops'.append hmore fun slot hslot hslot' => ?_).mono ?_ fun store hreads => ?_
  · exact absurd hslot.2 (Nat.not_lt.mpr hslot'.1)
  · rintro slot (hslot | hslot)
    · exact ⟨hslot.1, Nat.lt_of_lt_of_le hslot.2 hle'⟩
    · exact ⟨hle.trans hslot.1, hslot.2⟩
  · exact List.rel_append hreads.1 hreads.2

/-- An event in front changes nothing about what is appended. -/
theorem collects_noting (event : Event) (h : emitter.Collects terms) :
    (noting event emitter).Collects terms := by
  intro state context hcontext
  rw [ends_noting]
  exact h (state.noted event) context hcontext

/-- An argument computes its value in an empty slot and appends that slot. -/
theorem collects_argument (h : emitter.Yields (· = {}) term) :
    (argument emitter).Collects [term] := by
  intro state context hcontext
  rw [ends_argument]
  have hsize : (state.added {}).heap.size = state.heap.size + 1 := Heap.size_add _ _
  have hempty : (state.added {}).heap.get state.heap.next = {} := Heap.get_add_next _ _
  have hindex : state.heap.next.index = state.heap.size := rfl
  generalize state.heap.next = slot at hempty hindex ⊢
  have hne : context ≠ slot := by
    rintro rfl
    omega
  refine h.ends (by omega) hempty fun ops state₁ hchanges hops => ?_
  have hle := hchanges.size_le
  have hstart := (ChangesOnly.add context state.heap {}).of_added (by omega) hchanges
  refine ⟨hstart.trans (.modify context state₁.heap _), [slot], ?_, ?_⟩
  · have hcell : state₁.heap.get context = state.heap.get context := by
      rw [hchanges.frame context (by omega) hne]
      exact Heap.get_add_of_lt _ hcontext
    rw [CompileState.written_heap, Heap.get_modify, if_pos ⟨rfl, by omega⟩, hcell]
    rfl
  -- The slot of the argument is itself among the slots that were added.
  · have hown : insert slot (addedSlots (state.added {}).heap state₁.heap) ⊆
        addedSlots state.heap state₁.heap := by
      rintro other (rfl | ⟨hfirst, hlast⟩)
      · exact ⟨by omega, by omega⟩
      · exact ⟨by omega, hlast⟩
    have hops' := hops.mono hown fun store hread => List.Forall₂.cons hread .nil
    -- The reference is appended to the context, which the code of the argument does not read.
    have hpushed := hops'.later (.modify context state₁.heap (.push (.slot slot)))
      fun other hother => ⟨hother.2, ne_of_mem_addedSlots hcontext hother⟩
    refine hpushed.mono (fun other hother => ⟨hother.1, ?_⟩) fun _ hreads => hreads
    rw [CompileState.written_heap, Heap.size_modify]
    exact hother.2

/-- The slots of arguments in an empty slot are the array of their terms. -/
theorem yields_of_collects (h : emitter.Collects terms) (hne : terms ≠ []) :
    emitter.Yields (· = {}) (.array terms) := by
  intro state context hcontext hempty
  refine (h state context hcontext).mono (fun lines state' hends => ?_) fun _ _ hfalse => hfalse
  obtain ⟨hchanges, slots, hslots, hcomputes⟩ := hends
  refine ⟨hchanges, ?_⟩
  -- Executing the op-lines of the arguments does not touch the slot that collects them.
  have hboth := hcomputes.append (.untouched state'.heap context) fun slot hslot =>
    ne_of_mem_addedSlots hcontext hslot
  rw [List.append_nil, Set.union_singleton] at hboth
  refine hboth.mono (Set.Subset.refl _) fun store hstore => ?_
  obtain ⟨hreads, hvalue⟩ := hstore
  rw [hslots, hempty] at hvalue
  cases hreads with
  | nil => exact absurd rfl hne
  | cons hread hrest => exact Store.reads_slots hvalue (.cons hread hrest)

end Emitter

/-! ## Simple expressions -/

open Emitter

mutual

/-- The code of a simple expression computes its term. -/
theorem Node.emitter_yields {p : Cell → Prop} :
    ∀ (node : Node) {term : Term}, node.term? = some term → node.emitter.Yields p term
  | ⟨kind, attributes, fields⟩, term, h => by
    revert h
    unfold Node.term? Node.emitter
    rcases kind.descriptor? with _ | descriptor <;> intro h
    · cases h
    · refine yields_noting _ ?_
      cases descriptor with
      | argument field => cases h
      | literal field separator => exact yields_constant h
      | unary operation field =>
        obtain ⟨operand, hoperand, rfl⟩ := Option.map_eq_some_iff.mp h
        exact yields_unary operation (fieldEmitter_yields field fields hoperand)
      | binary operation left right =>
        simp only [Option.bind_eq_bind, Option.bind_eq_some_iff] at h
        obtain ⟨first, hfirst, second, hsecond, hterm⟩ := h
        obtain rfl := Option.some.inj hterm
        exact yields_binary operation (fieldEmitter_yields left fields hfirst)
          (fieldEmitter_yields right fields hsecond)

/-- The code of a field computes its term. -/
theorem fieldEmitter_yields (name : String) :
    ∀ (fields : List (String × Child)) {term : Term}, fieldTerm? name fields = some term →
      (fieldEmitter name fields).Yields (· = {}) term
  | [], term, h => by
    unfold fieldTerm? at h
    unfold fieldEmitter
    obtain rfl := Option.some.inj h
    exact yields_skip
  | (other, child) :: rest, term, h => by
    unfold fieldTerm? at h
    unfold fieldEmitter
    split
    · next hname =>
      rw [if_pos hname] at h
      exact Child.emitter_yields child h
    · next hname =>
      rw [if_neg hname] at h
      exact fieldEmitter_yields name rest h

/-- The code of the content of a field computes its term. -/
theorem Child.emitter_yields :
    ∀ (child : Child) {term : Term}, child.term? = some term → child.emitter.Yields (· = {}) term
  | .null, term, h => by
    unfold Child.term? at h
    unfold Child.emitter
    obtain rfl := Option.some.inj h
    exact yields_skip
  | .scalar s, term, h => by
    unfold Child.term? at h
    unfold Child.emitter
    exact yields_folded h
  | .node n, term, h => by
    unfold Child.term? at h
    unfold Child.emitter
    exact Node.emitter_yields n h
  | .list [.scalar s], term, h => by
    unfold Child.term? at h
    unfold Child.emitter
    exact yields_folded h
  -- A node alone in a list is an expression or a single argument.
  | .list [.node n], term, h => by
    simp only [Child.term?] at h
    simp only [Child.emitter, itemsEmitter]
    rcases hterm : n.term? with _ | own
    · rw [hterm, Option.orElse_eq_orElse, Option.orElse_none] at h
      obtain ⟨argument, hargument, rfl⟩ := Option.map_eq_some_iff.mp h
      have hcollects := collects_append (Node.emitter_collects n hargument) collects_skip
      exact yields_of_collects hcollects (List.cons_ne_nil argument [])
    · rw [hterm, Option.orElse_eq_orElse, Option.orElse_some] at h
      obtain rfl := Option.some.inj h
      exact yields_append_skip (Node.emitter_yields n hterm)
  | .list (first :: second :: rest), term, h => by
    obtain ⟨argument, terms, hterms, rfl⟩ := Child.term?_list_cons_cons h
    have hitems := (Child.emitter_list (first :: second :: rest)).resolve_left (by simp)
    rw [hitems]
    exact yields_of_collects (itemsEmitter_collects (first :: second :: rest) hterms)
      (List.cons_ne_nil argument terms)
  | .list [], _, h | .list [.null], _, h | .list [.list _], _, h => by simp [Child.term?] at h

/-- The code of an argument appends the slot of its term. -/
theorem Node.emitter_collects :
    ∀ (node : Node) {term : Term}, node.argument? = some term → node.emitter.Collects [term]
  | ⟨kind, attributes, fields⟩, term, h => by
    revert h
    unfold Node.argument? Node.emitter
    rcases kind.descriptor? with _ | descriptor <;> intro h
    · cases h
    · refine collects_noting _ ?_
      cases descriptor with
      | argument field => exact collects_argument (fieldEmitter_yields field fields h)
      | literal field separator => cases h
      | unary operation field => cases h
      | binary operation left right => cases h

/-- The code of arguments appends the slots of their terms. -/
theorem itemsEmitter_collects :
    ∀ (items : List Child) {terms : List Term}, arguments? items = some terms →
      (itemsEmitter items).Collects terms
  | [], terms, h => by
    unfold arguments? at h
    unfold itemsEmitter
    obtain rfl := Option.some.inj h
    exact collects_skip
  | .node n :: rest, terms, h => by
    simp only [arguments?, Option.bind_eq_bind, Option.bind_eq_some_iff] at h
    obtain ⟨term, hterm, more, hmore, hterms⟩ := h
    obtain rfl := Option.some.inj hterms
    unfold itemsEmitter
    exact collects_append (Node.emitter_collects n hterm) (itemsEmitter_collects rest hmore)
  | .null :: rest, _, h | .list _ :: rest, _, h | .scalar _ :: rest, _, h => by
    simp [arguments?] at h

end

/-- Compiled expressions compute their terms. A simple expression compiles, in any state and into
any slot that is there; executing its op-lines over the heap that is left ends, in one store only;
in that store the slot reads as the term of the expression and as nothing else; and no other slot
that was there has been changed, neither by compiling nor by executing. -/
theorem compile_computes_term {node : Node} {term : Term} (hterm : node.term? = some term)
    (state : CompileState) {context : SlotId} (hcontext : context.index < state.heap.size) :
    ∃ lines state', (compile [node] (some context)).run.run state = (.ok lines, state') ∧
      ∃ final : Store,
        (∀ store, Executes (Store.ofHeap state'.heap) lines store ↔ store = final) ∧
        (∀ read, final.Reads context read ↔ read = term) ∧
        ∀ slot : SlotId, slot.index < state.heap.size → slot ≠ context →
          state'.heap.get slot = state.heap.get slot ∧
            final slot = .stored (state.heap.get slot).value := by
  have hyields : (compile [node]).Yields (fun _ => True) term :=
    yields_append_skip (Node.emitter_yields node hterm)
  obtain ⟨lines, state', hrun, hchanges, hcomputes⟩ :=
    (hyields state context hcontext trivial).exists_run
  -- Execution starts from the stored values and is deterministic, so one final store is all there
  -- is.
  obtain ⟨final, hexec, hframe, hfinal⟩ := hcomputes (.ofHeap state'.heap) fun _ _ => rfl
  have hreads : final.Reads context term := hfinal final fun _ _ => rfl
  refine ⟨lines, state', hrun, final, fun store => ⟨fun h => h.unique hexec, ?_⟩,
    fun read => ⟨fun h => h.unique hreads, ?_⟩, fun slot hslot hne => ?_⟩
  · rintro rfl
    exact hexec
  · rintro rfl
    exact hreads
  · have hsame := hchanges.frame slot hslot hne
    refine ⟨hsame, ?_⟩
    rw [hframe slot, Store.ofHeap, hsame]
    rintro (heq | ⟨hle, -⟩)
    · exact hne heq
    · omega

/-- A call with two arguments, of which one is an operation and the other has no value. -/
def callNode : Node :=
  ⟨.exprFuncCall, [],
    [("args", .list [.node ⟨.arg, [], [("value", .node ⟨.exprGreater, [],
        [("left", .scalar (.long 1)), ("right", .list [.scalar (.long 2)])]⟩)]⟩,
      .node (.empty .arg)]),
     ("name", .node ⟨.name, [], [("parts", .list [.scalar (.string "f")])]⟩)]⟩

/-- The term of `callNode`: the comparison is turned around, and what is missing is null. -/
def callTerm : Term :=
  .binary .functionCall (.string "f")
    (.array [.binary .smaller (.long 2) (.long 1), .null])

/-- The call computes its term into a new slot. -/
theorem compile_computes_term_call :
    callNode.term? = some callTerm ∧
      ∃ lines state', (compile [callNode] (some ⟨0⟩)).run.run (CompileState.added {} {}) =
        (.ok lines, state') ∧
      ∃ final : Store,
        (∀ store, Executes (Store.ofHeap state'.heap) lines store ↔ store = final) ∧
        ∀ read, final.Reads ⟨0⟩ read ↔ read = callTerm := by
  have hterm : callNode.term? = some callTerm := rfl
  obtain ⟨lines, state', hrun, final, hexec, hreads, -⟩ :=
    compile_computes_term hterm (CompileState.added {} {}) (by decide : (0 : Nat) < 1)
  exact ⟨hterm, lines, state', hrun, final, hexec, hreads⟩

end Lowering
