import Mathlib.Algebra.Group.Nat.Defs
import Lowering.Proofs.Compile.Built
import Lowering.Proofs.Compile.Ends
import Lowering.Proofs.Link.Graph

/-!
# Compiled code is closed

Everything that a compiler makes stays within its own territory: the slots that it added and the
slots that it was given to write. `Emission` is what holds of the op-lines that an emitter returns.
They carry different handles, drawn from a known part of those handed out; their jumps go to handles
among them, or to a few exits that the code around them has to supply; they name slots of the
territory only; and the bodies inside them are closed in the same sense. `Territory.Sealed` says the
same of the op-lines that slots hold.

Handles are words, and words repeat after `2^32` of them. The invariants therefore speak of the
numbers behind the words; that the words of different numbers differ is used in the end only.
-/

namespace Lowering

/-- The handle with a number. -/
def OpId.ofNat (number : Nat) : OpId :=
  ⟨UInt32.ofNat number⟩

/-- Handles with different numbers differ, as long as the numbers are words. -/
theorem OpId.ofNat_inj {a b : Nat} (ha : a < 2 ^ 32) (hb : b < 2 ^ 32)
    (h : OpId.ofNat a = OpId.ofNat b) : a = b := by
  have hword : UInt32.ofNat a = UInt32.ofNat b := congrArg OpId.number h
  have hnat := congrArg UInt32.toNat hword
  rwa [UInt32.toNat_ofNat_of_lt' ha, UInt32.toNat_ofNat_of_lt' hb] at hnat

/-! ## Numbered op-lines -/

/-- Op-lines carry handles with different numbers, of which `p` holds. -/
def Numbered (p : Nat → Prop) (lines : List OpLine) : Prop :=
  ∃ numbers : List Nat, handles lines = numbers.map OpId.ofNat ∧ numbers.Nodup ∧ ∀ n ∈ numbers, p n

namespace Numbered

variable {p q : Nat → Prop} {lines more : List OpLine}

/-- No op-lines carry no handles. -/
theorem nil : Numbered p [] :=
  ⟨[], rfl, List.nodup_nil, by simp⟩

/-- A single op-line carries the handle that it has. -/
theorem single (number : Nat) (op : Op) : Numbered (· = number) [⟨.ofNat number, op⟩] :=
  ⟨[number], rfl, List.nodup_singleton number, by simp⟩

/-- A weaker condition holds of the same numbers. -/
theorem mono (h : Numbered p lines) (hpq : ∀ n, p n → q n) : Numbered q lines := by
  obtain ⟨numbers, hhandles, hnodup, hp⟩ := h
  exact ⟨numbers, hhandles, hnodup, fun n hn => hpq n (hp n hn)⟩

/-- Op-lines one after another carry different handles if no number is among both. -/
theorem append (h : Numbered p lines) (h' : Numbered q more) (hpq : ∀ n, p n → ¬ q n) :
    Numbered (fun n => p n ∨ q n) (lines ++ more) := by
  obtain ⟨numbers, hhandles, hnodup, hp⟩ := h
  obtain ⟨numbers', hhandles', hnodup', hq⟩ := h'
  refine ⟨numbers ++ numbers', ?_, ?_, ?_⟩
  · unfold handles at hhandles hhandles' ⊢
    rw [List.map_append, List.map_append, hhandles, hhandles']
  · refine hnodup.append hnodup' fun n hn hn' => ?_
    exact hpq n (hp n hn) (hq n hn')
  · intro n hn
    exact (List.mem_append.mp hn).imp (hp n) (hq n)

/-- Numbered handles are different, as long as the numbers are words. -/
theorem nodup {bound : Nat} (h : Numbered (· < bound) lines) (hbound : bound ≤ 2 ^ 32) :
    (handles lines).Nodup := by
  obtain ⟨numbers, hhandles, hnodup, hlt⟩ := h
  rw [hhandles]
  refine hnodup.map_on ?_
  intro a ha b hb hab
  have hword : ∀ n ∈ numbers, n < 2 ^ 32 := fun n hn => Nat.lt_of_lt_of_le (hlt n hn) hbound
  exact OpId.ofNat_inj (hword a ha) (hword b hb) hab

end Numbered

/-! ## Closed op-lines -/

/-- Jumps go to given exits or to op-lines of the same list. -/
def JumpsTo (exits : List OpId) (lines : List OpLine) : Prop :=
  ∀ line ∈ lines, ∀ target, line.op.target? = some target →
    target ∈ exits ∨ target ∈ handles lines

/-- A whole list of op-lines under handles with numbers below a bound. -/
structure Sound (bound : Nat) (lines : List OpLine) : Prop where
  numbered : Numbered (· < bound) lines
  closed : JumpsTo [] lines

/-- Handles below a bound are below every greater one. -/
theorem Sound.mono {bound bound' : Nat} {lines : List OpLine} (h : Sound bound lines)
    (hle : bound ≤ bound') : Sound bound' lines :=
  ⟨h.numbered.mono fun _ hn => Nat.lt_of_lt_of_le hn hle, h.closed⟩

/-- A sound list is well-formed, as long as its numbers are words. -/
theorem Sound.wellFormed {bound : Nat} {lines : List OpLine} (h : Sound bound lines)
    (hbound : bound ≤ 2 ^ 32) : WellFormed lines := by
  refine ⟨h.numbered.nodup hbound, fun line hline target htarget => ?_⟩
  exact (h.closed line hline target htarget).resolve_left (by simp)

/-- The slots that a run of a compiler may touch: those it was given, and those from a place in the
heap on, which it adds. -/
structure Territory where
  given : SlotId → Prop
  base : Nat

namespace Territory

/-- A slot is within the territory. -/
def Owns (territory : Territory) (slot : SlotId) : Prop :=
  territory.given slot ∨ territory.base ≤ slot.index

/-- The op-lines that an emitter returns: their numbers, a bound on the numbers of the bodies inside
them, and the exits that their jumps need. -/
structure Emission (territory : Territory) (p : Nat → Prop) (bound : Nat) (exits : List OpId)
    (lines : List OpLine) : Prop where
  numbered : Numbered p lines
  jumps : JumpsTo exits lines
  bodies : ∀ body ∈ lineBodies lines, Sound bound body
  owned : ∀ slot ∈ lineSlots lines, territory.Owns slot

variable {territory : Territory} {p q : Nat → Prop} {bound bound' : Nat} {exits exits' : List OpId}
  {lines more : List OpLine}

namespace Emission

/-- No op-lines need no exits. -/
theorem nil : territory.Emission p bound exits [] :=
  ⟨.nil, by simp [JumpsTo], by simp [lineBodies], by simp [lineSlots]⟩

/-- Fewer demands on numbers, bound and exits are met as well. -/
theorem mono (h : territory.Emission p bound exits lines) (hp : ∀ n, p n → q n)
    (hbound : bound ≤ bound') (hexits : exits ⊆ exits') :
    territory.Emission q bound' exits' lines where
  numbered := h.numbered.mono hp
  jumps := fun line hline target htarget =>
    (h.jumps line hline target htarget).imp_left (fun hmem => hexits hmem)
  bodies := fun body hbody => (h.bodies body hbody).mono hbound
  owned := h.owned

/-- Op-lines one after another need no more exits than each of them. -/
theorem append (h : territory.Emission p bound exits lines)
    (h' : territory.Emission q bound exits more) (hpq : ∀ n, p n → ¬ q n) :
    territory.Emission (fun n => p n ∨ q n) bound exits (lines ++ more) where
  numbered := h.numbered.append h'.numbered hpq
  jumps := by
    intro line hline target htarget
    unfold handles
    rw [List.map_append, List.mem_append]
    rcases List.mem_append.mp hline with hline | hline
    · exact (h.jumps line hline target htarget).imp_right Or.inl
    · exact (h'.jumps line hline target htarget).imp_right Or.inr
  bodies := by
    intro body hbody
    rw [lineBodies_append] at hbody
    rcases List.mem_append.mp hbody with hbody | hbody
    · exact h.bodies body hbody
    · exact h'.bodies body hbody
  owned := by
    intro slot hslot
    rw [lineSlots_append] at hslot
    rcases List.mem_append.mp hslot with hslot | hslot
    · exact h.owned slot hslot
    · exact h'.owned slot hslot

/-- One op-line: its target is an exit, its body is sound, and its slots are owned. -/
theorem single {op : Op} (number : Nat)
    (hjump : ∀ target, op.target? = some target → target ∈ exits)
    (hbodies : ∀ body ∈ op.bodies, Sound bound body)
    (howned : ∀ slot ∈ op.slots, territory.Owns slot) :
    territory.Emission (· = number) bound exits [⟨.ofNat number, op⟩] where
  numbered := .single number op
  jumps := by
    intro line hline target htarget
    obtain rfl := List.mem_singleton.mp hline
    exact Or.inl (hjump target htarget)
  bodies := by simpa [lineBodies] using hbodies
  owned := by simpa [lineSlots] using howned

/-- A label. -/
theorem label (number : Nat) :
    territory.Emission (· = number) bound exits [⟨.ofNat number, .noOp⟩] :=
  single number (by simp [Op.target?]) (by simp [Op.bodies]) (by simp [Op.slots])

/-- A jump to an exit. -/
theorem jump {op : Op} {target : OpId} (number : Nat) (htarget : op.target? = some target)
    (hexit : target ∈ exits) (howned : ∀ slot ∈ op.slots, territory.Owns slot) :
    territory.Emission (· = number) bound exits [⟨.ofNat number, op⟩] := by
  have hbodies : op.bodies = [] := by
    cases op <;> simp [Op.target?, Op.bodies] at htarget ⊢
  refine single number ?_ (by simp [hbodies]) howned
  intro other hother
  rw [htarget] at hother
  obtain rfl := Option.some.inj hother
  exact hexit

/-- Exits that are among the op-lines are none. -/
theorem close (h : territory.Emission p bound exits lines)
    (hexits : ∀ target ∈ exits, target ∈ exits' ∨ target ∈ handles lines) :
    territory.Emission p bound exits' lines where
  numbered := h.numbered
  jumps := by
    intro line hline target htarget
    rcases h.jumps line hline target htarget with hmem | hmem
    · exact hexits target hmem
    · exact Or.inr hmem
  bodies := h.bodies
  owned := h.owned

/-- An emission without exits is sound. -/
theorem sound (h : territory.Emission p bound [] lines) (hp : ∀ n, p n → n < bound) :
    Sound bound lines :=
  ⟨h.numbered.mono hp, h.jumps⟩

end Emission

/-! ## Sealed heaps -/

/-- A value names slots of the territory only, and its op-lines are sound. -/
structure SealedValue (territory : Territory) (bound : Nat) (value : Value) : Prop where
  owned : ∀ slot ∈ value.slots, territory.Owns slot
  sound : ∀ lines ∈ value.sequences, Sound bound lines

/-- The state of a compiler that keeps to a territory: what the slots of the territory hold stays
within it. -/
structure Sealed (territory : Territory) (state : CompileState) : Prop where
  base_le : territory.base ≤ state.heap.size
  values : ∀ slot, territory.Owns slot →
    territory.SealedValue state.issued (state.heap.get slot).value

/-- A value with handles below a bound has them below every greater one. -/
theorem SealedValue.mono {value : Value} (h : territory.SealedValue bound value)
    (hle : bound ≤ bound') : territory.SealedValue bound' value :=
  ⟨h.owned, fun lines hlines => (h.sound lines hlines).mono hle⟩

mutual

/-- A literal names no slot and holds no op-lines. -/
theorem slots_of_isLiteral : ∀ value : Value, value.IsLiteral →
    value.slots = [] ∧ value.sequences = []
  | .null, _ | .bool _, _ | .long _, _ | .double _, _ | .string _, _ => by
    simp [Value.slots, Value.sequences]
  | .array items, h => by
    rw [Value.IsLiteral] at h
    rw [Value.slots, Value.sequences]
    exact slots_of_allLiteral items h
  | .slot _, h | .param _, h => by simp [Value.IsLiteral] at h

/-- Literals name no slot and hold no op-lines. -/
theorem slots_of_allLiteral : ∀ values : List Value, AllLiteral values →
    valueSlots values = [] ∧ valueSequences values = []
  | [], _ => by simp [valueSlots, valueSequences]
  | value :: rest, h => by
    rw [AllLiteral] at h
    obtain ⟨hslots, hsequences⟩ := slots_of_isLiteral value h.1
    obtain ⟨hrest, hrest'⟩ := slots_of_allLiteral rest h.2
    simp [valueSlots, valueSequences, hslots, hsequences, hrest, hrest']

end

/-- A value of literals names no slots and has no op-lines. -/
theorem sealedValue_of_isLiteral {value : Value} (h : value.IsLiteral) :
    territory.SealedValue bound value := by
  obtain ⟨hslots, hsequences⟩ := slots_of_isLiteral value h
  exact ⟨by simp [hslots], by simp [hsequences]⟩

/-- The slots that values name are named by one part of them or the other. -/
theorem valueSlots_append (values more : List Value) :
    valueSlots (values ++ more) = valueSlots values ++ valueSlots more := by
  induction values with
  | nil => rfl
  | cons value rest ih => simp [valueSlots, ih]

/-- The op-lines in values are in one part of them or the other. -/
theorem valueSequences_append (values more : List Value) :
    valueSequences (values ++ more) = valueSequences values ++ valueSequences more := by
  induction values with
  | nil => rfl
  | cons value rest ih => simp [valueSequences, ih]

/-- The elements of a value name what the value names, or nothing. -/
theorem SealedValue.elements {value : Value} (h : territory.SealedValue bound value) :
    territory.SealedValue bound (.array value.elements) := by
  cases value
  case array items => exact h
  all_goals exact sealedValue_of_isLiteral (by simp [Value.elements, Value.IsLiteral, AllLiteral])

/-- Appending to a sealed value keeps it sealed. -/
theorem SealedValue.push {cell : Cell} {element : Value}
    (h : territory.SealedValue bound cell.value) (helement : territory.SealedValue bound element) :
    territory.SealedValue bound (cell.push element).value := by
  have helements := h.elements
  refine ⟨?_, ?_⟩
  · intro slot hslot
    simp only [Cell.push, Value.slots, valueSlots_append, valueSlots, List.append_nil] at hslot
    rcases List.mem_append.mp hslot with hslot | hslot
    · exact helements.owned slot (by simpa [Value.slots] using hslot)
    · exact helement.owned slot hslot
  · intro lines hlines
    simp only [Cell.push, Value.sequences, valueSequences_append, valueSequences,
      List.append_nil] at hlines
    rcases List.mem_append.mp hlines with hlines | hlines
    · exact helements.sound lines (by simpa [Value.sequences] using hlines)
    · exact helement.sound lines hlines

namespace Sealed

variable {state : CompileState}

/-- The slot that is added next is within the territory. -/
theorem owns_next (h : territory.Sealed state) : territory.Owns state.heap.next :=
  Or.inr h.base_le

/-- Reporting an event leaves the heap alone. -/
theorem noted (h : territory.Sealed state) (event : Event) : territory.Sealed (state.noted event) :=
  ⟨h.base_le, h.values⟩

/-- Reporting misplaced nodes leaves the heap alone. -/
theorem notedMisplaced (h : territory.Sealed state) (kinds : List NodeKind) :
    territory.Sealed (state.notedMisplaced kinds) :=
  ⟨by simpa using h.base_le, by simpa using h.values⟩

/-- Handing out a handle leaves the heap alone and only raises the bound. -/
theorem advanced (h : territory.Sealed state) : territory.Sealed state.advanced :=
  ⟨h.base_le, fun slot hslot => (h.values slot hslot).mono (Nat.le_succ _)⟩

/-- A slot may be added if its content stays within the territory. -/
theorem added (h : territory.Sealed state) {cell : Cell}
    (hcell : territory.SealedValue state.issued cell.value) :
    territory.Sealed (state.added cell) := by
  refine ⟨?_, fun slot hslot => ?_⟩
  · have hbase := h.base_le
    simp only [CompileState.added_heap, Heap.size_add]
    omega
  · simp only [CompileState.added_heap, CompileState.added_issued, Heap.get_add]
    split
    · exact hcell
    · exact h.values slot hslot

/-- An empty slot may always be added. -/
theorem added_empty (h : territory.Sealed state) : territory.Sealed (state.added {}) :=
  h.added (sealedValue_of_isLiteral (by simp [Value.IsLiteral]))

/-- A slot may be changed if what it holds then stays within the territory, at least where the slot
itself is within it. -/
theorem written (h : territory.Sealed state) {target : SlotId} {change : Cell → Cell}
    (hchange : territory.Owns target →
      territory.SealedValue state.issued (change (state.heap.get target)).value) :
    territory.Sealed (state.written target change) := by
  refine ⟨?_, fun slot hslot => ?_⟩
  · simpa only [CompileState.written_heap, Heap.size_modify] using h.base_le
  · simp only [CompileState.written_heap, CompileState.written_issued, Heap.get_modify]
    split
    · next heq =>
      obtain ⟨rfl, -⟩ := heq
      exact hchange hslot
    · exact h.values slot hslot

/-- The slot that an operation writes is in a sealed state again. -/
theorem withResult (h : territory.Sealed state) (context : Option SlotId) :
    territory.Sealed (state.withResult context) := by
  cases context with
  | none => exact h.added_empty
  | some _ => exact h

/-- The slot that an operation writes is the context or a new one, and both are within the
territory. -/
theorem owns_resultOf (h : territory.Sealed state) {context : Option SlotId}
    (hcontext : ∀ slot ∈ context, territory.Owns slot) :
    territory.Owns (state.resultOf context) := by
  cases context with
  | none => exact h.owns_next
  | some slot => exact hcontext slot rfl

end Sealed

end Territory

end Lowering
