import Mathlib.Data.List.Nodup
import Mathlib.Data.List.Perm.Basic
import Lowering.Proofs.Compile.Linkable

/-!
# Every handle is used once

A compiler numbers the handles that it hands out, and every op-line that it makes takes one of
them. The op-lines end up in different places: in the list that is returned, in the bodies of
functions inside it, and in parameter records that are stored in slots; some are dropped. `Made`
says where the handles of a stretch of a compilation have gone. A number is owned by a slot or by
none. The handles of the op-lines in hand are drawn from the numbers that no slot owns, and those of
the op-lines that were stored in a slot from the numbers that the slot owns.

Stretches follow each other (`Made.trans`), op-lines in hand may be rearranged and dropped, and
storing them in a record turns their numbers over to a slot (`Made.store`). `Built.numbers` puts
this together for every emitter, also where it fails. `handles_unique` is what follows for a run of
calls.
-/

namespace Lowering

open CompileM Emitter

/-! ## Handles of op-lines -/

mutual

/-- The handles of the op-lines inside an operation. -/
def Op.innerHandles : Op → List OpId
  | .functionDef _ body _ => lineHandles body
  | _ => []

/-- The handles of op-lines and of those inside them. -/
def lineHandles : List OpLine → List OpId
  | [] => []
  | ⟨id, op⟩ :: rest => id :: (op.innerHandles ++ lineHandles rest)

end

/-- No op-lines have no handles. -/
@[simp] theorem lineHandles_nil : lineHandles [] = [] := rfl

/-- The handles of op-lines are that of the first, those inside it and those of the others. -/
@[simp] theorem lineHandles_cons (line : OpLine) (rest : List OpLine) :
    lineHandles (line :: rest) = line.id :: (line.op.innerHandles ++ lineHandles rest) := by
  cases line; rfl

/-- Op-lines one after another have the handles of both. -/
@[simp] theorem lineHandles_append (lines more : List OpLine) :
    lineHandles (lines ++ more) = lineHandles lines ++ lineHandles more := by
  induction lines with
  | nil => rfl
  | cons line rest ih => simp [ih]

/-- The handles of lists of op-lines. -/
def allHandles (lists : List (List OpLine)) : List OpId :=
  lists.flatMap handles

/-- More lists of op-lines have the handles of both. -/
theorem allHandles_append (lists more : List (List OpLine)) :
    allHandles (lists ++ more) = allHandles lists ++ allHandles more :=
  List.flatMap_append

mutual

/-- The handles inside an operation are those of the lists that stand inside it. -/
theorem Op.allHandles_bodies_perm : ∀ op : Op, (allHandles op.bodies).Perm op.innerHandles
  | .unary _ _ _ | .binary _ _ _ _ | .jumpTo _ | .jumpIf _ _ | .jumpIfNot _ _ | .noOp => by
    simp [allHandles, Op.bodies, Op.innerHandles]
  | .functionDef _ body _ => by
    rw [Op.bodies, Op.innerHandles]
    exact allHandles_lineBodies_perm body

/-- The handles of op-lines and of those inside them are those of the list and of the lists that
stand inside it. -/
theorem allHandles_lineBodies_perm : ∀ lines : List OpLine,
    (allHandles (lines :: lineBodies lines)).Perm (lineHandles lines)
  | [] => by simp [allHandles, lineBodies, handles]
  | ⟨id, op⟩ :: rest => by
    have hop := Op.allHandles_bodies_perm op
    have hrest := allHandles_lineBodies_perm rest
    have hlists : allHandles ((⟨id, op⟩ :: rest) :: lineBodies (⟨id, op⟩ :: rest)) =
        id :: (handles rest ++ (allHandles op.bodies ++ allHandles (lineBodies rest))) := by
      simp [allHandles, handles]
    rw [hlists, lineHandles_cons]
    refine List.Perm.cons id (List.perm_append_comm_assoc .. |>.trans ?_)
    exact hop.append hrest

end

/-! ## Handles drawn from numbers -/

/-- Handles with different numbers, of which `p` holds, in any order. -/
def Drawn (p : Nat → Prop) (ids : List OpId) : Prop :=
  ∃ numbers : List Nat, ids.Perm (numbers.map OpId.ofNat) ∧ numbers.Nodup ∧ ∀ n ∈ numbers, p n

namespace Drawn

variable {p q : Nat → Prop} {ids more : List OpId}

/-- No handles are drawn without numbers. -/
theorem nil : Drawn p [] :=
  ⟨[], by simp, List.nodup_nil, by simp⟩

/-- One handle is drawn with its number. -/
theorem single (number : Nat) (h : p number) : Drawn p [.ofNat number] :=
  ⟨[number], by simp, List.nodup_singleton number, by simpa using h⟩

/-- Handles are drawn with the same numbers under a weaker condition. -/
theorem mono (h : Drawn p ids) (hpq : ∀ n, p n → q n) : Drawn q ids := by
  obtain ⟨numbers, hperm, hnodup, hp⟩ := h
  exact ⟨numbers, hperm, hnodup, fun n hn => hpq n (hp n hn)⟩

/-- The order in which handles are drawn does not matter. -/
theorem perm (h : Drawn p ids) (hperm : more.Perm ids) : Drawn p more := by
  obtain ⟨numbers, hids, hnodup, hp⟩ := h
  exact ⟨numbers, hperm.trans hids, hnodup, hp⟩

/-- Handles are drawn together if no number is among both. -/
theorem append (h : Drawn p ids) (h' : Drawn q more) (hpq : ∀ n, p n → ¬ q n) :
    Drawn (fun n => p n ∨ q n) (ids ++ more) := by
  obtain ⟨numbers, hperm, hnodup, hp⟩ := h
  obtain ⟨numbers', hperm', hnodup', hq⟩ := h'
  refine ⟨numbers ++ numbers', ?_, ?_, ?_⟩
  · rw [List.map_append]
    exact hperm.append hperm'
  · exact hnodup.append hnodup' fun n hn hn' => hpq n (hp n hn) (hq n hn')
  · exact fun n hn => (List.mem_append.mp hn).imp (hp n) (hq n)

/-- A handle that is drawn has one of the numbers. -/
theorem exists_number (h : Drawn p ids) {id : OpId} (hid : id ∈ ids) :
    ∃ n, p n ∧ id = .ofNat n := by
  obtain ⟨numbers, hperm, -, hp⟩ := h
  obtain ⟨n, hn, rfl⟩ := List.mem_map.mp (hperm.mem_iff.mp hid)
  exact ⟨n, hp n hn, rfl⟩

/-- Handles that are drawn are different, as long as their numbers are words. -/
theorem nodup (h : Drawn p ids) (hp : ∀ n, p n → n < 2 ^ 32) : ids.Nodup := by
  obtain ⟨numbers, hperm, hnodup, hnumbers⟩ := h
  rw [hperm.nodup_iff]
  refine hnodup.map_on fun a ha b hb hab => ?_
  exact OpId.ofNat_inj (hp a (hnumbers a ha)) (hp b (hnumbers b hb)) hab

end Drawn

/-! ## Where handles go -/

/-- The lists of op-lines in the content of a slot. -/
def Heap.sequencesOf (heap : Heap) (slot : SlotId) : List (List OpLine) :=
  (heap.get slot).value.sequences

/-- A new slot without op-lines has none, and all others keep theirs. -/
theorem Heap.sequencesOf_add (heap : Heap) {cell : Cell} (hcell : cell.value.sequences = [])
    (slot : SlotId) : (heap.add cell).sequencesOf slot = [] ∨
      (heap.add cell).sequencesOf slot = heap.sequencesOf slot := by
  rw [Heap.sequencesOf, Heap.get_add]
  split
  · exact Or.inl hcell
  · exact Or.inr rfl

/-- A change that stores no op-lines leaves a slot its own or clears them. -/
theorem Heap.sequencesOf_modify (heap : Heap) (target : SlotId) {change : Cell → Cell}
    (hchange : ∀ cell, (change cell).value.sequences = [] ∨
      (change cell).value.sequences = cell.value.sequences) (slot : SlotId) :
    (heap.modify target change).sequencesOf slot = [] ∨
      (heap.modify target change).sequencesOf slot = heap.sequencesOf slot := by
  rw [Heap.sequencesOf, Heap.get_modify]
  split
  · exact hchange _
  · exact Or.inr rfl

/-- The numbers that were handed out from one state to another. -/
def Issued (before after : CompileState) (n : Nat) : Prop :=
  before.issued ≤ n ∧ n < after.issued

/-- What was stored in a slot from one state to another: it stands behind what the slot held, or
alone. -/
def Stored (before after : CompileState) (slot : SlotId) (lists : List (List OpLine)) : Prop :=
  after.heap.sequencesOf slot = lists ∨
    after.heap.sequencesOf slot = before.heap.sequencesOf slot ++ lists

/-- Where the handles have gone that were handed out from one state to another. A number has a slot
for its owner or none. The handles in hand have numbers without an owner, and those of the op-lines
that were stored in a slot have numbers that the slot owns. -/
structure Shares (before after : CompileState) (hand : List OpId) (owner : Nat → Option SlotId) :
    Prop where
  inHand : Drawn (fun n => Issued before after n ∧ owner n = none) hand
  inSlot : ∀ slot, ∃ lists, Stored before after slot lists ∧
    Drawn (fun n => Issued before after n ∧ owner n = some slot) (allHandles lists)

/-- From one state to another, handles were handed out, and those in hand and those of the op-lines
in slots are all different. -/
structure Made (before after : CompileState) (hand : List OpId) : Prop where
  le : before.issued ≤ after.issued
  shares : ∃ owner, Shares before after hand owner

namespace Stored

variable {before between after : CompileState} {slot : SlotId} {lists more : List (List OpLine)}

/-- What is stored first is there at the end unless it is replaced on the way. -/
theorem trans (h : Stored before between slot lists) (h' : Stored between after slot more) :
    Stored before after slot more ∨ Stored before after slot (lists ++ more) := by
  rcases h' with h' | h'
  · exact Or.inl (Or.inl h')
  · refine Or.inr (h.imp (fun h => ?_) fun h => ?_)
    · rw [h', h]
    · rw [h', h, List.append_assoc]

/-- What is there at the end of what was stored in two steps is among what was stored in either. -/
theorem exists_trans {all : List (List OpLine)} (h : Stored before between slot lists)
    (h' : Stored between after slot more) (hlists : lists ⊆ all) (hmore : more ⊆ all) :
    ∃ stored, Stored before after slot stored ∧ stored ⊆ all := by
  rcases h.trans h' with hall | hall
  · exact ⟨more, hall, hmore⟩
  · exact ⟨lists ++ more, hall, List.append_subset.mpr ⟨hlists, hmore⟩⟩

end Stored

namespace Made

variable {before between after : CompileState} {hand more : List OpId}

/-- No handle is handed out, and slots lose op-lines at most. -/
theorem still (hissued : after.issued = before.issued)
    (hheld : ∀ slot, after.heap.sequencesOf slot = [] ∨
      after.heap.sequencesOf slot = before.heap.sequencesOf slot) : Made before after [] := by
  refine ⟨hissued.ge, fun _ => none, .nil, fun slot => ⟨[], ?_, .nil⟩⟩
  exact (hheld slot).imp_right fun heq => by rw [heq, List.append_nil]

/-- Nothing has been made at the start. -/
theorem refl (state : CompileState) : Made state state [] :=
  still rfl fun _ => Or.inr rfl

/-- One stretch and then another. -/
theorem trans (h : Made before between hand) (h' : Made between after more) :
    Made before after (hand ++ more) := by
  obtain ⟨hle, owner, hhand, hslots⟩ := h
  obtain ⟨hle', owner', hmore, hslots'⟩ := h'
  -- The numbers of the two stretches differ, so each keeps its owners.
  let both : Nat → Option SlotId := fun n => if n < between.issued then owner n else owner' n
  have hfirst : ∀ place n, Issued before between n ∧ owner n = place →
      Issued before after n ∧ both n = place := by
    rintro place n ⟨⟨hlow, hhigh⟩, howner⟩
    exact ⟨⟨hlow, Nat.lt_of_lt_of_le hhigh hle'⟩, by simp only [both, if_pos hhigh, howner]⟩
  have hsecond : ∀ place n, Issued between after n ∧ owner' n = place →
      Issued before after n ∧ both n = place := by
    rintro place n ⟨⟨hlow, hhigh⟩, howner⟩
    exact ⟨⟨hle.trans hlow, hhigh⟩, by simp only [both, if_neg (Nat.not_lt.mpr hlow), howner]⟩
  have happend : ∀ place {ids ids' : List OpId},
      Drawn (fun n => Issued before between n ∧ owner n = place) ids →
      Drawn (fun n => Issued between after n ∧ owner' n = place) ids' →
      Drawn (fun n => Issued before after n ∧ both n = place) (ids ++ ids') := by
    intro place ids ids' hids hids'
    refine (hids.append hids' fun n hn hn' => ?_).mono fun n hn => ?_
    · exact absurd hn.1.2 (Nat.not_lt.mpr hn'.1.1)
    · exact hn.elim (hfirst place n) (hsecond place n)
  refine ⟨hle.trans hle', both, happend none hhand hmore, fun slot => ?_⟩
  obtain ⟨lists, hstored, hlists⟩ := hslots slot
  obtain ⟨lists', hstored', hlists'⟩ := hslots' slot
  -- What the first stretch has stored is lost where the second replaces the content of the slot.
  rcases hstored.trans hstored' with hall | hall
  · exact ⟨lists', hall, hlists'.mono (hsecond (some slot))⟩
  · refine ⟨lists ++ lists', hall, ?_⟩
    rw [allHandles_append]
    exact happend (some slot) hlists hlists'

/-- Op-lines in hand are rearranged. -/
theorem perm (h : Made before after hand) (hperm : more.Perm hand) : Made before after more := by
  obtain ⟨hle, owner, hhand, hslots⟩ := h
  exact ⟨hle, owner, hhand.perm hperm, hslots⟩

/-- Op-lines in hand are dropped. -/
theorem drop (h : Made before after hand) : Made before after [] := by
  obtain ⟨hle, owner, -, hslots⟩ := h
  exact ⟨hle, owner, .nil, hslots⟩

/-- Another handle is in hand. -/
theorem advanced (h : Made before between hand) :
    Made before between.advanced (hand ++ [between.handle]) := by
  refine h.trans ⟨Nat.le_succ _, fun _ => none, .single between.issued ?_, fun slot => ?_⟩
  · exact ⟨⟨le_rfl, Nat.lt_succ_self _⟩, rfl⟩
  · exact ⟨[], Or.inr (List.append_nil _).symm, .nil⟩

/-- A step that hands out no handle and stores no op-lines. -/
theorem quiet (h : Made before between hand) (hissued : after.issued = between.issued)
    (hheld : ∀ slot, after.heap.sequencesOf slot = [] ∨
      after.heap.sequencesOf slot = between.heap.sequencesOf slot) : Made before after hand := by
  have hboth := h.trans (still hissued hheld)
  rwa [List.append_nil] at hboth

/-- An event makes no op-lines. -/
theorem noted (h : Made before between hand) (event : Event) :
    Made before (between.noted event) hand :=
  h.quiet rfl fun _ => Or.inr rfl

/-- Reporting misplaced nodes makes no op-lines. -/
theorem notedMisplaced (h : Made before between hand) (kinds : List NodeKind) :
    Made before (between.notedMisplaced kinds) hand :=
  h.quiet (by simp) (by simp)

/-- A slot without op-lines is added. -/
theorem added (h : Made before between hand) {cell : Cell} (hcell : cell.value.sequences = []) :
    Made before (between.added cell) hand :=
  h.quiet rfl (Heap.sequencesOf_add _ hcell)

/-- An empty slot has no op-lines. -/
theorem added_empty (h : Made before between hand) : Made before (between.added {}) hand :=
  h.added (by simp [Value.sequences])

/-- Finding the slot to write makes no op-lines. -/
theorem withResult (h : Made before between hand) (context : Option SlotId) :
    Made before (between.withResult context) hand := by
  cases context with
  | none => exact h.added_empty
  | some _ => exact h

/-- An operation whose result has its slot gets its handle. -/
theorem emitted (h : Made before between hand) (context : Option SlotId) :
    Made before (between.withResult context).advanced (hand ++ [between.handle]) := by
  have hmade := (h.withResult context).advanced
  rwa [CompileState.handle, CompileState.withResult_issued] at hmade

/-- A slot is written with something that has the op-lines that it held, or none. -/
theorem written (h : Made before between hand) {target : SlotId} {change : Cell → Cell}
    (hchange : ∀ cell, (change cell).value.sequences = [] ∨
      (change cell).value.sequences = cell.value.sequences) :
    Made before (between.written target change) hand :=
  h.quiet rfl (Heap.sequencesOf_modify _ target hchange)

end Made

/-- The op-lines of what has been appended to a cell: those of its elements, which it held or which
are none, and those of the new one. -/
theorem Cell.sequences_push (element : Value) (cell : Cell) :
    (cell.push element).value.sequences = element.sequences ∨
      (cell.push element).value.sequences = cell.value.sequences ++ element.sequences := by
  obtain ⟨value, type⟩ := cell
  cases value <;>
    simp [Cell.push, Value.elements, Value.sequences, valueSequences,
      Territory.valueSequences_append]

namespace Stored

variable {before after : CompileState} {slot target : SlotId} {lists : List (List OpLine)}

/-- A record that is appended to a slot is stored there. -/
theorem push (state : CompileState) (record : ParamRecord)
    (hthere : target.index < state.heap.size) :
    Stored state (state.written target (.push (.param record))) target
      (Value.param record).sequences := by
  unfold Stored
  rw [CompileState.written_heap, Heap.sequencesOf, Heap.get_modify, if_pos ⟨rfl, hthere⟩]
  exact Cell.sequences_push _ _

/-- Changing another slot stores nothing in this one. -/
theorem written_of_ne (h : Stored before after slot lists) (hne : target ≠ slot)
    (change : Cell → Cell) : Stored before (after.written target change) slot lists := by
  unfold Stored
  rw [CompileState.written_heap, Heap.sequencesOf, Heap.get_modify, if_neg fun heq => hne heq.1]
  exact h

/-- What appending a record to a slot stores in any slot are op-lines of the record. -/
theorem exists_push (state : CompileState) (record : ParamRecord) (target slot : SlotId) :
    ∃ lists, Stored state (state.written target (.push (.param record))) slot lists ∧
      lists ⊆ (Value.param record).sequences := by
  unfold Stored
  rw [CompileState.written_heap, Heap.sequencesOf, Heap.get_modify]
  split
  · exact ⟨_, Cell.sequences_push _ _, List.Subset.refl _⟩
  · exact ⟨[], Or.inr (List.append_nil _).symm, List.nil_subset _⟩

end Stored

/-- The op-lines in hand are stored in a record, and their numbers are turned over to its slot. -/
theorem Made.store {before after : CompileState} (record : ParamRecord)
    (h : Made before after (lineHandles record.ops)) (target : SlotId) :
    Made before (after.written target (.push (.param record))) [] := by
  by_cases hthere : target.index < after.heap.size
  · obtain ⟨hle, owner, hhand, hslots⟩ := h
    -- Every number without an owner goes to the slot, those of dropped op-lines included.
    let turned : Nat → Option SlotId := fun n => some ((owner n).getD target)
    have hnew : Drawn (fun n => Issued before after n ∧ owner n = none)
        (allHandles (Value.param record).sequences) :=
      hhand.perm (allHandles_lineBodies_perm record.ops)
    have hturned : ∀ n, owner n = none → turned n = some target := by
      intro n howner
      simp only [turned, howner, Option.getD_none]
    have hkept : ∀ slot n, owner n = some slot → turned n = some slot := by
      intro slot n howner
      simp only [turned, howner, Option.getD_some]
    refine ⟨hle, turned, .nil, fun slot => ?_⟩
    obtain ⟨lists, hstored, hlists⟩ := hslots slot
    by_cases hslot : target = slot
    · subst hslot
      rcases hstored.trans (.push after record hthere) with hall | hall
      · exact ⟨_, hall, hnew.mono fun n hn => ⟨hn.1, hturned n hn.2⟩⟩
      · refine ⟨_, hall, ?_⟩
        rw [allHandles_append]
        refine (hlists.append hnew fun n hn hn' => ?_).mono fun n hn => ?_
        · rw [hn.2] at hn'
          cases hn'.2
        · rcases hn with hn | hn
          · exact ⟨hn.1, hkept target n hn.2⟩
          · exact ⟨hn.1, hturned n hn.2⟩
    · exact ⟨lists, hstored.written_of_ne hslot _,
        hlists.mono fun n hn => ⟨hn.1, hkept slot n hn.2⟩⟩
  · -- A slot that is not there stays so, and the op-lines are dropped.
    refine h.drop.quiet rfl fun slot => Or.inr ?_
    rw [CompileState.written_heap, Heap.sequencesOf, Heap.get_modify,
      if_neg fun heq => hthere heq.2]
    rfl

/-! ## Emitters -/

/-- An emitter returns op-lines whose handles, and those of the op-lines that it stores, are all
different; what it has stored when it fails has different handles as well. -/
def Emitter.Numbers (emitter : Emitter) : Prop :=
  ∀ context state, Ends (emitter context) state
    (fun ops after => Made state after (lineHandles ops)) (fun _ after => Made state after [])

/-- An emitter that runs while other op-lines are in hand. -/
theorem Emitter.Numbers.ends {emitter : Emitter} (h : emitter.Numbers) {context : Option SlotId}
    {before state : CompileState} {hand : List OpId} {done : List OpLine → CompileState → Prop}
    {failed : CompileError → CompileState → Prop} (hhand : Made before state hand)
    (hdone : ∀ ops after, Made before after (hand ++ lineHandles ops) → done ops after)
    (hfailed : ∀ e after, Made before after [] → failed e after) :
    Ends (emitter context) state done failed := by
  refine (h context state).mono (fun ops after hops => ?_) fun e after hnone => ?_
  · exact hdone ops after (hhand.trans hops)
  · exact hfailed e after (hhand.trans hnone).drop

namespace Emitter

/-- No code makes nothing. -/
theorem numbers_skip : skip.Numbers :=
  fun _ state => ends_skip.mpr (.refl state)

/-- One piece and then another draw numbers one behind the other. -/
theorem numbers_append {first second : Emitter} (hfirst : first.Numbers)
    (hsecond : second.Numbers) : (append first second).Numbers := by
  intro context state
  rw [ends_append]
  refine hfirst.ends (.refl state) (fun ops state₁ hops => ?_) fun _ _ hfails => hfails
  refine hsecond.ends hops (fun more state₂ hmore => ?_) fun _ _ hfails => hfails
  rw [lineHandles_append]
  exact hmore

/-- An event in front draws no number. -/
theorem numbers_noting {emitter : Emitter} (event : Event) (h : emitter.Numbers) :
    (noting event emitter).Numbers := by
  intro context state
  rw [ends_noting]
  exact h.ends ((Made.refl state).noted event) (fun _ _ hops => hops) fun _ _ hfails => hfails

/-- A node that cannot be compiled draws no number. -/
theorem numbers_unsupported (kind : NodeKind) : (unsupported kind).Numbers :=
  fun _ state => (ends_unsupported kind).mpr (.refl state)

/-- A literal without effect draws no number. -/
theorem numbers_dropped (literal : Scalar) : (dropped literal).Numbers := by
  intro context state
  rw [ends_dropped]
  exact (Made.refl state).noted _

/-- A literal draws no number, and the op-lines that it may clear away keep theirs. -/
theorem numbers_folded (literal : Scalar) : (folded literal).Numbers := by
  intro context state
  cases context with
  | none =>
    rw [ends_folded_none]
    exact (Made.refl state).noted _
  | some slot =>
    rw [ends_folded_some]
    refine (Made.refl state).written fun _ => Or.inl ?_
    exact (Territory.slots_of_isLiteral _ literal.toValue_isLiteral).2

/-- A constant draws no number, and the op-lines that it may clear away keep theirs. -/
theorem numbers_constant {literal : Constant} (hliteral : literal.value.IsLiteral) :
    (constant literal).Numbers := by
  intro context state
  cases context with
  | none =>
    rw [ends_constant_none]
    exact .refl state
  | some slot =>
    rw [ends_constant_some]
    refine ((Made.refl state).notedMisplaced _).written fun _ => Or.inl ?_
    exact (Territory.slots_of_isLiteral _ hliteral).2

/-- An operation on one operand draws the next number behind those of its operand. -/
theorem numbers_unary {operand : Emitter} (kind : UnaryKind) (h : operand.Numbers) :
    (unary kind operand).Numbers := by
  intro context state
  rw [ends_unary]
  refine h.ends (Made.refl state).added_empty (fun ops state₁ hops => ?_) fun _ _ hfails => hfails
  simpa [Op.innerHandles] using hops.emitted context

/-- An operation on two operands draws the next number behind those of its operands. -/
theorem numbers_binary {left right : Emitter} (kind : BinaryKind) (hleft : left.Numbers)
    (hright : right.Numbers) : (binary kind left right).Numbers := by
  intro context state
  rw [ends_binary]
  refine hleft.ends (Made.refl state).added_empty.added_empty (fun ops state₁ hops => ?_)
    fun _ _ hfails => hfails
  refine hright.ends hops (fun more state₂ hmore => ?_) fun _ _ hfails => hfails
  simpa [Op.innerHandles] using hmore.emitted context

/-- An argument draws the numbers that its value draws. -/
theorem numbers_argument {value : Emitter} (h : value.Numbers) : (argument value).Numbers := by
  intro context state
  rw [ends_argument]
  refine h.ends (Made.refl state).added_empty (fun ops state₁ hops => ?_) fun _ _ hfails => hfails
  cases context with
  | none => exact hops
  | some target =>
    refine hops.written fun cell => ?_
    simpa [Value.sequences] using Cell.sequences_push (.slot state.heap.next) cell

/-- Text between the statements draws one number. -/
theorem numbers_inlineText {text : Constant} (htext : text.value.IsLiteral) :
    (inlineText text).Numbers := by
  intro context state
  rw [ends_inlineText]
  have hcell : (Cell.ofValue text.value).value.sequences = [] :=
    (Territory.slots_of_isLiteral _ htext).2
  have hmade := (((Made.refl state).notedMisplaced text.misplaced).added hcell).added_empty.advanced
  simpa [Op.innerHandles, CompileState.handle] using hmade

/-- A parameter puts the op-lines of its default value into a slot, which owns their numbers from
then on. -/
theorem numbers_parameter {default : Emitter} (declaration : Declaration) (h : default.Numbers) :
    (parameter declaration default).Numbers := by
  intro context state
  rw [ends_parameter]
  refine h.ends (Made.refl state).added_empty (fun ops state₁ hops => ?_) fun _ _ hfails => hfails
  cases context with
  | none => exact hops.drop
  | some target =>
    exact Made.store ⟨declaration.name, state.heap.next, ops, declaration.byRef,
      declaration.typeHint⟩ hops target

/-- A function takes the op-lines of its body inside and draws the next number for itself. -/
theorem numbers_function {body name params : Emitter} (hbody : body.Numbers)
    (hname : name.Numbers) (hparams : params.Numbers) : (function body name params).Numbers := by
  intro context state
  rw [ends_function]
  refine hbody.ends (.refl state) (fun stmts state₁ hstmts => ?_) fun _ _ hfails => hfails
  refine hname.ends hstmts.added_empty (fun ops state₂ hops => ?_) fun _ _ hfails => hfails
  have hcell : (Cell.ofValue (.array [])).value.sequences = [] := by
    simp [Cell.ofValue, Value.sequences, valueSequences]
  refine hparams.ends (hops.added hcell) (fun more state₃ hmore => ?_) fun _ _ hfails => hfails
  -- The op-lines of the body stay in hand, inside the last op-line.
  refine (hmore.noted _).advanced.perm (List.perm_iff_count.mpr fun id => ?_)
  simp only [lineHandles_append, lineHandles_cons, lineHandles_nil, Op.innerHandles,
    List.count_append, List.count_cons, List.count_nil, List.append_nil, CompileState.handle,
    CompileState.noted_issued]
  omega

/-- A guarded branch draws two numbers before its statements and one behind them. -/
theorem numbers_guardedTo {branch : Branch} (target : List OpLine → OpLine → OpId)
    (hcond : branch.cond.Numbers) (hstmts : branch.stmts.Numbers) :
    Numbers fun _ => guardedTo target branch := by
  intro context state
  rw [ends_guardedTo]
  refine hcond.ends (Made.refl state).added_empty (fun test state₁ htest => ?_)
    fun _ _ hfails => hfails
  refine hstmts.ends htest.advanced.advanced (fun stmts state₂ hstmts => ?_)
    fun _ _ hfails => hfails
  -- The label got its handle before the guard and stands last.
  refine hstmts.advanced.perm (List.perm_iff_count.mpr fun id => ?_)
  simp only [lineHandles_append, lineHandles_cons, lineHandles_nil, Op.innerHandles,
    List.count_append, List.count_cons, List.count_nil, List.append_nil]
  omega

/-- A loop that tests first draws as its guarded statements do. -/
theorem numbers_whileLoop {loop : Branch} (hcond : loop.cond.Numbers)
    (hstmts : loop.stmts.Numbers) : (whileLoop loop).Numbers := by
  rw [whileLoop_eq_guardedTo]
  exact numbers_guardedTo _ hcond hstmts

/-- A loop that tests last draws the next number behind those of its two parts. -/
theorem numbers_doLoop {loop : Branch} (hcond : loop.cond.Numbers) (hstmts : loop.stmts.Numbers) :
    (doLoop loop).Numbers := by
  intro context state
  rw [ends_doLoop]
  refine hstmts.ends (Made.refl state).added_empty (fun stmts state₁ hstmts => ?_)
    fun _ _ hfails => hfails
  refine hcond.ends hstmts (fun test state₂ htest => ?_) fun _ _ hfails => hfails
  simpa [Op.innerHandles] using htest.advanced

/-- A conditional draws the number of its exit before all others. -/
theorem numbers_conditional {branches : List Branch} {otherwise : Emitter}
    (hcond : ∀ branch ∈ branches, branch.cond.Numbers)
    (hstmts : ∀ branch ∈ branches, branch.stmts.Numbers) (hotherwise : otherwise.Numbers) :
    (conditional branches otherwise).Numbers := by
  intro context state
  rw [ends_conditional]
  have hguarded : Numbers fun _ => guardedAll state.handle branches :=
    guardedAll_induction Numbers numbers_skip numbers_append state.handle fun branch hbranch =>
      numbers_guardedTo _ (hcond branch hbranch) (hstmts branch hbranch)
  refine @Numbers.ends _ hguarded none _ _ _ _ _ (Made.refl state).advanced
    (fun ops state₁ hops => ?_) fun _ _ hfails => hfails
  refine hotherwise.ends hops (fun more state₂ hmore => ?_) fun _ _ hfails => hfails
  -- The label of the exit got its handle first and stands last.
  refine hmore.perm (List.perm_iff_count.mpr fun id => ?_)
  simp only [lineHandles_append, lineHandles_cons, lineHandles_nil, Op.innerHandles,
    List.count_append, List.count_cons, List.count_nil, List.append_nil, List.nil_append]
  omega

/-- Every emitter that is built uses every handle once. -/
theorem Built.numbers {emitter : Emitter} (h : Built emitter) : emitter.Numbers := by
  induction h with
  | skip => exact numbers_skip
  | append _ _ hfirst hsecond => exact numbers_append hfirst hsecond
  | noting event _ h => exact numbers_noting event h
  | unsupported kind => exact numbers_unsupported kind
  | dropped literal => exact numbers_dropped literal
  | folded literal => exact numbers_folded literal
  | constant hliteral => exact numbers_constant hliteral
  | unary kind _ h => exact numbers_unary kind h
  | binary kind _ _ hleft hright => exact numbers_binary kind hleft hright
  | argument _ h => exact numbers_argument h
  | inlineText htext => exact numbers_inlineText htext
  | parameter declaration _ h => exact numbers_parameter declaration h
  | function _ _ _ hbody hname hparams => exact numbers_function hbody hname hparams
  | conditional _ _ _ hcond hstmts hotherwise => exact numbers_conditional hcond hstmts hotherwise
  | whileLoop _ _ hcond hstmts => exact numbers_whileLoop hcond hstmts
  | doLoop _ _ hcond hstmts => exact numbers_doLoop hcond hstmts

end Emitter

/-! ## Calls of a compiler -/

/-- A call of a compiler: the statements, the context and the state that the call finds. -/
structure Call where
  nodes : List Node
  context : Option SlotId
  before : CompileState

/-- Where an op-line stands: in one of the lists that a call returned, or in one of the lists in a
slot. -/
inductive Position where
  | returned (list line : Nat)
  | stored (slot : SlotId) (list line : Nat)

/-- The slot that holds a position, if it is in a slot. -/
def Position.owner : Position → Option SlotId
  | .returned _ _ => none
  | .stored slot _ _ => some slot

namespace Call

/-- The state that a call leaves, also where it fails. -/
def after (call : Call) : CompileState :=
  ((compile call.nodes call.context).run.run call.before).2

/-- The lists that a call returns: the one at the top level and those inside it. -/
def returned (call : Call) : List (List OpLine) :=
  match ((compile call.nodes call.context).run.run call.before).1 with
  | .ok lines => lines :: lineBodies lines
  | .error _ => []

/-- A call has made the op-line at a position: it has returned it, or it has put it into a slot, in
a list that did not stand there before. -/
inductive Makes (call : Call) : Position → OpLine → Prop where
  | returned {i j : Nat} {lines : List OpLine} {line : OpLine} :
      call.returned[i]? = some lines → lines[j]? = some line → Makes call (.returned i j) line
  | stored {slot : SlotId} {i j : Nat} {lines : List OpLine} {line : OpLine} :
      (call.after.heap.sequencesOf slot)[i]? = some lines →
        (call.before.heap.sequencesOf slot)[i]? ≠ some lines → lines[j]? = some line →
        Makes call (.stored slot i j) line

/-- The handles of what a call returns and of what it stores are all different. -/
theorem made (call : Call) : Made call.before call.after (allHandles call.returned) := by
  have hends := (compile_built call.nodes).numbers call.context call.before
  unfold after returned
  rcases hrun : (compile call.nodes call.context).run.run call.before with ⟨e | lines, state⟩
  · exact hends.of_run_error hrun
  · exact (hends.of_run_ok hrun).perm (allHandles_lineBodies_perm lines)

end Call

/-- Lists without a repeated handle have each handle at one position. -/
theorem position_unique {lists : List (List OpLine)} (h : (allHandles lists).Nodup)
    {i i' j j' : Nat} {lines lines' : List OpLine} {line line' : OpLine}
    (hi : lists[i]? = some lines) (hj : lines[j]? = some line) (hi' : lists[i']? = some lines')
    (hj' : lines'[j']? = some line') (heq : line.id = line'.id) : i = i' ∧ j = j' := by
  obtain ⟨hlists, hpairwise⟩ := List.nodup_flatMap.mp h
  have hid : line.id ∈ handles lines := List.mem_map_of_mem (List.mem_of_getElem? hj)
  have hid' : line.id ∈ handles lines' := heq ▸ List.mem_map_of_mem (List.mem_of_getElem? hj')
  have hdisjoint : ∀ {a b : Nat} {front back : List OpLine}, a < b → lists[a]? = some front →
      lists[b]? = some back → line.id ∈ handles front → line.id ∉ handles back := by
    intro a b front back hlt ha hb hfront hback
    obtain ⟨hlta, rfl⟩ := List.getElem?_eq_some_iff.mp ha
    obtain ⟨hltb, rfl⟩ := List.getElem?_eq_some_iff.mp hb
    exact List.pairwise_iff_getElem.mp hpairwise a b hlta hltb hlt hfront hback
  -- Different lists share no handle, and one list has it once.
  rcases Nat.lt_trichotomy i i' with hlt | rfl | hlt
  · exact absurd hid' (hdisjoint hlt hi hi' hid)
  · obtain rfl : lines = lines' := Option.some.inj (hi.symm.trans hi')
    refine ⟨rfl, ?_⟩
    have hnodup : (handles lines).Nodup := hlists lines (List.mem_of_getElem? hi)
    have hhandle : (handles lines)[j]? = some line.id := by
      rw [handles, List.getElem?_map, hj, Option.map_some]
    have hhandle' : (handles lines)[j']? = some line.id := by
      rw [handles, List.getElem?_map, hj', Option.map_some, heq]
    have hlt := (List.getElem?_eq_some_iff.mp hhandle).1
    exact (List.getElem?_inj hlt hnodup).mp (hhandle.trans hhandle'.symm)
  · exact absurd hid (hdisjoint hlt hi' hi hid')

/-- A list that did not stand in a slot before is among those that were stored; for all such lists
of the slot, the two places are the same number apart. -/
theorem Stored.exists_offset {before after : CompileState} {slot : SlotId}
    {lists : List (List OpLine)} (h : Stored before after slot lists) :
    ∃ offset : Nat, ∀ (i : Nat) (lines : List OpLine),
      (after.heap.sequencesOf slot)[i]? = some lines →
      (before.heap.sequencesOf slot)[i]? ≠ some lines →
      offset ≤ i ∧ lists[i - offset]? = some lines := by
  rcases h with h | h
  · exact ⟨0, fun i lines hi _ => ⟨Nat.zero_le i, by rwa [Nat.sub_zero, ← h]⟩⟩
  · refine ⟨(before.heap.sequencesOf slot).length, fun i lines hi hnew => ?_⟩
    rw [h] at hi
    -- In front of what was stored stands what was there before, at the same place.
    by_cases hle : (before.heap.sequencesOf slot).length ≤ i
    · exact ⟨hle, by rwa [List.getElem?_append_right hle] at hi⟩
    · rw [List.getElem?_append_left (Nat.lt_of_not_le hle)] at hi
      exact absurd hi hnew

namespace Call

variable {call : Call} {position position' : Position} {line line' : OpLine}
  {owner : Nat → Option SlotId}

/-- An op-line that a call has made has a number that was handed out in the call and that belongs to
where it stands. -/
theorem exists_number
    (h : Shares call.before call.after (allHandles call.returned) owner)
    (hmakes : call.Makes position line) :
    ∃ n, (Issued call.before call.after n ∧ owner n = position.owner) ∧ line.id = .ofNat n := by
  cases hmakes with
  | @returned i j lines _ hi hj =>
    refine h.inHand.exists_number (List.mem_flatMap.mpr ⟨lines, List.mem_of_getElem? hi, ?_⟩)
    exact List.mem_map_of_mem (List.mem_of_getElem? hj)
  | @stored slot i j lines _ hi hnew hj =>
    obtain ⟨lists, hstored, hlists⟩ := h.inSlot slot
    obtain ⟨offset, hoffset⟩ := hstored.exists_offset
    have hmem := List.mem_of_getElem? (hoffset i lines hi hnew).2
    refine hlists.exists_number (List.mem_flatMap.mpr ⟨lines, hmem, ?_⟩)
    exact List.mem_map_of_mem (List.mem_of_getElem? hj)

/-- The handles of the op-lines that a call has made were handed out in the call. -/
theorem issued_of_makes (hissued : call.after.issued ≤ 2 ^ 32) (hmakes : call.Makes position line) :
    call.before.issued ≤ line.id.number.toNat ∧ line.id.number.toNat < call.after.issued := by
  obtain ⟨-, owner, hshares⟩ := call.made
  obtain ⟨n, ⟨hn, -⟩, hid⟩ := exists_number hshares hmakes
  have hnumber : line.id.number.toNat = n := by
    rw [hid]
    exact UInt32.toNat_ofNat_of_lt' (Nat.lt_of_lt_of_le hn.2 hissued)
  rw [hnumber]
  exact hn

/-- A call has made at most one op-line with a handle. -/
theorem position_eq_of_makes (hissued : call.after.issued ≤ 2 ^ 32)
    (hmakes : call.Makes position line) (hmakes' : call.Makes position' line')
    (heq : line.id = line'.id) : position = position' := by
  obtain ⟨-, owner, hshares⟩ := call.made
  have hword : ∀ place n, Issued call.before call.after n ∧ owner n = place → n < 2 ^ 32 :=
    fun _ n hn => Nat.lt_of_lt_of_le hn.1.2 hissued
  -- The two numbers are the same, so the two positions are in the same slot or both in none.
  obtain ⟨n, hn, hid⟩ := exists_number hshares hmakes
  obtain ⟨n', hn', hid'⟩ := exists_number hshares hmakes'
  obtain rfl : n = n' :=
    OpId.ofNat_inj (hword _ n hn) (hword _ n' hn') (by rw [← hid, ← hid', heq])
  have howner : position.owner = position'.owner := by rw [← hn.2, hn'.2]
  cases hmakes with
  | returned hi hj =>
    cases hmakes' with
    | returned hi' hj' =>
      obtain ⟨rfl, rfl⟩ :=
        position_unique (hshares.inHand.nodup (hword none)) hi hj hi' hj' heq
      rfl
    | stored _ _ _ => cases howner
  | @stored slot i j lines _ hi hnew hj =>
    cases hmakes' with
    | returned _ _ => cases howner
    | @stored slot' i' j' lines' _ hi' hnew' hj' =>
      obtain rfl : slot = slot' := Option.some.inj howner
      obtain ⟨lists, hstored, hlists⟩ := hshares.inSlot slot
      obtain ⟨offset, hoffset⟩ := hstored.exists_offset
      obtain ⟨hle, hi⟩ := hoffset i lines hi hnew
      obtain ⟨hle', hi'⟩ := hoffset i' lines' hi' hnew'
      obtain ⟨hlist, rfl⟩ :=
        position_unique (hlists.nodup (hword (some slot))) hi hj hi' hj' heq
      rw [show i = i' by omega]

/-- In a run of calls, later calls begin with handles that earlier ones have not handed out. -/
theorem pairwise_of_isChain {calls : List Call}
    (h : calls.IsChain fun call next => next.before.issued = call.after.issued) :
    calls.Pairwise fun call next => call.after.issued ≤ next.before.issued := by
  have htrans : Trans (fun call next : Call => call.after.issued ≤ next.before.issued)
      (fun call next : Call => call.after.issued ≤ next.before.issued)
      (fun call next : Call => call.after.issued ≤ next.before.issued) :=
    ⟨fun {_ call _} hfirst hsecond => (hfirst.trans call.made.le).trans hsecond⟩
  exact (h.imp fun _ _ heq => heq.ge).pairwise

end Call

/-- Handles are unique over the life of a compiler. In any run of calls, each of which begins with
the handles at which the one before has left off, every op-line that a call makes carries a handle
that was handed out in the call, at the top level of what it returns, inside functions and in the
records that it stores, also where it fails; and no two op-lines of the run carry the same
handle. -/
theorem handles_unique (calls : List Call)
    (hchain : calls.IsChain fun call next => next.before.issued = call.after.issued)
    (hissued : ∀ call ∈ calls, call.after.issued ≤ 2 ^ 32) :
    (∀ call ∈ calls, ∀ position line, call.Makes position line →
      call.before.issued ≤ line.id.number.toNat ∧ line.id.number.toNat < call.after.issued) ∧
      ∀ (i i' : Nat) (call call' : Call), calls[i]? = some call → calls[i']? = some call' →
        ∀ (position position' : Position) (line line' : OpLine), call.Makes position line →
          call'.Makes position' line' → line.id = line'.id → i = i' ∧ position = position' := by
  have hinterval : ∀ call ∈ calls, ∀ position line, call.Makes position line →
      call.before.issued ≤ line.id.number.toNat ∧ line.id.number.toNat < call.after.issued :=
    fun call hcall _ _ hmakes => Call.issued_of_makes (hissued call hcall) hmakes
  refine ⟨hinterval, ?_⟩
  intro i i' call call' hi hi' position position' line line' hmakes hmakes' heq
  have hcall := List.mem_of_getElem? hi
  have hcall' := List.mem_of_getElem? hi'
  have hnumber := hinterval call hcall position line hmakes
  have hnumber' := hinterval call' hcall' position' line' hmakes'
  rw [← heq] at hnumber'
  have hpairwise := List.pairwise_iff_getElem.mp (Call.pairwise_of_isChain hchain)
  obtain ⟨hlt, hget⟩ := List.getElem?_eq_some_iff.mp hi
  obtain ⟨hlt', hget'⟩ := List.getElem?_eq_some_iff.mp hi'
  -- What different calls have handed out lies apart.
  rcases Nat.lt_trichotomy i i' with hless | rfl | hless
  · have hapart := hpairwise i i' hlt hlt' hless
    rw [hget, hget'] at hapart
    omega
  · obtain rfl : call = call' := Option.some.inj (hi.symm.trans hi')
    exact ⟨rfl, Call.position_eq_of_makes (hissued call hcall) hmakes hmakes' heq⟩
  · have hapart := hpairwise i' i hlt' hlt hless
    rw [hget, hget'] at hapart
    omega

/-- Two calls that fail, each of which leaves a record in the same context, and one behind them that
succeeds. -/
def failingCalls : List Call :=
  [⟨refusedNodes, some ⟨0⟩, .added {} {}⟩, ⟨refusedNodes, some ⟨0⟩, refusedState⟩,
    ⟨loopNodes, some ⟨0⟩, (Call.mk refusedNodes (some ⟨0⟩) refusedState).after⟩]

/-- The handles of two failed calls and of one behind them are all different; one of them is that of
the op-line that the second failed call has left in the context. -/
theorem handles_unique_after_failures :
    (failingCalls.IsChain (fun call next => next.before.issued = call.after.issued) ∧
      ∀ call ∈ failingCalls, call.after.issued ≤ 2 ^ 32) ∧
      (Call.mk refusedNodes (some ⟨0⟩) refusedState).Makes (.stored ⟨0⟩ 1 0)
        ⟨⟨1⟩, .unary .fetchVariable ⟨4⟩ ⟨3⟩⟩ ∧
      (∀ call ∈ failingCalls, ∀ position line, call.Makes position line →
        call.before.issued ≤ line.id.number.toNat ∧
          line.id.number.toNat < call.after.issued) ∧
      ∀ (i i' : Nat) (call call' : Call), failingCalls[i]? = some call →
        failingCalls[i']? = some call' → ∀ (position position' : Position) (line line' : OpLine),
          call.Makes position line → call'.Makes position' line' → line.id = line'.id →
            i = i' ∧ position = position' := by
  have hchain : failingCalls.IsChain
      (fun call next => next.before.issued = call.after.issued) :=
    .cons_cons rfl (.cons_cons rfl (.singleton _))
  have hissued : ∀ call ∈ failingCalls, call.after.issued ≤ 2 ^ 32 := by
    -- Evaluating the calls once is enough: the counter does not come near its bound.
    have hseven : ∀ call ∈ failingCalls, call.after.issued ≤ 7 := by decide +kernel
    exact fun call hcall => (hseven call hcall).trans (by norm_num)
  have hbefore : (refusedState.heap.sequencesOf ⟨0⟩)[1]? = none := rfl
  refine ⟨⟨hchain, hissued⟩, .stored rfl ?_ rfl, handles_unique failingCalls hchain hissued⟩
  exact fun hsome => nomatch hbefore.symm.trans hsome

end Lowering
