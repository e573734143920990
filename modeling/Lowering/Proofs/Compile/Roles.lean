import Mathlib.Data.List.Nodup
import Lowering.Proofs.Compile.Composition

/-!
# Slots in a role

An op-line has slots in different roles: it writes some and reads others. For one role, given as a
function from operations to slots, `Spread` says which slots have it in the op-lines that were made
from one state to another. A slot that was added has the role in one op-line at most, which is in
hand, in a function inside one that is in hand, or in a record in a slot, its owner; the context has
it a limited number of times, and only in hand. Some slots that were added may still be free.

A stretch may be followed by another, whose context is the same, a slot that is free, or none
(`Spread.trans`). An operation takes a free slot, or uses the context once more, and storing
op-lines in a record turns their slots over to an owner (`Spread.store`).
-/

namespace Lowering

open CompileM Emitter Heap

section

variable (role : Op → List SlotId)

mutual

/-- The slots with a role in the op-lines inside an operation. -/
def Op.innerNames : Op → List SlotId
  | .functionDef _ body _ => lineNames body
  | _ => []

/-- The slots with a role in op-lines and in those inside them. -/
def lineNames : List OpLine → List SlotId
  | [] => []
  | ⟨_, op⟩ :: rest => role op ++ (op.innerNames ++ lineNames rest)

end

/-- The slots with a role in lists of op-lines, without those inside them. -/
def listNames (lists : List (List OpLine)) : List SlotId :=
  lists.flatMap fun lines => lines.flatMap fun line => role line.op

end

section

variable {role : Op → List SlotId}

/-- No op-lines give no slot a role. -/
@[simp] theorem lineNames_nil : lineNames role [] = [] := rfl

/-- Op-lines give roles by the first, by those inside it and by the others. -/
@[simp] theorem lineNames_cons (line : OpLine) (rest : List OpLine) :
    lineNames role (line :: rest) =
      role line.op ++ (line.op.innerNames role ++ lineNames role rest) := by
  cases line; rfl

/-- Op-lines one after another give the roles that each of them gives. -/
@[simp] theorem lineNames_append (lines more : List OpLine) :
    lineNames role (lines ++ more) = lineNames role lines ++ lineNames role more := by
  induction lines with
  | nil => rfl
  | cons line rest ih => simp [ih]

/-- A slot with a role in an op-line at a place in lists has it in these lists. -/
theorem mem_listNames {lists : List (List OpLine)} {i j : Nat} {lines : List OpLine}
    {line : OpLine} {slot : SlotId} (hi : lists[i]? = some lines) (hj : lines[j]? = some line)
    (hslot : slot ∈ role line.op) : slot ∈ listNames role lists :=
  List.mem_flatMap.mpr ⟨lines, List.mem_of_getElem? hi,
    List.mem_flatMap.mpr ⟨line, List.mem_of_getElem? hj, hslot⟩⟩

/-- More lists give the roles that each part of them gives. -/
theorem listNames_append (lists more : List (List OpLine)) :
    listNames role (lists ++ more) = listNames role lists ++ listNames role more :=
  List.flatMap_append

mutual

/-- The slots inside an operation are those of the lists that stand inside it. -/
theorem Op.listNames_bodies_perm : ∀ op : Op,
    (listNames role op.bodies).Perm (op.innerNames role)
  | .unary _ _ _ | .binary _ _ _ _ | .jumpTo _ | .jumpIf _ _ | .jumpIfNot _ _ | .noOp => by
    simp [listNames, Op.bodies, Op.innerNames]
  | .functionDef _ body _ => by
    rw [Op.bodies, Op.innerNames]
    exact listNames_lineBodies_perm body

/-- The slots of op-lines and of those inside them are those of the list and of the lists that stand
inside it. -/
theorem listNames_lineBodies_perm : ∀ lines : List OpLine,
    (listNames role (lines :: lineBodies lines)).Perm (lineNames role lines)
  | [] => by simp [listNames, lineBodies]
  | ⟨id, op⟩ :: rest => by
    have hop := Op.listNames_bodies_perm op
    have hrest := listNames_lineBodies_perm rest
    have hlists : listNames role ((⟨id, op⟩ :: rest) :: lineBodies (⟨id, op⟩ :: rest)) =
        role op ++ (rest.flatMap (fun line => role line.op) ++
          (listNames role op.bodies ++ listNames role (lineBodies rest))) := by
      simp [listNames]
    rw [hlists, lineNames_cons]
    refine List.Perm.append_left (role op) (List.perm_append_comm_assoc .. |>.trans ?_)
    exact hop.append hrest

end

/-- Where no member occurs twice, a member comes from one place. -/
theorem index_eq_of_mem_flatMap {α β : Type} {f : α → List β} {as : List α}
    (h : (as.flatMap f).Nodup) {i i' : Nat} {a a' : α} {b : β} (hi : as[i]? = some a)
    (hi' : as[i']? = some a') (hb : b ∈ f a) (hb' : b ∈ f a') : i = i' := by
  obtain ⟨-, hpairwise⟩ := List.nodup_flatMap.mp h
  obtain ⟨hlt, rfl⟩ := List.getElem?_eq_some_iff.mp hi
  obtain ⟨hlt', rfl⟩ := List.getElem?_eq_some_iff.mp hi'
  rcases Nat.lt_trichotomy i i' with hless | heq | hless
  · exact absurd hb' (List.pairwise_iff_getElem.mp hpairwise i i' hlt hlt' hless hb)
  · exact heq
  · exact absurd hb (List.pairwise_iff_getElem.mp hpairwise i' i hlt' hlt hless hb')

/-- Lists in which no slot has the role twice have each such slot at one position. -/
theorem position_eq_of_names {lists : List (List OpLine)} (h : (listNames role lists).Nodup)
    {i i' j j' : Nat} {lines lines' : List OpLine} {line line' : OpLine} {slot : SlotId}
    (hi : lists[i]? = some lines) (hj : lines[j]? = some line) (hi' : lists[i']? = some lines')
    (hj' : lines'[j']? = some line') (hslot : slot ∈ role line.op)
    (hslot' : slot ∈ role line'.op) : i = i' ∧ j = j' := by
  have hmem : slot ∈ lines.flatMap fun line => role line.op :=
    List.mem_flatMap.mpr ⟨line, List.mem_of_getElem? hj, hslot⟩
  have hmem' : slot ∈ lines'.flatMap fun line => role line.op :=
    List.mem_flatMap.mpr ⟨line', List.mem_of_getElem? hj', hslot'⟩
  obtain rfl : i = i' := index_eq_of_mem_flatMap h hi hi' hmem hmem'
  obtain rfl : lines = lines' := Option.some.inj (hi.symm.trans hi')
  have hlist := (List.nodup_flatMap.mp h).1 lines (List.mem_of_getElem? hi)
  exact ⟨rfl, index_eq_of_mem_flatMap hlist hj hj' hslot hslot'⟩

/-- Where no slot has the role twice in lists, none has it twice in an op-line. -/
theorem nodup_of_names {lists : List (List OpLine)} (h : (listNames role lists).Nodup) {i j : Nat}
    {lines : List OpLine} {line : OpLine} (hi : lists[i]? = some lines)
    (hj : lines[j]? = some line) : (role line.op).Nodup := by
  have hlist := (List.nodup_flatMap.mp h).1 lines (List.mem_of_getElem? hi)
  exact (List.nodup_flatMap.mp hlist).1 line (List.mem_of_getElem? hj)

/-- Lists at different places, of which none has a slot in the role twice and which have different
owners for their slots, have each slot with the role at one place and position. -/
theorem place_eq_of_owners {lists : Option SlotId → List (List OpLine)}
    {owner : SlotId → Option SlotId} {place place' : Option SlotId} {i i' j j' : Nat}
    {lines lines' : List OpLine} {line line' : OpLine} {slot : SlotId}
    (h : ∀ place, (listNames role (lists place)).Nodup ∧
      ∀ name ∈ listNames role (lists place), owner name = place)
    (hi : (lists place)[i]? = some lines) (hj : lines[j]? = some line)
    (hi' : (lists place')[i']? = some lines') (hj' : lines'[j']? = some line')
    (hslot : slot ∈ role line.op) (hslot' : slot ∈ role line'.op) :
    place = place' ∧ i = i' ∧ j = j' := by
  have hmem : slot ∈ listNames role (lists place) := mem_listNames hi hj hslot
  have hmem' : slot ∈ listNames role (lists place') := mem_listNames hi' hj' hslot'
  obtain rfl : place = place' := by rw [← (h place).2 slot hmem, (h place').2 slot hmem']
  exact ⟨rfl, position_eq_of_names (h place).1 hi hj hi' hj' hslot hslot'⟩

end

/-! ## Where slots have a role -/

/-- Which slots have a role in the op-lines that were made from one state to another. Those in hand
are the context, at most `limit` times, and slots that were added, once each and without an owner;
those of the op-lines that were stored in a slot were added and have that slot for their owner. Free
slots were added and have the role nowhere. -/
structure Spread (role : Op → List SlotId) (context : Option SlotId) (limit : Nat)
    (before after : CompileState) (hand free : List SlotId) (owner : SlotId → Option SlotId) :
    Prop where
  there : ∀ slot ∈ context, slot.index < before.heap.size
  size_le : before.heap.size ≤ after.heap.size
  inHand : ∀ slot ∈ hand, slot ∈ context ∨ (before.heap.Added after.heap slot ∧ owner slot = none)
  once : ∀ slot, before.heap.Added after.heap slot → hand.count slot ≤ 1
  limited : ∀ slot ∈ context, hand.count slot ≤ limit
  unused : ∀ slot ∈ free, before.heap.Added after.heap slot ∧ owner slot = none ∧ slot ∉ hand
  inSlot : ∀ slot, ∃ lists, Stored before after slot lists ∧ (listNames role lists).Nodup ∧
    ∀ name ∈ listNames role lists, before.heap.Added after.heap name ∧ owner name = some slot

namespace Spread

variable {role : Op → List SlotId} {context context' : Option SlotId} {limit limit' total : Nat}
  {before between after : CompileState} {hand more free free' rest : List SlotId}
  {owner owner' : SlotId → Option SlotId}

/-- The slots in hand are there. -/
theorem lt_size_of_mem (h : Spread role context limit before after hand free owner) {slot : SlotId}
    (hslot : slot ∈ hand) : slot.index < after.heap.size := by
  rcases h.inHand slot hslot with hcontext | ⟨hadded, -⟩
  · exact Nat.lt_of_lt_of_le (h.there slot hcontext) h.size_le
  · exact hadded.2

/-- Of the slots from before a stretch, it has its context at most in hand. -/
theorem mem_context_of_lt (h : Spread role context limit before after hand free owner)
    {slot : SlotId} (hslot : slot ∈ hand) (hlt : slot.index < before.heap.size) :
    slot ∈ context := by
  rcases h.inHand slot hslot with hmem | ⟨hadded, -⟩
  · exact hmem
  · exact absurd hlt (Nat.not_lt.mpr hadded.1)

/-- Owners of two stretches, one behind the other. -/
def owners (heap : Heap) (owner owner' : SlotId → Option SlotId) (slot : SlotId) : Option SlotId :=
  if slot.index < heap.size then owner slot else owner' slot

/-- What the first of two stretches has added keeps its owner. -/
theorem owners_of_first (hle : between.heap.size ≤ after.heap.size) {slot : SlotId}
    {place : Option SlotId} (h : before.heap.Added between.heap slot ∧ owner slot = place) :
    before.heap.Added after.heap slot ∧ owners between.heap owner owner' slot = place :=
  ⟨⟨h.1.1, Nat.lt_of_lt_of_le h.1.2 hle⟩, (if_pos h.1.2).trans h.2⟩

/-- What the second of two stretches has added keeps its owner. -/
theorem owners_of_second (hle : before.heap.size ≤ between.heap.size) {slot : SlotId}
    {place : Option SlotId} (h : between.heap.Added after.heap slot ∧ owner' slot = place) :
    before.heap.Added after.heap slot ∧ owners between.heap owner owner' slot = place :=
  ⟨⟨Nat.le_trans hle h.1.1, h.1.2⟩, (if_neg (Nat.not_lt.mpr h.1.1)).trans h.2⟩

/-- What two stretches, one behind the other, have stored in a slot. -/
theorem inSlot_trans (h : Spread role context limit before between hand free owner)
    (h' : Spread role context' limit' between after more free' owner') (slot : SlotId) :
    ∃ lists, Stored before after slot lists ∧ (listNames role lists).Nodup ∧
      ∀ name ∈ listNames role lists, before.heap.Added after.heap name ∧
        owners between.heap owner owner' name = some slot := by
  obtain ⟨lists, hstored, hnodup, hlists⟩ := h.inSlot slot
  obtain ⟨lists', hstored', hnodup', hlists'⟩ := h'.inSlot slot
  have hsecond : ∀ name ∈ listNames role lists', before.heap.Added after.heap name ∧
      owners between.heap owner owner' name = some slot := fun name hname =>
    owners_of_second h.size_le (hlists' name hname)
  -- What the first stretch has stored is lost where the second replaces the content of the slot.
  rcases hstored.trans hstored' with hall | hall
  · exact ⟨lists', hall, hnodup', hsecond⟩
  · refine ⟨lists ++ lists', hall, ?_, ?_⟩
    · rw [listNames_append]
      refine hnodup.append hnodup' fun name hname hname' => ?_
      exact Nat.not_lt.mpr (hlists' name hname').1.1 (hlists name hname).1.2
    · rw [listNames_append, List.forall_mem_append]
      exact ⟨fun name hname => owners_of_first h'.size_le (hlists name hname), hsecond⟩

/-- A slot that the first of two stretches has added, or the second, is in hand once at most: the
second has it as its context only where the first has left it free. -/
theorem count_append_le_one (h : Spread role context limit before between hand free owner)
    (h' : Spread role context' limit' between after more free' owner')
    (hfree : ∀ slot ∈ context', slot ∈ context ∨ (slot ∈ free ∧ limit' ≤ 1)) {slot : SlotId}
    (hslot : before.heap.Added after.heap slot) : (hand ++ more).count slot ≤ 1 := by
  rw [List.count_append]
  -- A slot that the second part added is not in the first; an older one is in the second part only
  -- when it is its context, where the first has left it free.
  by_cases hlt : slot.index < between.heap.size
  · have hone := h.once slot ⟨hslot.1, hlt⟩
    by_cases hmem : slot ∈ more
    · have hmem' := h'.mem_context_of_lt hmem hlt
      rcases hfree slot hmem' with hin | ⟨hin, hle⟩
      · exact absurd (h.there slot hin) (Nat.not_lt.mpr hslot.1)
      · have hzero := List.count_eq_zero.mpr (h.unused slot hin).2.2
        have hmore := h'.limited slot hmem'
        omega
    · have hzero := List.count_eq_zero.mpr hmem
      omega
  · have hzero := List.count_eq_zero.mpr fun hmem => hlt (h.lt_size_of_mem hmem)
    have hone := h'.once slot ⟨Nat.le_of_not_lt hlt, hslot.2⟩
    omega

/-- The context is in hand as often as two stretches have it, and the second has it only if it is
the context of both. -/
theorem count_append_le (h : Spread role context limit before between hand free owner)
    (h' : Spread role context' limit' between after more free' owner')
    (htotal : ∀ slot ∈ context', limit + limit' ≤ total ∨ slot ∈ free) (hle : limit ≤ total)
    {slot : SlotId} (hslot : slot ∈ context) : (hand ++ more).count slot ≤ total := by
  rw [List.count_append]
  have hlimit := h.limited slot hslot
  have hlt := h.there slot hslot
  by_cases hmem : slot ∈ more
  · have hmem' := h'.mem_context_of_lt hmem (Nat.lt_of_lt_of_le hlt h.size_le)
    rcases htotal slot hmem' with htotal | hin
    · have hmore := h'.limited slot hmem'
      omega
    · exact absurd hlt (Nat.not_lt.mpr (h.unused slot hin).1.1)
  · have hzero := List.count_eq_zero.mpr hmem
    omega

/-- What the first of two stretches has left free stays free unless it is the context of the
second. -/
theorem unused_of_first (h : Spread role context limit before between hand free owner)
    (h' : Spread role context' limit' between after more free' owner') {slot : SlotId}
    (hslot : slot ∈ free) (hnot : slot ∉ context') :
    before.heap.Added after.heap slot ∧ owners between.heap owner owner' slot = none ∧
      slot ∉ hand ++ more := by
  obtain ⟨hadded, hnone, hout⟩ := h.unused slot hslot
  obtain ⟨hadded', hnone'⟩ := @owners_of_first _ _ _ _ owner' h'.size_le _ _ ⟨hadded, hnone⟩
  refine ⟨hadded', hnone', fun hmem => ?_⟩
  rcases List.mem_append.mp hmem with hmem | hmem
  · exact hout hmem
  · exact hnot (h'.mem_context_of_lt hmem hadded.2)

/-- What the second of two stretches has left free was not there for the first. -/
theorem unused_of_second (h : Spread role context limit before between hand free owner)
    (h' : Spread role context' limit' between after more free' owner') {slot : SlotId}
    (hslot : slot ∈ free') :
    before.heap.Added after.heap slot ∧ owners between.heap owner owner' slot = none ∧
      slot ∉ hand ++ more := by
  obtain ⟨hadded, hnone, hout⟩ := h'.unused slot hslot
  obtain ⟨hadded', hnone'⟩ := @owners_of_second _ _ _ owner _ h.size_le _ _ ⟨hadded, hnone⟩
  refine ⟨hadded', hnone', fun hmem => ?_⟩
  rcases List.mem_append.mp hmem with hmem | hmem
  · exact Nat.not_lt.mpr hadded.1 (h.lt_size_of_mem hmem)
  · exact hout hmem

/-- One stretch and then another, whose context is the same or a slot that is free. -/
theorem trans (h : Spread role context limit before between hand free owner)
    (h' : Spread role context' limit' between after more free' owner')
    (hcontext : ∀ slot ∈ context', (slot ∈ context ∧ limit + limit' ≤ total) ∨
      (slot ∈ free ∧ limit' ≤ 1)) (hle : limit ≤ total)
    (hrest : ∀ slot ∈ rest, (slot ∈ free ∧ slot ∉ context') ∨ slot ∈ free') :
    Spread role context total before after (hand ++ more) rest
      (owners between.heap owner owner') where
  there := h.there
  size_le := Nat.le_trans h.size_le h'.size_le
  inHand := by
    refine List.forall_mem_append.mpr ⟨fun slot hslot => ?_, fun slot hslot => ?_⟩
    · exact (h.inHand slot hslot).imp_right (owners_of_first h'.size_le)
    -- The context of the second part is that of the whole or a slot the first part has left free.
    · rcases h'.inHand slot hslot with hmem | hadded
      · rcases hcontext slot hmem with ⟨hmem, -⟩ | ⟨hmem, -⟩
        · exact Or.inl hmem
        · have hfree := h.unused slot hmem
          exact Or.inr (owners_of_first h'.size_le ⟨hfree.1, hfree.2.1⟩)
      · exact Or.inr (owners_of_second h.size_le hadded)
  once := fun _ hslot => h.count_append_le_one h'
    (fun slot hmem => (hcontext slot hmem).imp_left And.left) hslot
  limited := fun _ hslot => h.count_append_le h'
    (fun slot hmem => (hcontext slot hmem).imp And.right And.left) hle hslot
  unused := by
    intro slot hslot
    rcases hrest slot hslot with ⟨hin, hnot⟩ | hin
    · exact h.unused_of_first h' hin hnot
    · exact h.unused_of_second h' hin
  inSlot := h.inSlot_trans h'

/-- No slot is used, and slots lose op-lines at most. -/
theorem still (hsize : after.heap.size = before.heap.size)
    (hheld : ∀ slot, after.heap.sequencesOf slot = [] ∨
      after.heap.sequencesOf slot = before.heap.sequencesOf slot) :
    Spread role none 0 before after [] [] fun _ => none := by
  refine ⟨by simp, hsize.ge, by simp, by simp, by simp, by simp, fun slot => ⟨[], ?_, ?_, ?_⟩⟩
  · exact (hheld slot).imp_right fun heq => by rw [heq, List.append_nil]
  · exact List.nodup_nil
  · exact List.forall_mem_nil _

/-- A slot without op-lines is added, and is free. -/
theorem added (state : CompileState) {cell : Cell} (hcell : cell.value.sequences = []) :
    Spread role none 0 state (state.added cell) [] [state.heap.next] fun _ => none := by
  have hsize : (state.added cell).heap.size = state.heap.size + 1 := size_add _ _
  refine ⟨by simp, by omega, by simp, by simp, by simp, ?_, fun slot => ⟨[], ?_, ?_, ?_⟩⟩
  · rw [List.forall_mem_singleton]
    refine ⟨⟨Nat.le_refl _, ?_⟩, rfl, List.not_mem_nil⟩
    rw [hsize]
    exact Nat.lt_succ_self _
  · rw [Stored, CompileState.added_heap, sequencesOf, get_add]
    split
    · exact Or.inl hcell
    · exact Or.inr (List.append_nil _).symm
  · exact List.nodup_nil
  · exact List.forall_mem_nil _

/-- A slot that is there is used once. -/
theorem single (state : CompileState) {slot : SlotId} (hslot : slot.index < state.heap.size) :
    Spread role (some slot) 1 state state [slot] [] fun _ => none := by
  refine ⟨by simpa using hslot, Nat.le_refl _, by simp, fun other hother => ?_, by simp, by simp,
    fun other => ⟨[], Or.inr (List.append_nil _).symm, ?_, ?_⟩⟩
  · exact absurd hother.2 (Nat.not_lt.mpr hother.1)
  · exact List.nodup_nil
  · exact List.forall_mem_nil _

/-- What is done without a context may be done in any. -/
theorem widen (h : Spread role none limit before after hand free owner)
    (there : ∀ slot ∈ context, slot.index < before.heap.size) :
    Spread role context 0 before after hand free owner where
  there := there
  size_le := h.size_le
  inHand := fun slot hslot => Or.inr ((h.inHand slot hslot).resolve_left (by simp))
  once := h.once
  limited := by
    intro slot hslot
    refine Nat.le_of_eq (List.count_eq_zero.mpr fun hmem => ?_)
    have hadded := ((h.inHand slot hmem).resolve_left (by simp)).1
    exact absurd (there slot hslot) (Nat.not_lt.mpr hadded.1)
  unused := h.unused
  inSlot := h.inSlot

/-- Where the context does not have the role, there may as well be none. -/
theorem narrow (h : Spread role context 0 before after hand free owner) :
    Spread role none 0 before after hand free owner where
  there := by simp
  size_le := h.size_le
  inHand := by
    refine fun slot hslot => Or.inr ((h.inHand slot hslot).resolve_left fun hcontext => ?_)
    exact List.count_eq_zero.mp (Nat.le_zero.mp (h.limited slot hcontext)) hslot
  once := h.once
  limited := by simp
  unused := h.unused
  inSlot := h.inSlot

/-- Op-lines in hand are dropped. -/
theorem drop (h : Spread role context limit before after hand free owner) :
    Spread role context 0 before after [] [] owner :=
  ⟨h.there, h.size_le, by simp, by simp, by simp, by simp, h.inSlot⟩

/-- Op-lines in hand are rearranged. -/
theorem perm (h : Spread role context limit before after hand free owner)
    (hperm : more.Perm hand) : Spread role context limit before after more free owner where
  there := h.there
  size_le := h.size_le
  inHand := fun slot hslot => h.inHand slot (hperm.mem_iff.mp hslot)
  once := fun slot hslot => by rw [hperm.count_eq]; exact h.once slot hslot
  limited := fun slot hslot => by rw [hperm.count_eq]; exact h.limited slot hslot
  unused := fun slot hslot => by rw [hperm.mem_iff]; exact h.unused slot hslot
  inSlot := h.inSlot

/-- Without a context no slot is in hand twice. -/
theorem nodup (h : Spread role none limit before after hand free owner) : hand.Nodup := by
  refine List.nodup_iff_count_le_one.mpr fun slot => ?_
  by_cases hmem : slot ∈ hand
  · exact h.once slot ((h.inHand slot hmem).resolve_left (by simp)).1
  · rw [List.count_eq_zero.mpr hmem]
    exact Nat.zero_le 1

/-- The op-lines in hand are stored in a record, and their slots are turned over to its slot. -/
theorem store (record : ParamRecord)
    (h : Spread role none limit before after (lineNames role record.ops) free owner)
    {target : SlotId} (htarget : target.index < before.heap.size) :
    Spread role (some target) 0 before (after.written target (.push (.param record))) [] []
      fun slot => some ((owner slot).getD target) := by
  have hsize : (after.written target (.push (.param record))).heap.size = after.heap.size :=
    size_modify _ _ _
  have hthere : target.index < after.heap.size := Nat.lt_of_lt_of_le htarget h.size_le
  have hadded : ∀ slot, before.heap.Added (after.written target (.push (.param record))).heap slot ↔
      before.heap.Added after.heap slot := fun slot => by unfold Added; rw [hsize]
  have hperm := @listNames_lineBodies_perm role record.ops
  have hnew : ∀ name ∈ listNames role (Value.param record).sequences,
      before.heap.Added after.heap name ∧ owner name = none := fun name hname =>
    (h.inHand name (hperm.mem_iff.mp hname)).resolve_left (by simp)
  refine ⟨by simpa using htarget, by rw [hsize]; exact h.size_le, by simp, by simp, by simp,
    by simp, fun slot => ?_⟩
  simp only [hadded]
  obtain ⟨lists, hstored, hnodup, hlists⟩ := h.inSlot slot
  have hkept : ∀ name ∈ listNames role lists, before.heap.Added after.heap name ∧
      some ((owner name).getD target) = some slot := by
    intro name hname
    obtain ⟨hname, howner⟩ := hlists name hname
    exact ⟨hname, by rw [howner, Option.getD_some]⟩
  by_cases hslot : target = slot
  · subst hslot
    have hturned : ∀ name ∈ listNames role (Value.param record).sequences,
        before.heap.Added after.heap name ∧ some ((owner name).getD target) = some target := by
      intro name hname
      obtain ⟨hname, howner⟩ := hnew name hname
      exact ⟨hname, by rw [howner, Option.getD_none]⟩
    have hrecord : (listNames role (Value.param record).sequences).Nodup :=
      hperm.nodup_iff.mpr h.nodup
    rcases hstored.trans (.push after record hthere) with hall | hall
    · exact ⟨_, hall, hrecord, hturned⟩
    · refine ⟨_, hall, ?_, ?_⟩
      · rw [listNames_append]
        refine hnodup.append hrecord fun name hname hname' => ?_
        -- What was stored before has an owner, and what is in hand has none.
        have howner := (hlists name hname).2
        rw [(hnew name hname').2] at howner
        cases howner
      · rw [listNames_append, List.forall_mem_append]
        exact ⟨hkept, hturned⟩
  · exact ⟨lists, hstored.written_of_ne hslot _, hnodup, hkept⟩

end Spread

/-- The slots with a role in the op-lines that were made have owners, or none, as in `Spread`. -/
def Spreads (role : Op → List SlotId) (context : Option SlotId) (limit : Nat)
    (before after : CompileState) (hand free : List SlotId) : Prop :=
  ∃ owner, Spread role context limit before after hand free owner

namespace Spreads

variable {role : Op → List SlotId} {context : Option SlotId} {limit limit' : Nat}
  {before between after : CompileState} {hand more free rest : List SlotId} {slot : SlotId}

/-- The context was there before anything was made. -/
theorem there (h : Spreads role context limit before after hand free) :
    ∀ slot ∈ context, slot.index < before.heap.size :=
  h.elim fun _ hspread => hspread.there

/-- What is made only adds slots. -/
theorem size_le (h : Spreads role context limit before after hand free) :
    before.heap.size ≤ after.heap.size :=
  h.elim fun _ hspread => hspread.size_le

/-- Nothing has been done. -/
theorem start {state : CompileState} (there : ∀ slot ∈ context, slot.index < state.heap.size) :
    Spreads role context 0 state state [] [] :=
  ⟨_, (Spread.still rfl fun _ => Or.inr rfl).widen there⟩

/-- The context may have the role more often than it has. -/
theorem mono (h : Spreads role context limit before after hand free) (hle : limit ≤ limit') :
    Spreads role context limit' before after hand free := by
  obtain ⟨owner, h⟩ := h
  exact ⟨owner, { h with limited := fun slot hslot => (h.limited slot hslot).trans hle }⟩

/-- Where the context does not have the role, there might as well be none. -/
theorem narrow (h : Spreads role context 0 before after hand free) :
    Spreads role none 0 before after hand free :=
  h.elim fun _ hspread => ⟨_, hspread.narrow⟩

/-- Free slots need not be remembered. -/
theorem forget (h : Spreads role context limit before after hand free) (hrest : rest ⊆ free) :
    Spreads role context limit before after hand rest := by
  obtain ⟨owner, h⟩ := h
  exact ⟨owner, { h with unused := fun slot hslot => h.unused slot (hrest hslot) }⟩

/-- Op-lines need not be kept. -/
theorem drop (h : Spreads role context limit before after hand free) :
    Spreads role context 0 before after [] [] :=
  h.elim fun _ hspread => ⟨_, hspread.drop⟩

/-- The order of the slots in hand does not matter. -/
theorem perm (h : Spreads role context limit before after hand free) (hperm : more.Perm hand) :
    Spreads role context limit before after more free :=
  h.elim fun _ hspread => ⟨_, hspread.perm hperm⟩

/-- The op-lines in hand are stored in a record. -/
theorem store (record : ParamRecord)
    (h : Spreads role none limit before after (lineNames role record.ops) free)
    (hslot : slot.index < before.heap.size) :
    Spreads role (some slot) 0 before (after.written slot (.push (.param record))) [] [] :=
  h.elim fun _ hspread => ⟨_, hspread.store record hslot⟩

/-- One stretch and then another without a context. -/
theorem behind (h : Spreads role context limit before between hand free)
    (h' : Spreads role none limit' between after more rest) :
    Spreads role context limit before after (hand ++ more) (free ++ rest) := by
  obtain ⟨owner, h⟩ := h
  obtain ⟨owner', h'⟩ := h'
  refine ⟨_, h.trans h' (by simp) (Nat.le_refl _) fun slot hslot => ?_⟩
  exact (List.mem_append.mp hslot).imp_left fun hmem => ⟨hmem, by simp⟩

/-- One stretch and then another in the same context. -/
theorem again (h : Spreads role context limit before between hand free)
    (h' : Spreads role context limit' between after more []) :
    Spreads role context (limit + limit') before after (hand ++ more) [] := by
  obtain ⟨owner, h⟩ := h
  obtain ⟨owner', h'⟩ := h'
  exact ⟨_, h.trans h' (fun slot hslot => Or.inl ⟨hslot, Nat.le_refl _⟩) (Nat.le_add_right _ _)
    (List.forall_mem_nil _)⟩

/-- One stretch and then another that has a free slot for its context. -/
theorem into (h : Spreads role context limit before between hand free)
    (h' : Spreads role (some slot) limit' between after more []) (hlimit : limit' ≤ 1)
    (hslot : slot ∈ free) (hrest : ∀ other ∈ rest, other ∈ free ∧ other ≠ slot) :
    Spreads role context limit before after (hand ++ more) rest := by
  obtain ⟨owner, h⟩ := h
  obtain ⟨owner', h'⟩ := h'
  refine ⟨_, h.trans h' ?_ (Nat.le_refl _) fun other hother => ?_⟩
  · rintro _ ⟨rfl⟩
    exact Or.inr ⟨hslot, hlimit⟩
  · obtain ⟨hmem, hne⟩ := hrest other hother
    exact Or.inl ⟨hmem, fun heq => hne (Option.some.inj heq).symm⟩

/-- A step that adds no slot and stores no op-lines. -/
theorem quiet (h : Spreads role context limit before between hand free)
    (hsize : after.heap.size = between.heap.size)
    (hheld : ∀ slot, after.heap.sequencesOf slot = [] ∨
      after.heap.sequencesOf slot = between.heap.sequencesOf slot) :
    Spreads role context limit before after hand free := by
  simpa using h.behind ⟨_, Spread.still hsize hheld⟩

/-- An event gives no slot a role. -/
theorem noted (h : Spreads role context limit before between hand free) (event : Event) :
    Spreads role context limit before (between.noted event) hand free :=
  h.quiet rfl fun _ => Or.inr rfl

/-- Reporting misplaced nodes gives no slot a role. -/
theorem notedMisplaced (h : Spreads role context limit before between hand free)
    (kinds : List NodeKind) :
    Spreads role context limit before (between.notedMisplaced kinds) hand free :=
  h.quiet (by simp) (by simp)

/-- Handing out a handle gives no slot a role. -/
theorem advanced (h : Spreads role context limit before between hand free) :
    Spreads role context limit before between.advanced hand free :=
  h.quiet rfl fun _ => Or.inr rfl

/-- A slot is written with something that has the op-lines that it held, or none. -/
theorem written (h : Spreads role context limit before between hand free) (target : SlotId)
    {change : Cell → Cell} (hchange : ∀ cell, (change cell).value.sequences = [] ∨
      (change cell).value.sequences = cell.value.sequences) :
    Spreads role context limit before (between.written target change) hand free := by
  refine h.quiet (size_modify _ _ _) fun slot => ?_
  rw [CompileState.written_heap, sequencesOf, get_modify]
  split
  · exact hchange _
  · exact Or.inr rfl

/-- A slot without op-lines is added, and is free. -/
theorem added (h : Spreads role context limit before between hand free) {cell : Cell}
    (hcell : cell.value.sequences = []) :
    Spreads role context limit before (between.added cell) hand (free ++ [between.heap.next]) := by
  simpa using h.behind ⟨_, Spread.added between hcell⟩

/-- An empty slot is one more free slot. -/
theorem added_empty (h : Spreads role context limit before between hand free) :
    Spreads role context limit before (between.added {}) hand (free ++ [between.heap.next]) :=
  h.added (by simp [Value.sequences])

/-- A free slot is used. -/
theorem take (h : Spreads role context limit before after hand free) (hslot : slot ∈ free)
    (hrest : ∀ other ∈ rest, other ∈ free ∧ other ≠ slot) :
    Spreads role context limit before after (hand ++ [slot]) rest := by
  have hlt : slot.index < after.heap.size := by
    obtain ⟨owner, hspread⟩ := h
    exact (hspread.unused slot hslot).1.2
  exact h.into ⟨_, Spread.single after hlt⟩ (Nat.le_refl 1) hslot hrest

/-- Free slots are used one after another. -/
theorem takeAll (h : Spreads role context limit before after hand free) {slots : List SlotId}
    (hslots : slots ⊆ free) (hnodup : slots.Nodup)
    (hrest : ∀ other ∈ rest, other ∈ free ∧ other ∉ slots) :
    Spreads role context limit before after (hand ++ slots) rest := by
  -- Slots are taken one at a time; that they are different keeps the others free.
  induction slots generalizing hand free with
  | nil => simpa using h.forget fun other hother => (hrest other hother).1
  | cons slot slots ih =>
    obtain ⟨hnot, hnodup⟩ := List.nodup_cons.mp hnodup
    obtain ⟨hslot, hslots⟩ := List.cons_subset.mp hslots
    have htaken : Spreads role context limit before after (hand ++ [slot])
        (free.filter (· ≠ slot)) :=
      h.take hslot fun other hother => by simpa using hother
    have hall := ih htaken
      (fun other hother => by
        have hne : other ≠ slot := fun heq => hnot (heq ▸ hother)
        simpa [hne] using hslots hother)
      hnodup
      (fun other hother => by
        obtain ⟨hfree, hnot⟩ := hrest other hother
        simp only [List.mem_cons, not_or] at hnot
        simpa [hnot.1, hnot.2] using hfree)
    simpa using hall

/-- Free slots are there. -/
theorem lt_size_of_free (h : Spreads role context limit before after hand free)
    (hslot : slot ∈ free) : slot.index < after.heap.size :=
  h.elim fun _ hspread => (hspread.unused slot hslot).1.2

/-- The context is used once more. -/
theorem take_context (h : Spreads role (some slot) limit before after hand free) :
    Spreads role (some slot) (limit + 1) before after (hand ++ [slot]) [] :=
  h.again ⟨_, Spread.single after (Nat.lt_of_lt_of_le (h.there slot rfl) h.size_le)⟩

end Spreads

/-! ## Positions of what a call has made -/

namespace Position

/-- The number of the list that a position is in. -/
def list : Position → Nat
  | .returned list _ | .stored _ list _ => list

/-- The place of a position in its list. -/
def line : Position → Nat
  | .returned _ line | .stored _ _ line => line

/-- A position is given by its owner, its list and its place there. -/
theorem eq_of_parts {position position' : Position} (howner : position.owner = position'.owner)
    (hlist : position.list = position'.list) (hline : position.line = position'.line) :
    position = position' := by
  cases position <;> cases position' <;> simp_all [owner, list, line]

end Position

namespace Call

variable {role : Op → List SlotId} {call : Call} {limit : Nat} {free : List SlotId}
  {owner : SlotId → Option SlotId} {position position' : Position} {line line' : OpLine}
  {name : SlotId}

/-- A slot with a role in something that a call has made was added. -/
theorem added_of_role
    (h : Spread role none limit call.before call.after (listNames role call.returned) free owner)
    (hmakes : call.Makes position line) (hname : name ∈ role line.op) :
    call.before.heap.Added call.after.heap name := by
  cases hmakes with
  | returned hi hj =>
    exact ((h.inHand name (mem_listNames hi hj hname)).resolve_left (by simp)).1
  | @stored slot i _ lines _ hi hnew hj =>
    obtain ⟨lists, hstored, -, hlists⟩ := h.inSlot slot
    obtain ⟨offset, hoffset⟩ := hstored.exists_offset
    exact (hlists name (mem_listNames (hoffset i lines hi hnew).2 hj hname)).1

/-- An op-line that a call has made has no slot in the role twice. -/
theorem nodup_of_role
    (h : Spread role none limit call.before call.after (listNames role call.returned) free owner)
    (hmakes : call.Makes position line) : (role line.op).Nodup := by
  cases hmakes with
  | returned hi hj => exact nodup_of_names h.nodup hi hj
  | @stored slot i _ lines _ hi hnew hj =>
    obtain ⟨lists, hstored, hnodup, -⟩ := h.inSlot slot
    obtain ⟨offset, hoffset⟩ := hstored.exists_offset
    exact nodup_of_names hnodup (hoffset i lines hi hnew).2 hj

/-- A slot has the role at one position at most in what a call has made. -/
theorem position_eq_of_role
    (h : Spread role none limit call.before call.after (listNames role call.returned) free owner)
    (hmakes : call.Makes position line) (hmakes' : call.Makes position' line')
    (hname : name ∈ role line.op) (hname' : name ∈ role line'.op) : position = position' := by
  choose lists hstored hnodup hlists using h.inSlot
  choose offset hoffset using fun slot => (hstored slot).exists_offset
  let placed (place : Option SlotId) : List (List OpLine) := place.elim call.returned lists
  have howners : ∀ place, (listNames role (placed place)).Nodup ∧
      ∀ name ∈ listNames role (placed place), owner name = place := by
    rintro (_ | slot)
    · exact ⟨h.nodup, fun name hname => ((h.inHand name hname).resolve_left (by simp)).2⟩
    · exact ⟨hnodup slot, fun name hname => (hlists slot name hname).2⟩
  -- Every position is one of these, behind what its slot held before.
  have hplaced : ∀ {position line}, call.Makes position line → ∃ i lines,
      (placed position.owner)[i]? = some lines ∧ lines[position.line]? = some line ∧
        position.list = i + position.owner.elim 0 offset := by
    intro position line hmakes
    cases hmakes with
    | returned hi hj => exact ⟨_, _, hi, hj, rfl⟩
    | @stored slot i _ lines _ hi hnew hj =>
      obtain ⟨hle, hi⟩ := hoffset slot i lines hi hnew
      exact ⟨_, _, hi, hj, (Nat.sub_add_cancel hle).symm⟩
  obtain ⟨i, lines, hi, hj, hlist⟩ := hplaced hmakes
  obtain ⟨i', lines', hi', hj', hlist'⟩ := hplaced hmakes'
  obtain ⟨howner, rfl, hline⟩ := place_eq_of_owners howners hi hj hi' hj' hname hname'
  exact Position.eq_of_parts howner (by rw [hlist, hlist', howner]) hline

end Call

/-! ## Positions in a program -/

/-- The op-line at a position of a program: in the list itself, in a function inside it, or in a
record that can be found from it. -/
inductive OpLineAt (heap : Heap) (lines : List OpLine) : Position → OpLine → Prop where
  | returned {i j : Nat} {list : List OpLine} {line : OpLine} :
      (lines :: lineBodies lines)[i]? = some list → list[j]? = some line →
        OpLineAt heap lines (.returned i j) line
  | stored {slot : SlotId} {i j : Nat} {list : List OpLine} {line : OpLine} :
      slot ∈ ReachableSlots heap lines → (heap.sequencesOf slot)[i]? = some list →
        list[j]? = some line → OpLineAt heap lines (.stored slot i j) line

namespace Spread

variable {role : Op → List SlotId} {limit : Nat} {before after : CompileState}
  {free : List SlotId} {owner : SlotId → Option SlotId} {lines : List OpLine}

/-- What an added slot holds was all stored on the way. -/
theorem names_sequencesOf {hand : List SlotId}
    (h : Spread role none limit before after hand free owner) {slot : SlotId}
    (hslot : before.heap.Added after.heap slot) :
    (listNames role (after.heap.sequencesOf slot)).Nodup ∧
      ∀ name ∈ listNames role (after.heap.sequencesOf slot), owner name = some slot := by
  obtain ⟨lists, hstored, hnodup, hlists⟩ := h.inSlot slot
  have hbefore : before.heap.sequencesOf slot = [] := by
    rw [sequencesOf, get_of_size_le hslot.1]
    simp [Value.sequences]
  have hafter : after.heap.sequencesOf slot = lists := by
    rcases hstored with hstored | hstored
    · exact hstored
    · rw [hstored, hbefore, List.nil_append]
  rw [hafter]
  exact ⟨hnodup, fun name hname => (hlists name hname).2⟩

/-- The owner of a slot with the role in an op-line of a program is where the op-line stands. -/
theorem owner_eq (h : Spread role none limit before after (lineNames role lines) free owner)
    (hadds : Adds none before.heap (lineSlots lines) after.heap) {position : Position}
    {line : OpLine} (hat : OpLineAt after.heap lines position line) {name : SlotId}
    (hname : name ∈ role line.op) : owner name = position.owner := by
  cases hat with
  | returned hi hj =>
    have hhand := (listNames_lineBodies_perm lines).mem_iff.mp (mem_listNames hi hj hname)
    exact ((h.inHand name hhand).resolve_left (by simp)).2
  | stored hslot hi hj =>
    have hadded := hadds.reachable (fun _ _ => rfl) hslot
    exact (h.names_sequencesOf hadded).2 name (mem_listNames hi hj hname)

/-- In what is compiled without a context, a slot has the role at one position at most. -/
theorem position_eq (h : Spread role none limit before after (lineNames role lines) free owner)
    (hadds : Adds none before.heap (lineSlots lines) after.heap) {position position' : Position}
    {line line' : OpLine} (hat : OpLineAt after.heap lines position line)
    (hat' : OpLineAt after.heap lines position' line') {name : SlotId}
    (hname : name ∈ role line.op) (hname' : name ∈ role line'.op) : position = position' := by
  -- The two positions are in the same slot or both in none.
  have howner : position.owner = position'.owner := by
    rw [← h.owner_eq hadds hat hname, ← h.owner_eq hadds hat' hname']
  cases hat with
  | returned hi hj =>
    cases hat' with
    | returned hi' hj' =>
      have hnodup := (listNames_lineBodies_perm lines).nodup_iff.mpr h.nodup
      obtain ⟨rfl, rfl⟩ := position_eq_of_names hnodup hi hj hi' hj' hname hname'
      rfl
    | stored _ _ _ => cases howner
  | @stored slot i j list _ hslot hi hj =>
    cases hat' with
    | returned _ _ => cases howner
    | @stored slot' i' j' list' _ hslot' hi' hj' =>
      obtain rfl : slot = slot' := Option.some.inj howner
      have hnodup := (h.names_sequencesOf (hadds.reachable (fun _ _ => rfl) hslot)).1
      obtain ⟨rfl, rfl⟩ := position_eq_of_names hnodup hi hj hi' hj' hname hname'
      rfl

end Spread

end Lowering
