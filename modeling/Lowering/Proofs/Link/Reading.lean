import Mathlib.Data.Finset.Card
import Mathlib.Data.Finset.Range
import Lowering.Proofs.Link.Identity

/-!
# Places by first appearance

`Image.reading` reads an image from its start and lists the places in the order in which they are
first met. It knows the image alone: the op-lines one after another, and behind the first occurrence
of a place at once what the entry there names. A place that has been met is not followed again, so
the reading of an image ends whatever the table holds, and an image from anywhere has one.

Linking gives places by the same walk over the heap (`Heap.order`). The two walks keep step: what an
entry of the image names are the places of what the slot names, and no two slots share a place. The
reading of a linked image therefore lists the places in their own order, without gaps and up to the
end of the table (`link_numbers_by_appearance`).
-/

namespace Lowering

namespace Image

/-- The places that the entry at a place names. -/
def refsAt (image : Image) (ref : SlotRef) : List SlotRef :=
  ((image.slot? ref).map fun entry => entry.value.refs).getD []

/-- The indices of the table that no place among some has. -/
def unread (image : Image) (seen : List SlotRef) : Finset Nat :=
  (Finset.range image.slots.length).filter fun i => ∀ ref ∈ seen, ref.number.toNat ≠ i

variable {image : Image} {seen : List SlotRef} {ref : SlotRef}

/-- Behind the end of the table no place names others. -/
theorem refsAt_of_length_le (h : image.slots.length ≤ ref.number.toNat) :
    image.refsAt ref = [] := by
  simp [refsAt, slot?, List.getElem?_eq_none h]

/-- Fewer indices are unread once another place has been read. -/
theorem unread_append_subset : image.unread (seen ++ [ref]) ⊆ image.unread seen := by
  intro i hi
  unfold unread at hi ⊢
  rw [Finset.mem_filter] at hi ⊢
  exact ⟨hi.1, fun other hother => hi.2 other (List.mem_append_left [ref] hother)⟩

/-- Reading a place of the table for the first time leaves one less to read. -/
theorem card_unread_append_lt (hnew : ref ∉ seen) (hlt : ref.number.toNat < image.slots.length) :
    (image.unread (seen ++ [ref])).card < (image.unread seen).card := by
  refine Finset.card_lt_card
    ((Finset.ssubset_iff_of_subset unread_append_subset).mpr ⟨ref.number.toNat, ?_, ?_⟩)
  · unfold unread
    rw [Finset.mem_filter, Finset.mem_range]
    refine ⟨hlt, fun other hother heq => hnew ?_⟩
    -- A place is the word of its index.
    obtain rfl : other = ref := by
      cases other
      cases ref
      exact congrArg SlotRef.mk (UInt32.toNat_inj.mp heq)
    exact hother
  · simp [unread]

/-- The places met once those in hand have been read, given those met before: behind the first
occurrence of a place comes what its entry names. -/
def readOn (image : Image) (seen : List SlotRef) : List SlotRef → List SlotRef
  | [] => seen
  | ref :: rest =>
    if ref ∈ seen then image.readOn seen rest
    else image.readOn (seen ++ [ref]) (image.refsAt ref ++ rest)
termination_by pending => ((image.unread seen).card, pending.length)
decreasing_by
  · exact Prod.Lex.right _ (Nat.lt_succ_self _)
  · by_cases hlt : ref.number.toNat < image.slots.length
    · exact Prod.Lex.left _ _ (card_unread_append_lt ‹_› hlt)
    · -- A place outside the table has no entry to read.
      have hle := Finset.card_le_card (@unread_append_subset image seen ref)
      rw [refsAt_of_length_le (Nat.le_of_not_lt hlt), List.nil_append]
      rcases Nat.lt_or_eq_of_le hle with hless | heq
      · exact Prod.Lex.left _ _ hless
      · rw [heq]
        exact Prod.Lex.right _ (Nat.lt_succ_self _)

/-- The places of an image in the order in which they are first met. -/
def reading (image : Image) : List SlotRef :=
  image.readOn [] (linkedRefs image.ops)

end Image

/-! ## The walk over the heap -/

namespace Heap

variable {heap : Heap} {closed : Set SlotId}

/-- A visit that starts among slots that name only each other stays among them. -/
theorem visit_subset (hclosed : ∀ slot ∈ closed, ∀ next ∈ heap.slotsOf slot, next ∈ closed) :
    ∀ (depth : Nat) (met : List SlotId) (slot : SlotId), (∀ other ∈ met, other ∈ closed) →
      slot ∈ closed → ∀ other ∈ heap.visit depth met slot, other ∈ closed
  | 0, met, slot, hmet, hslot => by
    unfold visit
    split
    · exact hmet
    · exact List.forall_mem_append.mpr ⟨hmet, by simpa using hslot⟩
  | depth + 1, met, slot, hmet, hslot => by
    unfold visit
    split
    · exact hmet
    · have hstart : ∀ other ∈ met ++ [slot], other ∈ closed :=
        List.forall_mem_append.mpr ⟨hmet, by simpa using hslot⟩
      have hnext := hclosed slot hslot
      -- The inner induction runs over the slots that the content names, whatever has been met by
      -- then.
      generalize met ++ [slot] = met' at hstart ⊢
      generalize heap.slotsOf slot = nexts at hnext ⊢
      induction nexts generalizing met' with
      | nil => exact hstart
      | cons next rest ih =>
        obtain ⟨hfirst, hrest⟩ := List.forall_mem_cons.mp hnext
        exact ih _ (visit_subset hclosed depth met' next hstart hfirst) hrest

end Heap

/-! ## The two walks keep step -/

/-- An image shows some slots of a heap under given places: different slots have different places,
what the entry at a place names are the places of what the slot names, and that is shown as well. -/
structure Image.Shows (image : Image) (heap : Heap) (shown : Set SlotId)
    (place : SlotId → SlotRef) : Prop where
  injective : Set.InjOn place shown
  entries : ∀ slot ∈ shown, image.refsAt (place slot) = (heap.slotsOf slot).map place
  closed : ∀ slot ∈ shown, ∀ next ∈ heap.slotsOf slot, next ∈ shown

namespace Image.Shows

variable {image : Image} {heap : Heap} {shown : Set SlotId} {place : SlotId → SlotRef}

/-- A place has been met exactly if its slot has. -/
theorem mem_map_iff (h : image.Shows heap shown place) {met : List SlotId} {slot : SlotId}
    (hmet : ∀ other ∈ met, other ∈ shown) (hslot : slot ∈ shown) :
    place slot ∈ met.map place ↔ slot ∈ met := by
  constructor
  · intro hmem
    obtain ⟨other, hother, heq⟩ := List.mem_map.mp hmem
    obtain rfl : other = slot := h.injective (hmet other hother) hslot heq
    exact hother
  · exact List.mem_map_of_mem

/-- Where reading the place of a slot is a visit of the slot, reading places one after another is a
visit of one slot after another. -/
theorem readOn_foldl (h : image.Shows heap shown place) {depth : Nat} {met : List SlotId}
    (hstep : ∀ met' slot rest, met ⊆ met' → (∀ other ∈ met', other ∈ shown) → slot ∈ shown →
      image.readOn (met'.map place) (place slot :: rest) =
        image.readOn ((heap.visit depth met' slot).map place) rest)
    (hmet : ∀ other ∈ met, other ∈ shown) {roots : List SlotId}
    (hroots : ∀ root ∈ roots, root ∈ shown) (rest : List SlotRef) :
    image.readOn (met.map place) (roots.map place ++ rest) =
      image.readOn ((roots.foldl (heap.visit depth) met).map place) rest := by
  induction roots generalizing met with
  | nil => rfl
  | cons root roots ih =>
    obtain ⟨hroot, hroots⟩ := List.forall_mem_cons.mp hroots
    rw [List.map_cons, List.cons_append, hstep met root _ (List.Subset.refl met) hmet hroot,
      List.foldl_cons]
    refine ih (fun met' slot rest' hsub => hstep met' slot rest' ?_) ?_ hroots
    · exact List.Subset.trans (Heap.subset_visit heap depth met root) hsub
    · exact Heap.visit_subset h.closed depth met root hmet hroot

/-- Reading the place of a slot is a visit of the slot, as long as the depth of the visit is more
than the number of slots left to meet. -/
theorem readOn_visit (h : image.Shows heap shown place) {depth : Nat} {met : List SlotId}
    (hdepth : heap.unmet met < depth) (hmet : ∀ other ∈ met, other ∈ shown) {slot : SlotId}
    (hslot : slot ∈ shown) (rest : List SlotRef) :
    image.readOn (met.map place) (place slot :: rest) =
      image.readOn ((heap.visit depth met slot).map place) rest := by
  induction depth generalizing met slot rest with
  | zero => omega
  | succ depth ih =>
    rw [Image.readOn, Heap.visit]
    simp only [h.mem_map_iff hmet hslot]
    split
    · rfl
    next hnew =>
    have hmap : met.map place ++ [place slot] = (met ++ [slot]).map place := by simp
    rw [h.entries slot hslot, hmap]
    by_cases hthere : slot.index < heap.size
    · -- The slot has been met now, so its content is read at one level less.
      have hless := Heap.unmet_append_lt hnew hthere
      refine h.readOn_foldl (fun met' other rest' hsub hmet' hother => ?_) ?_ (h.closed slot hslot)
        rest
      · have hle : heap.unmet met' ≤ heap.unmet (met ++ [slot]) := Heap.unmet_le_of_subset hsub
        exact ih (by omega) hmet' hother rest'
      · exact List.forall_mem_append.mpr ⟨hmet, by simpa using hslot⟩
    · -- A slot that is not there names nothing.
      rw [Heap.slotsOf, Heap.get_of_size_le (Nat.le_of_not_lt hthere)]
      rfl

end Image.Shows

/-! ## Linked images -/

/-- The indices of the members of a list without repetitions are those of the list. -/
theorem map_idxOf_self {order : List SlotId} (h : order.Nodup) :
    order.map order.idxOf = List.range order.length := by
  refine List.ext_getElem (by simp) fun i hi hi' => ?_
  rw [List.getElem_map, List.getElem_range]
  exact h.idxOf_getElem i _

/-- Slots are numbered by first appearance. Reading a linked image from its start meets the places
of its slot table for the first time in their own order: from the first on, without a gap, and up to
the last entry of the table. -/
theorem link_numbers_by_appearance {heap : Heap} {lines : List OpLine} {image : Image}
    (h : link heap lines = .ok image) (hsmall : image.slots.length < 2 ^ 32) :
    image.reading.map (fun ref => ref.number.toNat) = List.range image.slots.length := by
  have hlinked := link_eq_ok h
  generalize hwalk : heap.order lines = order at hlinked
  obtain ⟨hnodup, horder, hops, hlength, -, hslots, -, -⟩ := hlinked
  replace hslots := hslots hsmall.le
  -- There are fewer slots than words, so the place of a slot is its index in the order.
  have hnumber : ∀ slot ∈ order, (placeIn order slot).number.toNat = order.idxOf slot := by
    intro slot hslot
    have hlt := List.idxOf_lt_length_of_mem hslot
    exact UInt32.toNat_ofNat_of_lt' (by rw [hlength] at hsmall; exact hlt.trans hsmall)
  have hshows : image.Shows heap {slot | slot ∈ order} (placeIn order) := by
    refine ⟨fun slot hslot other hother heq => ?_, fun slot hslot => ?_,
      fun slot hslot next hnext => ?_⟩
    · refine (List.idxOf_inj hslot).mp ?_
      rw [← hnumber slot hslot, ← hnumber other hother, heq]
    · have hentry : image.slot? (placeIn order slot) = some (heap.entry (placeIn order) slot) := by
        rw [Image.slot?, hnumber slot hslot, hslots, List.getElem?_map, List.getElem?_idxOf hslot]
        rfl
      rw [Image.refsAt, hentry]
      exact Value.refs_placed (placeIn order) (heap.get slot).value
    · exact (horder next).mpr (((horder slot).mp hslot).content hnext)
  have hroots : ∀ root ∈ lineSlots lines, root ∈ {slot | slot ∈ order} :=
    fun root hroot => (horder root).mpr (.root hroot)
  have hreading : image.reading = order.map (placeIn order) := by
    have hstep : ∀ met slot rest, [] ⊆ met → (∀ other ∈ met, other ∈ {slot | slot ∈ order}) →
        slot ∈ {slot | slot ∈ order} →
        image.readOn (met.map (placeIn order)) (placeIn order slot :: rest) =
          image.readOn ((heap.visit (heap.size + 1) met slot).map (placeIn order)) rest :=
      fun met slot rest _ hmet hslot => hshows.readOn_visit
        (Nat.lt_succ_of_le (heap.unmet_le_size met)) hmet hslot rest
    have hread := hshows.readOn_foldl hstep (by simp) hroots []
    have hmet : (lineSlots lines).foldl (heap.visit (heap.size + 1)) [] = order := hwalk
    rw [List.append_nil, ← linkedRefs_placedLines _ lines, ← hops, hmet, Image.readOn] at hread
    exact hread
  rw [hreading, List.map_map, hlength, ← map_idxOf_self hnodup]
  exact List.map_congr_left hnumber

/-- Reading an image in which a slot contains itself ends, and meets the two places in their order.
-/
theorem link_numbers_by_appearance_cyclic :
    cyclicImage.reading.map (fun ref => ref.number.toNat) = List.range 2 :=
  link_numbers_by_appearance (show link cyclicHeap cyclicLines = .ok cyclicImage by
    with_unfolding_all rfl) (by decide)

end Lowering
