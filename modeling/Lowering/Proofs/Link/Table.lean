import Lowering.Proofs.Link.Graph

/-!
# Slot tables as they grow

Linking only ever adds slots behind those of its table, and fills in the value of a slot after
everything that it names has been added. `SlotTable.Grown` says so of two tables: every slot behind
the old ones can be found from the roots, and names slots of the new table only.

A value is filled in at a place, which is a word. As long as there are no more slots than words, the
new entries are complete, and those that were there may still lack their value and keep lacking it.
In a larger table a value may end up in the entry of another slot; it is still the linked value of a
slot that can be found, and this is what `Grown` says of all entries.
-/

namespace Lowering

namespace SlotTable

/-- The slots of a table in the order of their places. -/
def keys (table : SlotTable) : List SlotId :=
  table.entries.toList.map Prod.fst

/-- A table in which no slot occurs twice. -/
def Distinct (table : SlotTable) : Prop :=
  table.keys.Nodup

/-- `place` gives each slot of the table its place in the table. -/
def Places (table : SlotTable) (place : SlotId → SlotRef) : Prop :=
  ∀ i slot, table.keys[i]? = some slot → place slot = .ofNat i

/-- The empty table has no slots. -/
@[simp] theorem keys_empty : ({} : SlotTable).keys = [] := rfl

/-- A table has as many slots as its size says. -/
@[simp] theorem length_keys (table : SlotTable) : table.keys.length = table.size := by
  simp [keys, size]

/-- A slot that is registered is the last one of the table. -/
@[simp] theorem keys_register (table : SlotTable) (slot : SlotId) (type : TypeTag) :
    (table.register slot type).keys = table.keys ++ [slot] := by
  simp [keys, register]

/-- A slot that is found stands at its place. -/
theorem getElem?_of_find? {table : SlotTable} {slot : SlotId} {place : Nat}
    (h : table.find? slot = some place) : table.keys[place]? = some slot := by
  obtain ⟨hlt, heq, -⟩ := Array.findIdx?_eq_some_iff_getElem.mp h
  have hslot : table.entries[place].1 = slot := by simpa using heq
  simp [keys, hlt, hslot]

/-- A slot that is not found does not occur. -/
theorem not_mem_of_find? {table : SlotTable} {slot : SlotId} (h : table.find? slot = none) :
    slot ∉ table.keys := by
  intro hmem
  obtain ⟨entry, hentry, hslot⟩ := List.mem_map.mp hmem
  have hno := Array.findIdx?_eq_none_iff.mp h entry (Array.mem_toList_iff.mp hentry)
  simp [hslot] at hno

/-- Filling in a value changes no slot. -/
theorem keys_fill (table : SlotTable) (place : SlotRef) (value : ValueImage) :
    (table.fill place value).keys = table.keys := by
  unfold keys fill
  rw [Array.toList_modify]
  refine List.ext_getElem? fun i => ?_
  rw [List.getElem?_map, List.getElem?_map, List.getElem?_modify]
  rcases table.entries.toList[i]? with _ | ⟨other, entry⟩
  · rfl
  · by_cases h : place.number.toNat = i <;> simp [h]

/-- The entries after one of them has been filled in. -/
theorem toList_fill {table : SlotTable} {before after : List (SlotId × SlotImage)} {slot : SlotId}
    {entry : SlotImage} {place : SlotRef}
    (h : table.entries.toList = before ++ (slot, entry) :: after)
    (hplace : place.number.toNat = before.length) (value : ValueImage) :
    (table.fill place value).entries.toList =
      before ++ (slot, { entry with value := value }) :: after := by
  simp only [fill, Array.toList_modify, h, hplace]
  rw [List.modify_eq_take_cons_drop (by simp)]
  simp

/-- The value of an entry after one of them has been filled in, wherever that is. -/
theorem value_of_mem_slots_fill {table : SlotTable} {place : SlotRef} {value : ValueImage}
    {entry : SlotImage} (h : entry ∈ (table.fill place value).slots) :
    entry.value = value ∨ entry ∈ table.slots := by
  obtain ⟨⟨slot, _⟩, hmem, rfl⟩ := List.mem_map.mp h
  obtain ⟨i, hi⟩ := List.mem_iff_getElem?.mp hmem
  rw [fill, Array.toList_modify, List.getElem?_modify] at hi
  obtain ⟨⟨slot', entry'⟩, hold, hnew⟩ := Option.map_eq_some_iff.mp hi
  split at hnew
  · obtain ⟨-, rfl⟩ := Prod.mk.inj hnew
    exact Or.inl rfl
  · obtain ⟨-, rfl⟩ := Prod.mk.inj hnew
    exact Or.inr (List.mem_map.mpr ⟨_, List.mem_of_getElem? hold, rfl⟩)

/-- A place in a longer table is a place in the shorter one. -/
theorem Places.of_append {table table' : SlotTable} {place : SlotId → SlotRef}
    {added : List SlotId} (hkeys : table'.keys = table.keys ++ added) (h : table'.Places place) :
    table.Places place := by
  intro i slot hi
  refine h i slot ?_
  obtain ⟨hlt, -⟩ := List.getElem?_eq_some_iff.mp hi
  rw [hkeys, List.getElem?_append_left hlt, hi]

/-! ## Growth -/

/-- A slot that a table is complete for: it can be found from the roots, all slots that it names are
in the table, and no list of op-lines inside it has a fault. -/
structure Complete (heap : Heap) (roots : List SlotId) (table : SlotTable) (slot : SlotId) :
    Prop where
  reach : Reach heap roots slot
  closed : heap.slotsOf slot ⊆ table.keys
  sound : ∀ lines ∈ (heap.get slot).value.sequences, ∀ e, ¬ SequenceFault lines e

/-- A value that is that of a slot which can be found from the roots, linked by the places of a
table. -/
def HasSource (heap : Heap) (roots : List SlotId) (table : SlotTable) (value : ValueImage) : Prop :=
  ∃ slot, Reach heap roots slot ∧
    ∀ place, table.Places place → value = (heap.get slot).value.placed place

/-- The second table has the slots of the first and complete ones behind them, among them the roots.
Its values are those that were there and linked ones, and as long as its places are different words,
its entries are those that were there with the linked entries of the new slots behind them. -/
structure Grown (heap : Heap) (roots : List SlotId) (table table' : SlotTable) : Prop where
  subset : roots ⊆ table'.keys
  keys : ∃ added, table'.keys = table.keys ++ added ∧
    ∀ slot ∈ added, Complete heap roots table' slot
  values : ∀ entry ∈ table'.slots, entry.value = .null ∨
    (∃ old ∈ table.slots, entry.value = old.value) ∨ HasSource heap roots table' entry.value
  entries : table'.size ≤ 2 ^ 32 → ∃ added,
    table'.entries.toList = table.entries.toList ++ added ∧
      ∀ entry ∈ added, ∀ place, table'.Places place → entry.2 = heap.entry place entry.1

variable {heap : Heap} {roots roots' : List SlotId} {table table' table'' : SlotTable}

/-- The slots of a table that has grown. -/
theorem Grown.keys_eq (h : Grown heap roots table table') :
    ∃ added, table'.keys = table.keys ++ added :=
  h.keys.imp fun _ hadded => hadded.1

/-- A table that has grown has the slots that it had. -/
theorem Grown.keys_subset (h : Grown heap roots table table') : table.keys ⊆ table'.keys := by
  obtain ⟨added, hadded⟩ := h.keys_eq
  rw [hadded]
  exact List.subset_append_left _ _

/-- A table that has grown is no smaller. -/
theorem Grown.size_le (h : Grown heap roots table table') : table.size ≤ table'.size := by
  obtain ⟨added, hadded⟩ := h.keys_eq
  rw [← length_keys, ← length_keys, hadded, List.length_append]
  exact Nat.le_add_right _ _

/-- The places in a table that has grown are places in the table that it was. -/
theorem Grown.places (h : Grown heap roots table table') {place : SlotId → SlotRef}
    (hplace : table'.Places place) : table.Places place := by
  obtain ⟨added, hadded⟩ := h.keys_eq
  exact hplace.of_append hadded

/-- A complete slot stays complete when the table grows further. -/
theorem Complete.grown {slot : SlotId} (h : Complete heap roots table slot)
    (hroots : roots ⊆ roots') {other : List SlotId} (hgrown : Grown heap other table table') :
    Complete heap roots' table' slot where
  reach := h.reach.mono hroots
  closed := fun _ hslot => hgrown.keys_subset (h.closed hslot)
  sound := h.sound

/-- A value keeps its source when the table grows further. -/
theorem HasSource.grown {value : ValueImage} (h : HasSource heap roots table value)
    (hroots : roots ⊆ roots') {other : List SlotId} (hgrown : Grown heap other table table') :
    HasSource heap roots' table' value := by
  obtain ⟨slot, hreach, hvalue⟩ := h
  exact ⟨slot, hreach.mono hroots, fun place hplace => hvalue place (hgrown.places hplace)⟩

/-- A table that already has all the roots need not grow. -/
theorem Grown.refl (h : roots ⊆ table.keys) : Grown heap roots table table where
  subset := h
  keys := ⟨[], by simp, by simp⟩
  values := fun entry hentry => Or.inr (Or.inl ⟨entry, hentry, rfl⟩)
  entries := fun _ => ⟨[], by simp, by simp⟩

/-- Growth for some roots and then for others. -/
theorem Grown.trans (h : Grown heap roots table table') (h' : Grown heap roots' table' table'') :
    Grown heap (roots ++ roots') table table'' := by
  have hleft : roots ⊆ roots ++ roots' := List.subset_append_left _ _
  have hright : roots' ⊆ roots ++ roots' := List.subset_append_right _ _
  obtain ⟨added, hadded, hcomplete⟩ := h.keys
  obtain ⟨added', hadded', hcomplete'⟩ := h'.keys
  refine ⟨?_, ⟨added ++ added', by rw [hadded', hadded, List.append_assoc], ?_⟩, ?_, fun hsize => ?_⟩
  · exact List.append_subset.mpr ⟨List.Subset.trans h.subset h'.keys_subset, h'.subset⟩
  · intro slot hslot
    rcases List.mem_append.mp hslot with hslot | hslot
    · exact (hcomplete slot hslot).grown hleft h'
    · have hc := hcomplete' slot hslot
      exact ⟨hc.reach.mono hright, hc.closed, hc.sound⟩
  · intro entry hentry
    -- A value that was there after the first step has been there before it or has come by it.
    rcases h'.values entry hentry with hnull | ⟨between, hbetween, hvalue⟩ | ⟨slot, hreach, hvalue⟩
    · exact Or.inl hnull
    · rw [hvalue]
      exact (h.values between hbetween).imp_right (Or.imp_right fun hsource =>
        hsource.grown hleft h')
    · exact Or.inr (Or.inr ⟨slot, hreach.mono hright, hvalue⟩)
  · obtain ⟨entries, hentries, hlinked⟩ := h.entries (h'.size_le.trans hsize)
    obtain ⟨entries', hentries', hlinked'⟩ := h'.entries hsize
    refine ⟨entries ++ entries', by rw [hentries', hentries, List.append_assoc], ?_⟩
    intro entry hentry place hplace
    rcases List.mem_append.mp hentry with hentry | hentry
    · exact hlinked entry hentry place (h'.places hplace)
    · exact hlinked' entry hentry place hplace

/-- Registering a slot, growing for what its content names and filling in its linked value is growth
for the slot. -/
theorem Grown.fill {slot : SlotId} {value : ValueImage}
    (h : Grown heap (heap.slotsOf slot) (table.register slot (heap.get slot).type) table')
    (hsound : ∀ lines ∈ (heap.get slot).value.sequences, ∀ e, ¬ SequenceFault lines e)
    (hvalue : ∀ place, table'.Places place → value = (heap.get slot).value.placed place) :
    Grown heap [slot] table (table'.fill (.ofNat table.size) value) := by
  have hkeys := keys_fill table' (.ofNat table.size) value
  have hsize : (table'.fill (.ofNat table.size) value).size = table'.size := by
    rw [← length_keys, hkeys, length_keys]
  generalize hfilled : table'.fill (.ofNat table.size) value = filled at hkeys hsize ⊢
  have hplaces : ∀ {place}, filled.Places place → table'.Places place := by
    intro place hplace i other hi
    exact hplace i other (by rw [hkeys]; exact hi)
  have hroot : Reach heap [slot] slot := .root (List.mem_singleton_self slot)
  obtain ⟨added, hadded, hcomplete⟩ := h.keys
  rw [keys_register, List.append_assoc, List.singleton_append] at hadded
  refine ⟨?_, ⟨slot :: added, hkeys.trans hadded, ?_⟩, fun entry hentry => ?_, fun hsmall => ?_⟩
  · simp [hkeys, hadded]
  · intro other hother
    rcases List.mem_cons.mp hother with rfl | hother
    · exact ⟨hroot, by rw [hkeys]; exact h.subset, hsound⟩
    · have hc := hcomplete other hother
      exact ⟨hc.reach.of_slotsOf, by rw [hkeys]; exact hc.closed, hc.sound⟩
  · rw [← hfilled] at hentry
    rcases value_of_mem_slots_fill hentry with hnew | hentry
    · exact Or.inr (Or.inr ⟨slot, hroot, fun place hplace =>
        hnew.trans (hvalue place (hplaces hplace))⟩)
    · rcases h.values entry hentry with hnull | ⟨old, hold, hsame⟩ | ⟨other, hreach, hsource⟩
      · exact Or.inl hnull
      · -- The slot itself was registered without a value.
        rcases (by simpa [slots, register] using hold : old ∈ table.slots ∨ old = _) with
          hold | rfl
        · exact Or.inr (Or.inl ⟨old, hold, hsame⟩)
        · exact Or.inl hsame
      · exact Or.inr (Or.inr ⟨other, hreach.of_slotsOf, fun place hplace =>
          hsource place (hplaces hplace)⟩)
  · rw [hsize] at hsmall
    obtain ⟨entries, hentries, hlinked⟩ := h.entries hsmall
    have hregistered : table'.entries.toList =
        table.entries.toList ++ (slot, ⟨.null, (heap.get slot).type⟩) :: entries := by
      simpa [register] using hentries
    -- The slot is in the table, so its place is below the number of words.
    have hlt : table.size < 2 ^ 32 := by
      have hlength := congrArg List.length hadded
      rw [length_keys, List.length_append, length_keys, List.length_cons] at hlength
      omega
    have hplace : (SlotRef.ofNat table.size).number.toNat = table.entries.toList.length := by
      rw [Array.length_toList]
      exact UInt32.toNat_ofNat_of_lt' hlt
    rw [← hfilled] at hplaces ⊢
    refine ⟨_, toList_fill hregistered hplace value, fun entry hentry place hplace => ?_⟩
    rcases List.mem_cons.mp hentry with rfl | hentry
    · rw [hvalue place (hplaces hplace)]
      rfl
    · exact hlinked entry hentry place (hplaces hplace)

end SlotTable

end Lowering
