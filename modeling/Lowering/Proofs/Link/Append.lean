import Lowering.Proofs.Link.Renaming
import Lowering.Proofs.Link.Sequences

/-!
# Programs side by side

Two lists of op-lines over one heap that share neither handles nor slots can be put one behind the
other. `Image.append` is the image of the whole, made from those of the parts alone: the positions
that the second part jumps to move by the op-lines in front of them, and the places of its slots by
the slots in front of them. A body and the op-lines of a record count their positions from their own
beginning, so only the jumps at the top level move, while places move at every depth.

The proof (`link_append`) compares the closed forms of the three images. The slots of the second
part are met behind those of the first, in the order in which they are met by themselves, because
the walk never comes from the one part to the other.
-/

namespace Lowering

/-! ## Images one behind the other -/

/-- A place moved by a number of slots. -/
def SlotRef.shift (count : Nat) (ref : SlotRef) : SlotRef :=
  .ofNat (count + ref.number.toNat)

mutual

/-- An op-line with all places replaced, those of a body included. Positions stay. -/
def LinkedOp.mapRefs (f : SlotRef → SlotRef) : LinkedOp → LinkedOp
  | .unary kind op1 result => .unary kind (f op1) (f result)
  | .binary kind op1 op2 result => .binary kind (f op1) (f op2) (f result)
  | .functionDef name body params => .functionDef (f name) (mapOpRefs f body) (f params)
  | .jumpTo target => .jumpTo target
  | .jumpIf cond target => .jumpIf (f cond) target
  | .jumpIfNot cond target => .jumpIfNot (f cond) target
  | .noOp => .noOp

/-- Op-lines with all places replaced. -/
def mapOpRefs (f : SlotRef → SlotRef) : List LinkedOp → List LinkedOp
  | [] => []
  | op :: rest => op.mapRefs f :: mapOpRefs f rest

end

/-- A parameter record with all places replaced, those of its op-lines included. -/
def ParamImage.mapRefs (f : SlotRef → SlotRef) (record : ParamImage) : ParamImage :=
  ⟨record.name, f record.default, mapOpRefs f record.ops, record.byRef, record.typeHint⟩

mutual

/-- A value with all places replaced. -/
def ValueImage.mapRefs (f : SlotRef → SlotRef) : ValueImage → ValueImage
  | .null => .null
  | .bool b => .bool b
  | .long n => .long n
  | .double x => .double x
  | .string s => .string s
  | .array items => .array (mapValueRefs f items)
  | .slot ref => .slot (f ref)
  | .param record => .param (record.mapRefs f)

/-- Values with all places replaced. -/
def mapValueRefs (f : SlotRef → SlotRef) : List ValueImage → List ValueImage
  | [] => []
  | value :: rest => value.mapRefs f :: mapValueRefs f rest

end

/-- An entry of the table with all places replaced. -/
def SlotImage.mapRefs (f : SlotRef → SlotRef) (entry : SlotImage) : SlotImage :=
  ⟨entry.value.mapRefs f, entry.type⟩

/-- An op-line with the position that it jumps to moved by a number of op-lines. The jumps of a body
stay. -/
def LinkedOp.retarget (count : Nat) : LinkedOp → LinkedOp
  | .jumpTo target => .jumpTo (.ofNat (count + target.toNat))
  | .jumpIf cond target => .jumpIf cond (.ofNat (count + target.toNat))
  | .jumpIfNot cond target => .jumpIfNot cond (.ofNat (count + target.toNat))
  | op => op

/-- An image behind another. -/
def Image.append (first second : Image) : Image where
  ops := first.ops ++ second.ops.map fun op =>
    (op.mapRefs (.shift first.slots.length)).retarget first.ops.length
  slots := first.slots ++ second.slots.map (.mapRefs (.shift first.slots.length))

/-! ## Linked forms at other places -/

section

variable {place place' : SlotId → SlotRef}

mutual

/-- The linked form of an operation at replaced places. -/
theorem Op.placed_mapRefs (f : SlotRef → SlotRef) (place : SlotId → SlotRef)
    (lines : List OpLine) : ∀ op : Op,
    op.placed (fun slot => f (place slot)) lines = (op.placed place lines).mapRefs f
  | .unary _ _ _ | .binary _ _ _ _ | .jumpTo _ | .jumpIf _ _ | .jumpIfNot _ _ | .noOp => by
    simp [Op.placed, LinkedOp.mapRefs]
  | .functionDef name body params => by
    simp [Op.placed, LinkedOp.mapRefs, placedLines_mapOpRefs f place body body]

/-- The linked forms of op-lines at replaced places. -/
theorem placedLines_mapOpRefs (f : SlotRef → SlotRef) (place : SlotId → SlotRef)
    (lines : List OpLine) : ∀ part : List OpLine,
    placedLines (fun slot => f (place slot)) lines part = mapOpRefs f (placedLines place lines part)
  | [] => by simp [placedLines, mapOpRefs]
  | ⟨_, op⟩ :: rest => by
    simp [mapOpRefs, Op.placed_mapRefs f place lines op, placedLines_mapOpRefs f place lines rest]

end

mutual

/-- The linked form of a value at replaced places. -/
theorem Value.placed_mapRefs (f : SlotRef → SlotRef) (place : SlotId → SlotRef) :
    ∀ value : Value, value.placed (fun slot => f (place slot)) = (value.placed place).mapRefs f
  | .null | .bool _ | .long _ | .double _ | .string _ | .slot _ => by
    simp [Value.placed, ValueImage.mapRefs]
  | .array items => by
    simp [Value.placed, ValueImage.mapRefs, placedValues_mapValueRefs f place items]
  | .param record => by
    simp [Value.placed, ParamRecord.placed, ValueImage.mapRefs, ParamImage.mapRefs,
      placedLines_mapOpRefs]

/-- The linked forms of values at replaced places. -/
theorem placedValues_mapValueRefs (f : SlotRef → SlotRef) (place : SlotId → SlotRef) :
    ∀ values : List Value,
    placedValues (fun slot => f (place slot)) values = mapValueRefs f (placedValues place values)
  | [] => by simp [placedValues, mapValueRefs]
  | value :: rest => by
    simp [placedValues, mapValueRefs, Value.placed_mapRefs f place value,
      placedValues_mapValueRefs f place rest]

end

mutual

/-- The linked form of an operation depends on the places of its own slots only. -/
theorem Op.placed_congr (lines : List OpLine) : ∀ op : Op,
    (∀ slot ∈ op.slots, place slot = place' slot) → op.placed place lines = op.placed place' lines
  | .unary _ _ _, h | .binary _ _ _ _, h | .jumpTo _, h | .jumpIf _ _, h | .jumpIfNot _ _, h
  | .noOp, h => by
    simp only [Op.slots, List.forall_mem_cons] at h
    simp [Op.placed, h]
  | .functionDef name body params, h => by
    simp only [Op.slots, List.forall_mem_cons, List.forall_mem_append] at h
    simp [Op.placed, h.1, h.2.2, placedLines_congr body body h.2.1]

/-- The linked forms of op-lines depend on the places of their own slots only. -/
theorem placedLines_congr (lines : List OpLine) : ∀ part : List OpLine,
    (∀ slot ∈ lineSlots part, place slot = place' slot) →
      placedLines place lines part = placedLines place' lines part
  | [], _ => by simp [placedLines]
  | ⟨_, op⟩ :: rest, h => by
    simp only [lineSlots_cons, List.forall_mem_append] at h
    simp [Op.placed_congr lines op h.1, placedLines_congr lines rest h.2]

end

mutual

/-- The linked form of a value depends on the places of its own slots only. -/
theorem Value.placed_congr : ∀ value : Value,
    (∀ slot ∈ value.slots, place slot = place' slot) → value.placed place = value.placed place'
  | .null, _ | .bool _, _ | .long _, _ | .double _, _ | .string _, _ => by simp [Value.placed]
  | .slot id, h => by
    simp only [Value.slots, List.forall_mem_cons] at h
    simp [Value.placed, h.1]
  | .array items, h => by
    rw [Value.slots] at h
    simp [Value.placed, placedValues_congr items h]
  | .param record, h => by
    simp only [Value.slots, List.forall_mem_cons] at h
    simp [Value.placed, ParamRecord.placed, h.1, placedLines_congr record.ops record.ops h.2]

/-- The linked forms of values depend on the places of their own slots only. -/
theorem placedValues_congr : ∀ values : List Value,
    (∀ slot ∈ valueSlots values, place slot = place' slot) →
      placedValues place values = placedValues place' values
  | [], _ => by simp [placedValues]
  | value :: rest, h => by
    simp only [valueSlots, List.forall_mem_append] at h
    simp [placedValues, Value.placed_congr value h.1, placedValues_congr rest h.2]

end

/-- The entry of a slot depends on the places of the slots that its content names, and on no others.
-/
theorem Heap.entry_congr {heap : Heap} {slot : SlotId}
    (h : ∀ next ∈ heap.slotsOf slot, place next = place' next) :
    heap.entry place slot = heap.entry place' slot := by
  unfold Heap.entry
  rw [Value.placed_congr _ h]

/-- Replacing the places of an entry is linking it under the replaced places. -/
theorem Heap.entry_mapRefs (f : SlotRef → SlotRef) (place : SlotId → SlotRef) (heap : Heap)
    (slot : SlotId) :
    heap.entry (fun slot => f (place slot)) slot = (heap.entry place slot).mapRefs f := by
  unfold Heap.entry SlotImage.mapRefs
  rw [Value.placed_mapRefs]

end

/-! ## Places and positions in a whole -/

section

variable {lines more : List OpLine}

/-- A number is added to a word by adding it to what the word stands for. -/
theorem ofNat_add_toNat_ofNat (count number : Nat) :
    UInt32.ofNat (count + (UInt32.ofNat number).toNat) = UInt32.ofNat (count + number) := by
  rw [UInt32.ofNat_add, UInt32.ofNat_toNat, ← UInt32.ofNat_add]

/-- A slot in the first of two orders has its place there. -/
theorem placeIn_append_of_mem {order order' : List SlotId} {slot : SlotId} (h : slot ∈ order) :
    placeIn (order ++ order') slot = placeIn order slot := by
  unfold placeIn
  rw [List.idxOf_append_of_mem h]

/-- A slot that is only in the second of two orders has its place there, moved by the length of the
first. -/
theorem placeIn_append_of_not_mem {order order' : List SlotId} {slot : SlotId}
    (h : slot ∉ order) :
    placeIn (order ++ order') slot = (placeIn order' slot).shift order.length := by
  unfold placeIn SlotRef.shift SlotRef.ofNat
  rw [List.idxOf_append_of_notMem h, ofNat_add_toNat_ofNat]

/-- The position of a handle is its index among the handles. -/
theorem positionOf_eq_idxOf (lines : List OpLine) (target : OpId) :
    positionOf lines target = (handles lines).idxOf target := by
  unfold positionOf handles List.idxOf
  rw [List.findIdx_map]
  rfl

/-- The handles of op-lines one behind the other. -/
theorem handles_append (lines more : List OpLine) :
    handles (lines ++ more) = handles lines ++ handles more :=
  List.map_append

/-- In front of other op-lines, a jump goes to the position that it goes to by itself. -/
theorem Op.placed_append_left (place : SlotId → SlotRef) {op : Op}
    (h : ∀ target, op.target? = some target → target ∈ handles lines) :
    op.placed place (lines ++ more) = op.placed place lines := by
  have hposition : ∀ target, op.target? = some target →
      positionOf (lines ++ more) target = positionOf lines target := by
    intro target htarget
    rw [positionOf_eq_idxOf, positionOf_eq_idxOf, handles_append,
      List.idxOf_append_of_mem (h target htarget)]
  cases op with
  | jumpTo target | jumpIf _ target | jumpIfNot _ target =>
    rw [Op.placed, Op.placed, hposition target rfl]
  | unary _ _ _ | binary _ _ _ _ | functionDef _ _ _ | noOp => rfl

/-- Behind other op-lines, a jump goes to the position that it goes to by itself, moved by their
number. -/
theorem Op.placed_append_right (place : SlotId → SlotRef) {op : Op}
    (h : ∀ target, op.target? = some target → target ∉ handles lines) :
    op.placed place (lines ++ more) = (op.placed place more).retarget lines.length := by
  have hposition : ∀ target, op.target? = some target →
      positionOf (lines ++ more) target = lines.length + positionOf more target := by
    intro target htarget
    rw [positionOf_eq_idxOf, positionOf_eq_idxOf, handles_append,
      List.idxOf_append_of_notMem (h target htarget)]
    simp [handles]
  cases op with
  | jumpTo target | jumpIf _ target | jumpIfNot _ target =>
    rw [Op.placed, Op.placed, LinkedOp.retarget, hposition target rfl, ofNat_add_toNat_ofNat]
  | unary _ _ _ | binary _ _ _ _ | functionDef _ _ _ | noOp => rfl

/-- The linked forms of op-lines one behind the other are those of the two parts by themselves. In
the second part places are moved by a given number, and the positions at the top level by the length
of the first. -/
theorem placedLines_append {place first second : SlotId → SlotRef} {count : Nat}
    (h : WellFormed lines) (h' : WellFormed more) (hdistinct : (handles (lines ++ more)).Nodup)
    (hfirst : ∀ slot ∈ lineSlots lines, place slot = first slot)
    (hsecond : ∀ slot ∈ lineSlots more, place slot = (second slot).shift count) :
    placedLines place (lines ++ more) (lines ++ more) =
      placedLines first lines lines ++ (placedLines second more more).map fun op =>
        (op.mapRefs (.shift count)).retarget lines.length := by
  have hleft : placedLines place (lines ++ more) lines = placedLines place lines lines := by
    rw [placedLines_eq_map, placedLines_eq_map]
    refine List.map_congr_left fun line hline => ?_
    exact Op.placed_append_left place (h.closed line hline)
  -- A target of the second part has its handle there, so not in the first.
  have hright : placedLines place (lines ++ more) more =
      (placedLines place more more).map (LinkedOp.retarget lines.length) := by
    rw [placedLines_eq_map, placedLines_eq_map, List.map_map]
    refine List.map_congr_left fun line hline => ?_
    refine Op.placed_append_right place fun target htarget hmem => ?_
    rw [handles_append] at hdistinct
    exact List.disjoint_of_nodup_append hdistinct hmem (h'.closed line hline target htarget)
  calc placedLines place (lines ++ more) (lines ++ more)
      = placedLines place (lines ++ more) lines ++ placedLines place (lines ++ more) more := by
        rw [placedLines_eq_map, List.map_append, ← placedLines_eq_map, ← placedLines_eq_map]
    _ = placedLines first lines lines ++
          (placedLines (fun slot => (second slot).shift count) more more).map
            (LinkedOp.retarget lines.length) := by
        rw [hleft, hright, placedLines_congr lines lines hfirst,
          placedLines_congr more more hsecond]
    _ = _ := by
        simp only [placedLines_eq_map, List.map_map]
        simp [Function.comp_def, Op.placed_mapRefs]

end

/-! ## Order -/

/-- Two heaps agree on the slots of which `p` holds: these name the same slots in both, and of those
`p` holds as well. -/
structure Heap.Agrees (heap heap' : Heap) (p : SlotId → Prop) : Prop where
  slotsOf : ∀ slot, p slot → heap'.slotsOf slot = heap.slotsOf slot
  closed : ∀ slot, p slot → ∀ next ∈ heap.slotsOf slot, p next

namespace Heap.Agrees

variable {heap heap' : Heap} {p : SlotId → Prop} {before : List SlotId}

/-- Heaps that have the same cells wherever one comes from given slots agree on what is found from
these. -/
theorem of_reach {roots : List SlotId}
    (h : ∀ slot, Reach heap roots slot → heap'.get slot = heap.get slot) :
    heap.Agrees heap' (Reach heap roots) where
  slotsOf := fun slot hslot => by rw [Heap.slotsOf, Heap.slotsOf, h slot hslot]
  closed := fun _ hslot _ hnext => .content hslot hnext

/-- Two steps of a walk that agree behind slots met before agree over any roots. -/
theorem foldl_of_step {step step' : List SlotId → SlotId → List SlotId}
    (hstep : ∀ met slot, (∀ other ∈ met, p other) → p slot →
      step' (before ++ met) slot = before ++ step met slot ∧ ∀ other ∈ step met slot, p other)
    {roots : List SlotId} (hroots : ∀ slot ∈ roots, p slot) {met : List SlotId}
    (hmet : ∀ slot ∈ met, p slot) :
    roots.foldl step' (before ++ met) = before ++ roots.foldl step met ∧
      ∀ slot ∈ roots.foldl step met, p slot := by
  induction roots generalizing met with
  | nil => exact ⟨rfl, hmet⟩
  | cons slot rest ih =>
    obtain ⟨hfirst, hvisited⟩ := hstep met slot hmet (hroots slot List.mem_cons_self)
    rw [List.foldl_cons, List.foldl_cons, hfirst]
    exact ih (fun other hother => hroots other (List.mem_cons_of_mem _ hother)) hvisited

/-- Behind other slots, a visit of the one heap meets what a visit of the other meets. -/
theorem visit (h : heap.Agrees heap' p) (hbefore : ∀ slot, p slot → slot ∉ before) (depth : Nat)
    (met : List SlotId) (slot : SlotId) (hmet : ∀ other ∈ met, p other) (hslot : p slot) :
    heap'.visit depth (before ++ met) slot = before ++ heap.visit depth met slot ∧
      ∀ other ∈ heap.visit depth met slot, p other := by
  have hmem : slot ∈ before ++ met ↔ slot ∈ met := by
    rw [List.mem_append, or_iff_right (hbefore slot hslot)]
  have hadded : ∀ other ∈ met ++ [slot], p other :=
    List.forall_mem_append.mpr ⟨hmet, by simpa using hslot⟩
  -- The slots that were met before are never asked for, so they only stand in front of what is met.
  induction depth generalizing met slot with
  | zero =>
    unfold Heap.visit
    by_cases hin : slot ∈ met
    · rw [if_pos hin, if_pos (hmem.mpr hin)]
      exact ⟨rfl, hmet⟩
    · rw [if_neg hin, if_neg fun hin' => hin (hmem.mp hin'), List.append_assoc]
      exact ⟨rfl, hadded⟩
  | succ depth ih =>
    unfold Heap.visit
    by_cases hin : slot ∈ met
    · rw [if_pos hin, if_pos (hmem.mpr hin)]
      exact ⟨rfl, hmet⟩
    · rw [if_neg hin, if_neg fun hin' => hin (hmem.mp hin'), h.slotsOf slot hslot,
        List.append_assoc]
      refine foldl_of_step (fun met slot hmet hslot => ?_) (h.closed slot hslot) hadded
      refine ih met slot hmet hslot ?_ ?_
      · rw [List.mem_append, or_iff_right (hbefore slot hslot)]
      · exact List.forall_mem_append.mpr ⟨hmet, by simpa using hslot⟩

/-- Behind other slots, the walk over a program meets the slots of the program in their order. -/
theorem foldl_order (h : heap.Agrees heap' p) (hbefore : ∀ slot, p slot → slot ∉ before)
    {lines : List OpLine} (hlines : ∀ slot ∈ lineSlots lines, p slot) {depth : Nat}
    (hdepth : heap.size < depth) :
    (lineSlots lines).foldl (heap'.visit depth) before = before ++ heap.order lines := by
  obtain ⟨hwalk, -⟩ := foldl_of_step (h.visit hbefore depth) hlines (List.forall_mem_nil p)
  rw [List.append_nil] at hwalk
  rw [hwalk, Heap.order_eq lines hdepth]

/-- A program has one order over the two heaps. -/
theorem order_eq (h : heap.Agrees heap' p) {lines : List OpLine}
    (hlines : ∀ slot ∈ lineSlots lines, p slot) : heap'.order lines = heap.order lines := by
  -- The two heaps may differ in size, so the walks are compared at a depth beyond both.
  have hdepth : heap.size < heap.size + heap'.size + 1 := by omega
  have hdepth' : heap'.size < heap.size + heap'.size + 1 := by omega
  rw [Heap.order_eq lines hdepth', h.foldl_order (by simp) hlines hdepth, List.nil_append]

end Heap.Agrees

/-- The slots of a program are met behind those of another from which none of them is found. -/
theorem Heap.order_append {heap : Heap} {lines more : List OpLine}
    (h : ∀ slot ∈ ReachableSlots heap more, slot ∉ heap.order lines) :
    heap.order (lines ++ more) = heap.order lines ++ heap.order more := by
  have hself : heap.Agrees heap (Reach heap (lineSlots more)) := .of_reach fun _ _ => rfl
  have hwalk := hself.foldl_order h (fun _ hslot => .root hslot) (Nat.lt_succ_self heap.size)
  unfold Heap.order at hwalk ⊢
  rw [lineSlots_append, List.foldl_append, hwalk]

/-! ## Images of wholes -/

section

variable {heap heap' : Heap} {lines more : List OpLine} {first second image image' : Image}

/-- What is found from op-lines one behind the other is found from the one part or the other. -/
theorem mem_reachableSlots_append {slot : SlotId} :
    slot ∈ ReachableSlots heap (lines ++ more) ↔
      slot ∈ ReachableSlots heap lines ∨ slot ∈ ReachableSlots heap more := by
  constructor
  · intro h
    induction h with
    | root hmem =>
      rw [lineSlots_append] at hmem
      exact (List.mem_append.mp hmem).imp .root .root
    | content _ hnext ih => exact ih.imp (.content · hnext) (.content · hnext)
  · rintro (h | h)
    · refine Reach.mono ?_ h
      rw [lineSlots_append]
      exact List.subset_append_left _ _
    · refine Reach.mono ?_ h
      rw [lineSlots_append]
      exact List.subset_append_right _ _

/-- Two parts that are well-formed and share no handle are well-formed together. -/
theorem WellFormed.append (h : WellFormed lines) (h' : WellFormed more)
    (hdistinct : (handles (lines ++ more)).Nodup) : WellFormed (lines ++ more) := by
  refine ⟨hdistinct, fun line hline target htarget => ?_⟩
  rw [handles_append, List.mem_append]
  rcases List.mem_append.mp hline with hline | hline
  · exact Or.inl (h.closed line hline target htarget)
  · exact Or.inr (h'.closed line hline target htarget)

/-- Two programs that can be linked and share no handle can be linked together. -/
theorem exists_image_append (hfirst : link heap lines = .ok first)
    (hsecond : link heap more = .ok second) (hdistinct : (handles (lines ++ more)).Nodup) :
    ∃ image, link heap (lines ++ more) = .ok image := by
  have hlines := link_ok_iff.mp ⟨first, hfirst⟩
  have hmore := link_ok_iff.mp ⟨second, hsecond⟩
  refine link_ok_iff.mpr fun body hbody => ?_
  rcases reachableSequence_iff.mp hbody with hbody | ⟨slot, hslot, hbody⟩
  · rcases List.mem_cons.mp hbody with rfl | hbody
    · exact (hlines lines .program).append (hmore more .program) hdistinct
    · rw [lineBodies_append] at hbody
      rcases List.mem_append.mp hbody with hbody | hbody
      · exact hlines body (reachableSequence_iff.mpr (Or.inl (List.mem_cons_of_mem _ hbody)))
      · exact hmore body (reachableSequence_iff.mpr (Or.inl (List.mem_cons_of_mem _ hbody)))
  · rcases mem_reachableSlots_append.mp hslot with hslot | hslot
    · exact hlines body (reachableSequence_iff.mpr (Or.inr ⟨slot, hslot, hbody⟩))
    · exact hmore body (reachableSequence_iff.mpr (Or.inr ⟨slot, hslot, hbody⟩))

/-- The slots of two programs that share none are those of the one and those of the other. -/
theorem order_append_of_disjoint (hfirst : link heap lines = .ok first)
    (hslots : ∀ slot ∈ ReachableSlots heap more, slot ∉ ReachableSlots heap lines) :
    heap.order (lines ++ more) = heap.order lines ++ heap.order more :=
  Heap.order_append fun slot hslot hin =>
    hslots slot hslot (((link_eq_ok hfirst).mem_iff slot).mp hin)

/-- The image of two programs that share no slots has as many slots as their images. -/
theorem length_slots_append (hfirst : link heap lines = .ok first)
    (hsecond : link heap more = .ok second) (hwhole : link heap (lines ++ more) = .ok image)
    (hslots : ∀ slot ∈ ReachableSlots heap more, slot ∉ ReachableSlots heap lines) :
    image.slots.length = first.slots.length + second.slots.length := by
  rw [(link_eq_ok hwhole).length, order_append_of_disjoint hfirst hslots, List.length_append,
    (link_eq_ok hfirst).length, (link_eq_ok hsecond).length]

/-- Two programs over one heap that share neither handles nor slots, and have no more slots than
words between them: the image of the one behind the other is made from their images. -/
theorem link_append (hfirst : link heap lines = .ok first) (hsecond : link heap more = .ok second)
    (hslots : ∀ slot ∈ ReachableSlots heap more, slot ∉ ReachableSlots heap lines)
    (hdistinct : (handles (lines ++ more)).Nodup)
    (hsmall : first.slots.length + second.slots.length ≤ 2 ^ 32) :
    link heap (lines ++ more) = .ok (first.append second) := by
  obtain ⟨⟨ops, slots⟩, hwhole⟩ := exists_image_append hfirst hsecond hdistinct
  have hlines : WellFormed lines := link_ok_iff.mp ⟨first, hfirst⟩ lines .program
  have hmore : WellFormed more := link_ok_iff.mp ⟨second, hsecond⟩ more .program
  have hlinked := link_eq_ok hfirst
  have hlinked' := link_eq_ok hsecond
  have hlinkedWhole := link_eq_ok hwhole
  have horder := order_append_of_disjoint hfirst hslots
  have hentries := hlinked.slots (by omega)
  have hentries' := hlinked'.slots (by omega)
  have hwholeEntries :=
    hlinkedWhole.slots ((length_slots_append hfirst hsecond hwhole hslots).trans_le hsmall)
  -- The slots of the first part keep their places, and those of the second move.
  have hplace : ∀ slot ∈ ReachableSlots heap lines,
      placeIn (heap.order (lines ++ more)) slot = placeIn (heap.order lines) slot := by
    intro slot hslot
    rw [horder, placeIn_append_of_mem ((hlinked.mem_iff slot).mpr hslot)]
  have hplace' : ∀ slot ∈ ReachableSlots heap more, placeIn (heap.order (lines ++ more)) slot =
      (placeIn (heap.order more) slot).shift (heap.order lines).length := by
    intro slot hslot
    rw [horder, placeIn_append_of_not_mem fun hin =>
      hslots slot hslot ((hlinked.mem_iff slot).mp hin)]
  -- What `Image.append` moves by are the lengths of the first part of the program and of its order.
  have hlength : first.ops.length = lines.length := by
    rw [hlinked.ops, placedLines_eq_map, List.length_map]
  have hopsEq : ops = (first.append second).ops := by
    unfold Image.append
    rw [hlinked.length, hlength, hlinked.ops, hlinked'.ops]
    exact hlinkedWhole.ops.trans (placedLines_append hlines hmore hdistinct
      (fun slot hslot => hplace slot (.root hslot)) fun slot hslot => hplace' slot (.root hslot))
  have hentriesEq : slots = (first.append second).slots := by
    unfold Image.append
    rw [hlinked.length, hentries, hentries', List.map_map]
    refine hwholeEntries.trans ?_
    rw [horder, List.map_append, ← horder]
    congr 1
    · refine List.map_congr_left fun slot hslot => Heap.entry_congr fun next hnext => ?_
      exact hplace next (.content ((hlinked.mem_iff slot).mp hslot) hnext)
    · refine List.map_congr_left fun slot hslot => ?_
      rw [Function.comp_apply, ← Heap.entry_mapRefs]
      refine Heap.entry_congr fun next hnext => ?_
      exact hplace' next (.content ((hlinked'.mem_iff slot).mp hslot) hnext)
  rw [hwhole, hopsEq, hentriesEq]

/-- Over two heaps that agree on what is found from it, a program has the same image, if there are no
more slots in it than words. -/
theorem image_eq_of_agree
    (hagree : ∀ slot ∈ ReachableSlots heap lines, heap'.get slot = heap.get slot)
    (h : link heap lines = .ok image) (h' : link heap' lines = .ok image')
    (hsmall : image'.slots.length ≤ 2 ^ 32) : image' = image := by
  have hlinked := link_eq_ok h
  have hlinked' := link_eq_ok h'
  -- The order of the slots and the content of each are all that an image depends on.
  have horder : heap'.order lines = heap.order lines :=
    (Heap.Agrees.of_reach hagree).order_eq fun _ hslot => .root hslot
  have hlength : image'.slots.length = image.slots.length := by
    rw [hlinked.length, hlinked'.length, horder]
  have hopsEq : image'.ops = image.ops := by rw [hlinked.ops, hlinked'.ops, horder]
  have hslotsEq : image'.slots = image.slots := by
    rw [hlinked.slots (hlength.symm.trans_le hsmall), hlinked'.slots hsmall, horder]
    refine List.map_congr_left fun slot hslot => ?_
    rw [Heap.entry, Heap.entry, hagree slot ((hlinked.mem_iff slot).mp hslot)]
  obtain ⟨ops, slots⟩ := image
  obtain ⟨ops', slots'⟩ := image'
  exact congrArg₂ Image.mk hopsEq hslotsEq

end

end Lowering
