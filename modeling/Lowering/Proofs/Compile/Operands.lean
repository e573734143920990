import Lowering.Proofs.Compile.Writers

/-!
# Operands are computed before they are read

The slot of an operand is added for the op-line that reads it, and the code of the operand has it for
its context. An emitter has its context as a result in the op-lines that it returns and nowhere
else, and these are put in front of the one that reads the slot. `Fed` keeps this through a
compilation: in each list that was made, no operand is a result of its own op-line or of one behind
it, and lists at different places write no operands of each other.

That no slot is an operand twice is what `Spreads` says of the operands; the two go together in
`Supplied`, and `Built.supplies` has them for all emitters. `operands_ready` is what follows for the
op-lines of a call.
-/

namespace Lowering

open CompileM Emitter Heap

/-- The slots that an operation reads. -/
def Op.operands : Op → List SlotId
  | .unary _ op1 _ => [op1]
  | .binary _ op1 op2 _ => [op1, op2]
  | .functionDef name _ params => [name, params]
  | .jumpIf cond _ | .jumpIfNot cond _ => [cond]
  | .jumpTo _ | .noOp => []

/-- An op-line reads nothing that another writes. -/
def OpLine.Spares (line other : OpLine) : Prop :=
  ∀ slot ∈ line.op.operands, slot ∉ other.op.results

/-- No op-line reads what it writes itself or what is written behind it. -/
def InOrder (lines : List OpLine) : Prop :=
  lines.Pairwise (OpLine.Spares · ·) ∧ ∀ line ∈ lines, line.Spares line

/-- Neither of two lists reads what the other writes. -/
def Apart (lines more : List OpLine) : Prop :=
  ∀ line ∈ lines, ∀ other ∈ more, line.Spares other ∧ other.Spares line

/-- Apart is said of two lists in either order. -/
theorem Apart.symm {lines more : List OpLine} (h : Apart lines more) : Apart more lines :=
  fun line hline other hother => (h other hother line hline).symm

instance : Std.Symm Apart :=
  ⟨fun _ _ => Apart.symm⟩

/-- Lists in order that do not touch each other are in order one behind the other. -/
theorem InOrder.append {lines more : List OpLine} (h : InOrder lines) (h' : InOrder more)
    (hapart : Apart lines more) : InOrder (lines ++ more) := by
  refine ⟨List.pairwise_append.mpr ⟨h.1, h'.1, fun line hline other hother => ?_⟩, ?_⟩
  · exact (hapart line hline other hother).1
  · exact List.forall_mem_append.mpr ⟨h.2, h'.2⟩

/-- What is written stands in front of what reads it. -/
theorem InOrder.lt_of_written {lines : List OpLine} (h : InOrder lines) {i j : Nat}
    {line other : OpLine} {slot : SlotId} (hi : lines[i]? = some line)
    (hj : lines[j]? = some other) (hslot : slot ∈ line.op.operands)
    (hwritten : slot ∈ other.op.results) : j < i := by
  obtain ⟨hlt, rfl⟩ := List.getElem?_eq_some_iff.mp hi
  obtain ⟨hlt', rfl⟩ := List.getElem?_eq_some_iff.mp hj
  rcases Nat.lt_trichotomy i j with hless | rfl | hless
  · exact absurd hwritten (List.pairwise_iff_getElem.mp h.1 i j hlt hlt' hless slot hslot)
  · exact absurd hwritten (h.2 _ (List.getElem_mem hlt) slot hslot)
  · exact hless

/-! ## Lists that were made -/

/-- What the lists read and write that were made from one state to another: the op-lines in hand, and
the others, which stand inside them, in records or nowhere any more. Operands were added on the way.
Results were added as well, or are the context, which is written in hand only. Free slots were added
and are not read anywhere, nor written other than in hand. -/
structure Fed (context : Option SlotId) (before after : CompileState) (lines : List OpLine)
    (others : List (List OpLine)) (free : List SlotId) : Prop where
  there : ∀ slot ∈ context, slot.index < before.heap.size
  size_le : before.heap.size ≤ after.heap.size
  reads : ∀ slot ∈ listNames Op.operands (lines :: others), before.heap.Added after.heap slot
  writes : ∀ slot ∈ listNames Op.results [lines],
    slot ∈ context ∨ before.heap.Added after.heap slot
  writesInside : ∀ slot ∈ listNames Op.results others, before.heap.Added after.heap slot
  inOrder : ∀ list ∈ lines :: others, InOrder list
  apart : (lines :: others).Pairwise Apart
  bodies : lineBodies lines ⊆ others
  stored : ∀ slot, ∃ lists, Stored before after slot lists ∧ lists ⊆ others
  unread : ∀ slot ∈ free, before.heap.Added after.heap slot ∧
    slot ∉ listNames Op.operands (lines :: others) ∧ slot ∉ listNames Op.results others

/-- A slot with a role in an op-line of one of some lists has it in these lists. -/
theorem mem_listNames_of_mem {role : Op → List SlotId} {lists : List (List OpLine)}
    {lines : List OpLine} {line : OpLine} {slot : SlotId} (hlines : lines ∈ lists)
    (hline : line ∈ lines) (hslot : slot ∈ role line.op) : slot ∈ listNames role lists :=
  List.mem_flatMap.mpr ⟨lines, hlines, List.mem_flatMap.mpr ⟨line, hline, hslot⟩⟩

/-- The slots with a role in lists are those of the first and those of the others. -/
theorem listNames_cons {role : Op → List SlotId} (lines : List OpLine)
    (others : List (List OpLine)) :
    listNames role (lines :: others) = listNames role [lines] ++ listNames role others :=
  listNames_append [lines] others

/-- Lists are apart from each other if one reads nothing that the other writes. -/
theorem apart_of_names {lists more : List (List OpLine)}
    (h : (listNames Op.operands lists).Disjoint (listNames Op.results more))
    (h' : (listNames Op.operands more).Disjoint (listNames Op.results lists)) :
    ∀ lines ∈ lists, ∀ lines' ∈ more, Apart lines lines' := by
  intro lines hlines lines' hlines' line hline other hother
  exact ⟨fun slot hread hwritten => h (mem_listNames_of_mem hlines hline hread)
      (mem_listNames_of_mem hlines' hother hwritten),
    fun slot hread hwritten => h' (mem_listNames_of_mem hlines' hother hread)
      (mem_listNames_of_mem hlines hline hwritten)⟩

/-- Op-lines one after another, with other lists beside each, have the roles of both. -/
theorem mem_listNames_append {role : Op → List SlotId} {slot : SlotId} {lines more : List OpLine}
    {others others' : List (List OpLine)} :
    slot ∈ listNames role ((lines ++ more) :: (others ++ others')) ↔
      slot ∈ listNames role (lines :: others) ∨ slot ∈ listNames role (more :: others') := by
  simp only [listNames, List.flatMap_cons, List.flatMap_append, List.mem_append]
  tauto

/-- Lists that are apart from each other, on two sides and across, are so when the first of either
side are put one behind the other. -/
theorem pairwise_apart_append {lines more : List OpLine} {others others' : List (List OpLine)}
    (h : (lines :: others).Pairwise Apart) (h' : (more :: others').Pairwise Apart)
    (hapart : ∀ list ∈ lines :: others, ∀ list' ∈ more :: others', Apart list list') :
    ((lines ++ more) :: (others ++ others')).Pairwise Apart := by
  obtain ⟨hhead, htail⟩ := List.pairwise_cons.mp h
  obtain ⟨hhead', htail'⟩ := List.pairwise_cons.mp h'
  refine List.pairwise_cons.mpr ⟨List.forall_mem_append.mpr ⟨fun list hlist => ?_,
    fun list hlist => ?_⟩, List.pairwise_append.mpr ⟨htail, htail', ?_⟩⟩
  · exact List.forall_mem_append.mpr ⟨hhead list hlist,
      (hapart list (List.mem_cons_of_mem lines hlist) more List.mem_cons_self).symm⟩
  · exact List.forall_mem_append.mpr
      ⟨hapart lines List.mem_cons_self list (List.mem_cons_of_mem more hlist), hhead' list hlist⟩
  · exact fun list hlist list' hlist' => hapart list (List.mem_cons_of_mem lines hlist) list'
      (List.mem_cons_of_mem more hlist')

namespace Fed

variable {context context' : Option SlotId} {before between after : CompileState}
  {lines more : List OpLine} {others others' : List (List OpLine)} {free free' : List SlotId}

/-- What is written was there before or was added. -/
theorem lt_size_of_written (h : Fed context before after lines others free) {slot : SlotId}
    (hslot : slot ∈ listNames Op.results (lines :: others)) : slot.index < after.heap.size := by
  rw [listNames_cons, List.mem_append] at hslot
  rcases hslot with hslot | hslot
  · rcases h.writes slot hslot with hcontext | hadded
    · exact Nat.lt_of_lt_of_le (h.there slot hcontext) h.size_le
    · exact hadded.2
  · exact (h.writesInside slot hslot).2

/-- The second of two stretches writes nothing that the first reads. -/
theorem disjoint_second (h : Fed context before between lines others free)
    (h' : Fed context' between after more others' free')
    (hcontext : ∀ slot ∈ context', slot ∈ context ∨ slot ∈ free) :
    (listNames Op.operands (lines :: others)).Disjoint
      (listNames Op.results (more :: others')) := by
  intro slot hread hwritten
  have hadded := h.reads slot hread
  rw [listNames_cons, List.mem_append] at hwritten
  rcases hwritten with hwritten | hwritten
  · rcases h'.writes slot hwritten with hmem | hlate
    · rcases hcontext slot hmem with hmem | hmem
      · exact Nat.not_lt.mpr hadded.1 (h.there slot hmem)
      · exact (h.unread slot hmem).2.1 hread
    · exact Nat.not_lt.mpr hlate.1 hadded.2
  · exact Nat.not_lt.mpr (h'.writesInside slot hwritten).1 hadded.2

/-- The first of two stretches writes nothing that the second reads. -/
theorem disjoint_first (h : Fed context before between lines others free)
    (h' : Fed context' between after more others' free') :
    (listNames Op.operands (more :: others')).Disjoint
      (listNames Op.results (lines :: others)) :=
  fun slot hread hwritten =>
    Nat.not_lt.mpr (h'.reads slot hread).1 (h.lt_size_of_written hwritten)

/-- The second of two stretches neither reads a slot that is free behind the first nor writes it
other than in hand. -/
theorem unread_first (h : Fed context before between lines others free)
    (h' : Fed context' between after more others' free') {slot : SlotId} (hslot : slot ∈ free) :
    slot ∉ listNames Op.operands (more :: others') ∧ slot ∉ listNames Op.results others' := by
  have hlt := (h.unread slot hslot).1.2
  exact ⟨fun hmem => Nat.not_lt.mpr (h'.reads slot hmem).1 hlt,
    fun hmem => Nat.not_lt.mpr (h'.writesInside slot hmem).1 hlt⟩

/-- The first of two stretches neither reads a slot that is added behind it nor writes it other than
in hand. -/
theorem unread_second (h : Fed context before between lines others free)
    (h' : Fed context' between after more others' free') {slot : SlotId} (hslot : slot ∈ free') :
    slot ∉ listNames Op.operands (lines :: others) ∧ slot ∉ listNames Op.results others := by
  have hle := (h'.unread slot hslot).1.1
  exact ⟨fun hmem => Nat.not_lt.mpr hle (h.reads slot hmem).2,
    fun hmem => Nat.not_lt.mpr hle (h.writesInside slot hmem).2⟩

/-- One stretch and then another, whose context is the same or a slot that is free. -/
theorem trans (h : Fed context before between lines others free)
    (h' : Fed context' between after more others' free')
    (hcontext : ∀ slot ∈ context', slot ∈ context ∨ slot ∈ free) :
    Fed context before after (lines ++ more) (others ++ others') (free ++ free') := by
  -- Lists of different parts are apart: what the second part names is new, in its context or free.
  have hapart := apart_of_names (h.disjoint_second h' hcontext) (h.disjoint_first h')
  have hearly : ∀ {slot}, before.heap.Added between.heap slot →
      before.heap.Added after.heap slot := fun hslot =>
    ⟨hslot.1, Nat.lt_of_lt_of_le hslot.2 h'.size_le⟩
  have hlate : ∀ {slot}, between.heap.Added after.heap slot →
      before.heap.Added after.heap slot := fun hslot =>
    ⟨Nat.le_trans h.size_le hslot.1, hslot.2⟩
  refine ⟨h.there, Nat.le_trans h.size_le h'.size_le, ?_, ?_, ?_, ?_,
    pairwise_apart_append h.apart h'.apart hapart, ?_, fun slot => ?_, ?_⟩
  · intro slot hslot
    exact (mem_listNames_append.mp hslot).elim (fun hslot => hearly (h.reads slot hslot))
      fun hslot => hlate (h'.reads slot hslot)
  · intro slot hslot
    have hnames : slot ∈ listNames Op.results [lines] ∨ slot ∈ listNames Op.results [more] :=
      mem_listNames_append.mp hslot
    rcases hnames with hslot | hslot
    · exact (h.writes slot hslot).imp_right hearly
    · -- The second context is the first or a slot that was added and is free.
      rcases h'.writes slot hslot with hmem | hadded
      · exact (hcontext slot hmem).imp_right fun hfree => hearly (h.unread slot hfree).1
      · exact Or.inr (hlate hadded)
  · rw [listNames_append, List.forall_mem_append]
    exact ⟨fun slot hslot => hearly (h.writesInside slot hslot),
      fun slot hslot => hlate (h'.writesInside slot hslot)⟩
  · refine List.forall_mem_cons.mpr ⟨?_, List.forall_mem_append.mpr ⟨?_, ?_⟩⟩
    · exact (h.inOrder lines List.mem_cons_self).append (h'.inOrder more List.mem_cons_self)
        (hapart lines List.mem_cons_self more List.mem_cons_self)
    · exact fun list hlist => h.inOrder list (List.mem_cons_of_mem lines hlist)
    · exact fun list hlist => h'.inOrder list (List.mem_cons_of_mem more hlist)
  · rw [lineBodies_append]
    exact List.append_subset.mpr
      ⟨List.subset_append_of_subset_left _ h.bodies, List.subset_append_of_subset_right _ h'.bodies⟩
  · obtain ⟨lists, hstored, hlists⟩ := h.stored slot
    obtain ⟨lists', hstored', hlists'⟩ := h'.stored slot
    exact hstored.exists_trans hstored' (List.subset_append_of_subset_left _ hlists)
      (List.subset_append_of_subset_right _ hlists')
  · refine List.forall_mem_append.mpr ⟨fun slot hslot => ?_, fun slot hslot => ?_⟩
    · obtain ⟨hadded, hread, hwritten⟩ := h.unread slot hslot
      obtain ⟨hread', hwritten'⟩ := h.unread_first h' hslot
      rw [mem_listNames_append, listNames_append, List.mem_append]
      exact ⟨hearly hadded, not_or.mpr ⟨hread, hread'⟩, not_or.mpr ⟨hwritten, hwritten'⟩⟩
    · obtain ⟨hadded, hread', hwritten'⟩ := h'.unread slot hslot
      obtain ⟨hread, hwritten⟩ := h.unread_second h' hslot
      rw [mem_listNames_append, listNames_append, List.mem_append]
      exact ⟨hlate hadded, not_or.mpr ⟨hread, hread'⟩, not_or.mpr ⟨hwritten, hwritten'⟩⟩

/-- No op-line is made, and slots lose op-lines at most. -/
theorem still (hsize : after.heap.size = before.heap.size)
    (hheld : ∀ slot, after.heap.sequencesOf slot = [] ∨
      after.heap.sequencesOf slot = before.heap.sequencesOf slot) :
    Fed none before after [] [] [] := by
  refine ⟨by simp, hsize.ge, by simp [listNames], by simp [listNames], by simp [listNames], ?_,
    List.pairwise_singleton _ _, by simp [lineBodies], fun slot => ⟨[], ?_, by simp⟩, by simp⟩
  · simp [InOrder]
  · exact (hheld slot).imp_right fun heq => by rw [heq, List.append_nil]

/-- A slot without op-lines is added, and is free. -/
theorem added (state : CompileState) {cell : Cell} (hcell : cell.value.sequences = []) :
    Fed none state (state.added cell) [] [] [state.heap.next] := by
  have hsize : (state.added cell).heap.size = state.heap.size + 1 := size_add _ _
  refine ⟨by simp, by omega, by simp [listNames], by simp [listNames], by simp [listNames], ?_,
    List.pairwise_singleton _ _, by simp [lineBodies], fun slot => ⟨[], ?_, by simp⟩, ?_⟩
  · simp [InOrder]
  · rw [Stored, CompileState.added_heap, sequencesOf, get_add]
    split
    · exact Or.inl hcell
    · exact Or.inr (List.append_nil _).symm
  · rw [List.forall_mem_singleton]
    refine ⟨⟨Nat.le_refl _, ?_⟩, by simp [listNames], by simp [listNames]⟩
    rw [hsize]
    exact Nat.lt_succ_self _

/-- What is done without a context may be done in any. -/
theorem widen (h : Fed none before after lines others free)
    (there : ∀ slot ∈ context, slot.index < before.heap.size) :
    Fed context before after lines others free :=
  { h with
    there := there
    writes := fun slot hslot => Or.inr ((h.writes slot hslot).resolve_left (by simp)) }

/-- The op-lines in hand are set aside: they stand inside another, or are stored or dropped. -/
theorem aside (h : Fed none before after lines others free) :
    Fed none before after [] (lines :: others) [] := by
  have hreads : listNames Op.operands ([] :: lines :: others) =
      listNames Op.operands (lines :: others) := by simp [listNames]
  refine ⟨by simp, h.size_le, fun slot hslot => h.reads slot (hreads ▸ hslot), by simp [listNames],
    ?_, ?_, ?_, by simp [lineBodies], fun slot => ?_, by simp⟩
  · rw [listNames_cons, List.forall_mem_append]
    exact ⟨fun slot hslot => (h.writes slot hslot).resolve_left (by simp), h.writesInside⟩
  · exact List.forall_mem_cons.mpr ⟨by simp [InOrder], h.inOrder⟩
  · exact List.pairwise_cons.mpr ⟨by simp [Apart], h.apart⟩
  · obtain ⟨lists, hstored, hlists⟩ := h.stored slot
    exact ⟨lists, hstored, List.subset_cons_of_subset _ hlists⟩

/-- The op-lines in hand are stored in a record. -/
theorem store (record : ParamRecord) (h : Fed none before after record.ops others free)
    (target : SlotId) :
    Fed none before (after.written target (.push (.param record))) [] (record.ops :: others)
      [] := by
  have hsize : (after.written target (.push (.param record))).heap.size = after.heap.size :=
    size_modify _ _ _
  have hsequences : (Value.param record).sequences ⊆ record.ops :: others := by
    rw [Value.sequences]
    exact List.cons_subset_cons _ h.bodies
  -- The body is put aside first: what is left is one more value in the target, which names no new
  -- slots.
  have haside := h.aside
  refine ⟨haside.there, by rw [hsize]; exact h.size_le, ?_, by simp [listNames], ?_,
    haside.inOrder, haside.apart, haside.bodies, fun slot => ?_, by simp⟩
  · unfold Added
    rw [hsize]
    exact haside.reads
  · unfold Added
    rw [hsize]
    exact haside.writesInside
  · obtain ⟨lists, hstored, hlists⟩ := haside.stored slot
    obtain ⟨lists', hstored', hlists'⟩ := Stored.exists_push after record target slot
    exact hstored.exists_trans hstored' hlists (List.Subset.trans hlists' hsequences)

/-- Another op-line is made, which reads free slots. It writes the context or a slot that was free as
well, and what stands inside it was made before. -/
theorem snoc (h : Fed context before after lines others free) (line : OpLine)
    (hoperands : line.op.operands ⊆ free)
    (hresults : ∀ slot ∈ line.op.results,
      slot ∈ context ∨ (slot ∈ free ∧ slot ∉ line.op.operands))
    (hbodies : line.op.bodies ⊆ others) :
    Fed context before after (lines ++ [line]) others [] := by
  have hunread : ∀ slot ∈ line.op.results, slot ∉ listNames Op.operands (lines :: others) := by
    intro slot hslot hread
    rcases hresults slot hslot with hcontext | ⟨hfree, -⟩
    · exact Nat.not_lt.mpr (h.reads slot hread).1 (h.there slot hcontext)
    · exact (h.unread slot hfree).2.1 hread
  have hself : line.Spares line := by
    intro slot hread hwritten
    rcases hresults slot hwritten with hcontext | ⟨-, hnot⟩
    · exact Nat.not_lt.mpr (h.unread slot (hoperands hread)).1.1 (h.there slot hcontext)
    · exact hnot hread
  have hreads : ∀ {role : Op → List SlotId} {slot : SlotId},
      slot ∈ listNames role ((lines ++ [line]) :: others) ↔
        slot ∈ listNames role (lines :: others) ∨ slot ∈ role line.op := by
    intro role slot
    simp only [listNames, List.flatMap_cons, List.flatMap_append, List.flatMap_nil,
      List.append_nil, List.mem_append]
    tauto
  refine ⟨h.there, h.size_le, ?_, ?_, h.writesInside, ?_, ?_, ?_, h.stored, by simp⟩
  · intro slot hslot
    exact (hreads.mp hslot).elim (h.reads slot) fun hslot => (h.unread slot (hoperands hslot)).1
  · intro slot hslot
    simp only [listNames, List.flatMap_cons, List.flatMap_nil, List.append_nil,
      List.flatMap_append, List.mem_append] at hslot
    rcases hslot with hslot | hslot
    · exact h.writes slot (by simpa [listNames] using hslot)
    · exact (hresults slot hslot).imp_right fun hfree => (h.unread slot hfree.1).1
  · refine List.forall_mem_cons.mpr
      ⟨?_, fun list hlist => h.inOrder list (List.mem_cons_of_mem lines hlist)⟩
    obtain ⟨hpairwise, hselves⟩ := h.inOrder lines List.mem_cons_self
    refine ⟨List.pairwise_append.mpr ⟨hpairwise, List.pairwise_singleton _ _, ?_⟩,
      List.forall_mem_append.mpr ⟨hselves, by simpa using hself⟩⟩
    intro other hother last hlast slot hread hwritten
    obtain rfl : last = line := List.mem_singleton.mp hlast
    exact hunread slot hwritten (mem_listNames_of_mem List.mem_cons_self hother hread)
  · obtain ⟨hhead, htail⟩ := List.pairwise_cons.mp h.apart
    refine List.pairwise_cons.mpr ⟨fun list hlist => ?_, htail⟩
    refine List.forall_mem_append.mpr ⟨hhead list hlist, ?_⟩
    rw [List.forall_mem_singleton]
    -- Its operands are written in hand only, and its result is read nowhere.
    exact fun other hother => ⟨fun slot hread hwritten =>
        (h.unread slot (hoperands hread)).2.2 (mem_listNames_of_mem hlist hother hwritten),
      fun slot hread hwritten => hunread slot hwritten
        (mem_listNames_of_mem (List.mem_cons_of_mem lines hlist) hother hread)⟩
  · rw [lineBodies_append]
    exact List.append_subset.mpr ⟨h.bodies, by simpa [lineBodies] using hbodies⟩

end Fed

/-! ## Distinct operands -/

/-- No slot is an operand twice in what was made, and all operands are computed before they are
read. -/
structure Supplied (context : Option SlotId) (before after : CompileState) (hand : List SlotId)
    (lines : List OpLine) (others : List (List OpLine)) (free : List SlotId) : Prop where
  spreads : Spreads Op.operands none 0 before after hand free
  fed : Fed context before after lines others free

namespace Supplied

variable {context context' : Option SlotId} {before between after : CompileState}
  {hand hand' free free' : List SlotId} {lines more : List OpLine}
  {others others' : List (List OpLine)}

/-- Nothing has been done. -/
theorem start {state : CompileState} (there : ∀ slot ∈ context, slot.index < state.heap.size) :
    Supplied context state state [] [] [] [] :=
  ⟨.start (by simp), (Fed.still rfl fun _ => Or.inr rfl).widen there⟩

/-- One stretch and then another, whose context is the same or a slot that is free. -/
theorem trans (h : Supplied context before between hand lines others free)
    (h' : Supplied context' between after hand' more others' free')
    (hcontext : ∀ slot ∈ context', slot ∈ context ∨ slot ∈ free) :
    Supplied context before after (hand ++ hand') (lines ++ more) (others ++ others')
      (free ++ free') :=
  ⟨h.spreads.behind h'.spreads, h.fed.trans h'.fed hcontext⟩

/-- A step that adds no slot and stores no op-lines. -/
theorem quiet (h : Supplied context before between hand lines others free)
    (hsize : after.heap.size = between.heap.size)
    (hheld : ∀ slot, after.heap.sequencesOf slot = [] ∨
      after.heap.sequencesOf slot = between.heap.sequencesOf slot) :
    Supplied context before after hand lines others free :=
  ⟨h.spreads.quiet hsize hheld, by simpa using h.fed.trans (Fed.still hsize hheld) (by simp)⟩

/-- An event reads and writes nothing. -/
theorem noted (h : Supplied context before between hand lines others free) (event : Event) :
    Supplied context before (between.noted event) hand lines others free :=
  h.quiet rfl fun _ => Or.inr rfl

/-- Reporting misplaced nodes reads and writes nothing. -/
theorem notedMisplaced (h : Supplied context before between hand lines others free)
    (kinds : List NodeKind) :
    Supplied context before (between.notedMisplaced kinds) hand lines others free :=
  h.quiet (by simp) (by simp)

/-- Handing out a handle reads and writes nothing. -/
theorem advanced (h : Supplied context before between hand lines others free) :
    Supplied context before between.advanced hand lines others free :=
  h.quiet rfl fun _ => Or.inr rfl

/-- A slot is written with something that has the op-lines that it held, or none. -/
theorem written (h : Supplied context before between hand lines others free) (target : SlotId)
    {change : Cell → Cell} (hchange : ∀ cell, (change cell).value.sequences = [] ∨
      (change cell).value.sequences = cell.value.sequences) :
    Supplied context before (between.written target change) hand lines others free := by
  refine h.quiet (size_modify _ _ _) fun slot => ?_
  rw [CompileState.written_heap, sequencesOf, get_modify]
  split
  · exact hchange _
  · exact Or.inr rfl

/-- A slot without op-lines is added, and is free. -/
theorem added (h : Supplied context before between hand lines others free) {cell : Cell}
    (hcell : cell.value.sequences = []) :
    Supplied context before (between.added cell) hand lines others
      (free ++ [between.heap.next]) :=
  ⟨h.spreads.added hcell, by simpa using h.fed.trans (Fed.added between hcell) (by simp)⟩

/-- An empty slot is one more free slot. -/
theorem added_empty (h : Supplied context before between hand lines others free) :
    Supplied context before (between.added {}) hand lines others (free ++ [between.heap.next]) :=
  h.added (by simp [Value.sequences])

/-- What is done without a context may be done in any. -/
theorem widen (h : Supplied none before after hand lines others free)
    (there : ∀ slot ∈ context, slot.index < before.heap.size) :
    Supplied context before after hand lines others free :=
  ⟨h.spreads, h.fed.widen there⟩

/-- Free slots are given up. -/
theorem forget (h : Supplied context before after hand lines others free) :
    Supplied context before after hand lines others [] :=
  ⟨h.spreads.forget (List.nil_subset _), { h.fed with unread := List.forall_mem_nil _ }⟩

/-- The op-lines in hand are set aside, to stand inside another. -/
theorem aside (h : Supplied none before after hand lines others free) :
    Supplied none before after hand [] (lines :: others) [] :=
  ⟨h.spreads.forget (List.nil_subset _), h.fed.aside⟩

/-- The op-lines in hand are dropped. -/
theorem drop (h : Supplied none before after hand lines others free) :
    Supplied none before after [] [] (lines :: others) [] :=
  ⟨h.spreads.drop, h.fed.aside⟩

/-- The op-lines in hand are stored in a record. -/
theorem store (record : ParamRecord) {target : SlotId}
    (h : Supplied none before after (lineNames Op.operands record.ops) record.ops others free)
    (htarget : target.index < before.heap.size) :
    Supplied none before (after.written target (.push (.param record))) [] []
      (record.ops :: others) [] :=
  ⟨(h.spreads.store record htarget).narrow, h.fed.store record target⟩

/-- The order in which operands are listed does not matter. -/
theorem perm (h : Supplied context before after hand lines others free)
    (hperm : hand'.Perm hand) : Supplied context before after hand' lines others free :=
  ⟨h.spreads.perm hperm, h.fed⟩

/-- Another op-line is made, which reads free slots. It writes the context or a slot that was free as
well, and what stands inside it was made before. -/
theorem snoc (h : Supplied context before after hand lines others free) (line : OpLine)
    (hoperands : line.op.operands ⊆ free) (hnodup : line.op.operands.Nodup)
    (hresults : ∀ slot ∈ line.op.results,
      slot ∈ context ∨ (slot ∈ free ∧ slot ∉ line.op.operands))
    (hbodies : line.op.bodies ⊆ others) :
    Supplied context before after (hand ++ line.op.operands) (lines ++ [line]) others [] :=
  ⟨h.spreads.takeAll hoperands hnodup (List.forall_mem_nil _),
    h.fed.snoc line hoperands hresults hbodies⟩

/-- An op-line that has no result and nothing inside it. -/
theorem test (h : Supplied context before after hand lines others free) (line : OpLine)
    (hoperands : line.op.operands ⊆ free) (hnodup : line.op.operands.Nodup)
    (hresults : line.op.results = []) (hbodies : line.op.bodies = []) :
    Supplied context before after (hand ++ line.op.operands) (lines ++ [line]) others [] :=
  h.snoc line hoperands hnodup (by simp [hresults]) (by simp [hbodies])

/-- Free slots were there before the slot that is added next. -/
theorem ne_next_of_free (h : Supplied context before after hand lines others free) {slot : SlotId}
    (hslot : slot ∈ free) : slot ≠ after.heap.next := by
  rintro rfl
  exact Nat.lt_irrefl _ (h.spreads.lt_size_of_free hslot)

/-- An operation whose operands are free, and which writes the context or a slot that is added for
it. -/
theorem emitted (h : Supplied context before between hand lines others free) (line : OpLine)
    (hoperands : line.op.operands ⊆ free) (hnodup : line.op.operands.Nodup)
    (hresults : line.op.results = [between.resultOf context]) (hbodies : line.op.bodies = []) :
    Supplied context before (between.withResult context).advanced (hand ++ line.op.operands)
      (lines ++ [line]) others [] := by
  have hinside : line.op.bodies ⊆ others := by simp [hbodies]
  refine Supplied.advanced ?_
  cases context with
  | none =>
    refine h.added_empty.snoc line (List.subset_append_of_subset_left _ hoperands) hnodup ?_ hinside
    rw [hresults, List.forall_mem_singleton]
    refine Or.inr ⟨List.mem_append_right _ (List.mem_singleton_self _), fun hmem => ?_⟩
    exact h.ne_next_of_free (hoperands hmem) rfl
  | some slot =>
    refine h.snoc line hoperands hnodup ?_ hinside
    rw [hresults, List.forall_mem_singleton]
    exact Or.inl rfl

end Supplied

/-! ## Emitters -/

/-- Of the op-lines that an emitter returns and of all others that it makes, no slot is an operand
twice, and every operand is computed before it is read. -/
def Emitter.Supplies (emitter : Emitter) : Prop :=
  ∀ context state, (∀ slot ∈ context, slot.index < state.heap.size) →
    Ends (emitter context) state
      (fun ops after => ∃ others,
        Supplied context state after (lineNames Op.operands ops) ops others [])
      fun _ _ => True

namespace Emitter

variable {emitter first second : Emitter} {context context' : Option SlotId}
  {before state : CompileState} {hand free : List SlotId} {lines : List OpLine}
  {others : List (List OpLine)} {done : List OpLine → CompileState → Prop}

/-- An emitter that runs behind other steps, in the same context or in a slot that is free. -/
theorem Supplies.ends (h : emitter.Supplies)
    (hstate : Supplied context before state hand lines others free)
    (hcontext : ∀ slot ∈ context', slot ∈ context ∨ slot ∈ free)
    (hdone : ∀ ops after more, Supplied context before after (hand ++ lineNames Op.operands ops)
      (lines ++ ops) (others ++ more) free → done ops after) :
    Ends (emitter context') state done fun _ _ => True := by
  have hthere : ∀ slot ∈ context', slot.index < state.heap.size := by
    intro slot hslot
    rcases hcontext slot hslot with hmem | hmem
    · exact Nat.lt_of_lt_of_le (hstate.fed.there slot hmem) hstate.fed.size_le
    · exact hstate.spreads.lt_size_of_free hmem
  refine (h context' state hthere).mono (fun ops after hops => ?_) fun _ _ _ => trivial
  obtain ⟨more, hops⟩ := hops
  exact hdone ops after more (by simpa using hstate.trans hops hcontext)

/-- No code reads and writes nothing. -/
theorem supplies_skip : skip.Supplies :=
  fun _ _ hcontext => ends_skip.mpr ⟨[], .start hcontext⟩

/-- One piece and then another have operands of their own each. -/
theorem supplies_append (hfirst : first.Supplies) (hsecond : second.Supplies) :
    (append first second).Supplies := by
  intro context state hcontext
  rw [ends_append]
  refine hfirst.ends (.start hcontext) (fun _ hslot => Or.inl hslot)
    fun ops state₁ others₁ hops => ?_
  refine hsecond.ends hops (fun _ hslot => Or.inl hslot) fun more state₂ others₂ hmore => ?_
  exact ⟨_, by simpa using hmore⟩

/-- An event in front reads and writes nothing. -/
theorem supplies_noting (event : Event) (h : emitter.Supplies) :
    (noting event emitter).Supplies := by
  intro context state hcontext
  rw [ends_noting]
  refine h.ends ((Supplied.start hcontext).noted event) (fun _ hslot => Or.inl hslot)
    fun ops state₁ others₁ hops => ?_
  exact ⟨_, by simpa using hops⟩

/-- A node that cannot be compiled reads and writes nothing. -/
theorem supplies_unsupported (kind : NodeKind) : (unsupported kind).Supplies :=
  fun _ _ _ => (ends_unsupported kind).mpr trivial

/-- A literal without effect reads and writes nothing. -/
theorem supplies_dropped (literal : Scalar) : (dropped literal).Supplies := by
  intro context state hcontext
  rw [ends_dropped]
  exact ⟨[], (Supplied.start hcontext).noted _⟩

/-- A literal is no op-line, so it neither reads nor writes in the sense of one. -/
theorem supplies_folded (literal : Scalar) : (folded literal).Supplies := by
  intro context state hcontext
  cases context with
  | none =>
    rw [ends_folded_none]
    exact ⟨[], (Supplied.start hcontext).noted _⟩
  | some slot =>
    rw [ends_folded_some]
    exact ⟨[], (Supplied.start hcontext).written slot fun _ =>
      Or.inl (sequences_of_isLiteral literal.toValue_isLiteral)⟩

/-- A constant is no op-line, so it neither reads nor writes in the sense of one. -/
theorem supplies_constant {literal : Constant} (hliteral : literal.value.IsLiteral) :
    (constant literal).Supplies := by
  intro context state hcontext
  cases context with
  | none =>
    rw [ends_constant_none]
    exact ⟨[], .start hcontext⟩
  | some slot =>
    rw [ends_constant_some]
    exact ⟨[], ((Supplied.start hcontext).notedMisplaced _).written slot fun _ =>
      Or.inl (sequences_of_isLiteral hliteral)⟩

/-- An operation on one operand reads a slot that was added for it and computed in front. -/
theorem supplies_unary {operand : Emitter} (kind : UnaryKind) (h : operand.Supplies) :
    (unary kind operand).Supplies := by
  intro context state hcontext
  rw [ends_unary]
  refine h.ends (Supplied.start hcontext).added_empty (by simp) fun ops state₁ others₁ hops => ?_
  have hline := hops.emitted ⟨state₁.handle, .unary kind state.heap.next (state₁.resultOf context)⟩
    (by simp [Op.operands]) (by simp [Op.operands]) (by simp [Op.results, Op.result?]) rfl
  exact ⟨_, by simpa [Op.operands, Op.innerNames] using hline⟩

/-- An operation on two operands reads two slots that were added for them and computed in front. -/
theorem supplies_binary {left right : Emitter} (kind : BinaryKind) (hleft : left.Supplies)
    (hright : right.Supplies) : (binary kind left right).Supplies := by
  intro context state hcontext
  rw [ends_binary]
  refine hleft.ends (Supplied.start hcontext).added_empty.added_empty (by simp)
    fun ops state₁ others₁ hops => ?_
  refine hright.ends hops (by simp) fun more state₂ others₂ hmore => ?_
  have hline := hmore.emitted ⟨state₂.handle, .binary kind state.heap.next
      (state.added {}).heap.next (state₂.resultOf context)⟩
    (by simp [Op.operands]) (by simp [Op.operands, Heap.next, Heap.size_add])
    (by simp [Op.results, Op.result?]) rfl
  exact ⟨_, by simpa [Op.operands, Op.innerNames] using hline⟩

/-- An argument reads and writes what its value does. -/
theorem supplies_argument {value : Emitter} (h : value.Supplies) :
    (argument value).Supplies := by
  intro context state hcontext
  rw [ends_argument]
  refine h.ends (Supplied.start hcontext).added_empty (by simp) fun ops state₁ others₁ hops => ?_
  cases context with
  | none => exact ⟨_, hops.forget⟩
  | some target =>
    refine ⟨_, hops.forget.written target fun cell => ?_⟩
    simpa [Value.sequences] using Cell.sequences_push (.slot state.heap.next) cell

/-- Text between the statements is echoed from a slot that nothing else reads. -/
theorem supplies_inlineText {text : Constant} (htext : text.value.IsLiteral) :
    (inlineText text).Supplies := by
  intro context state hcontext
  rw [ends_inlineText]
  have hcell : (Cell.ofValue text.value).value.sequences = [] := sequences_of_isLiteral htext
  -- The result has a slot of its own, also in a context.
  have hslots := ((Supplied.start hcontext).notedMisplaced text.misplaced).added hcell
    |>.added_empty.advanced
  have hline := hslots.snoc ⟨state.handle, .unary .echoOp state.heap.next
      (state.added (.ofValue text.value)).heap.next⟩
    (by simp [Op.operands, Heap.next]) (by simp [Op.operands])
    (by simp [Op.operands, Op.results, Op.result?, Heap.next, Heap.size_add])
    (by simp [Op.bodies])
  exact ⟨_, by simpa [Op.operands, Op.innerNames] using hline⟩

/-- A parameter puts the op-lines of its default value into a list of their own. -/
theorem supplies_parameter {default : Emitter} (declaration : Declaration)
    (h : default.Supplies) : (parameter declaration default).Supplies := by
  intro context state hcontext
  rw [ends_parameter]
  -- The default has a slot of its own and does not see the context.
  have hstart : Supplied none state state [] [] [] [] := .start (by simp)
  refine h.ends hstart.added_empty (by simp) fun ops state₁ others₁ hops => ?_
  cases context with
  | none => exact ⟨_, hops.drop⟩
  | some target =>
    exact ⟨_, (Supplied.store ⟨declaration.name, _, ops, declaration.byRef, declaration.typeHint⟩
      hops (hcontext target rfl)).widen hcontext⟩

/-- A function reads its name and its parameters behind the op-lines for them, with its body in a
list of its own. -/
theorem supplies_function {body name params : Emitter} (hbody : body.Supplies)
    (hname : name.Supplies) (hparams : params.Supplies) :
    (function body name params).Supplies := by
  intro context state hcontext
  rw [ends_function]
  refine (hbody none state (by simp)).mono (fun stmts state₁ hstmts => ?_) fun _ _ _ => trivial
  obtain ⟨others₁, hstmts⟩ := hstmts
  refine hname.ends (hstmts.aside.widen hcontext).added_empty (by simp)
    fun ops state₂ others₂ hops => ?_
  have hcell : (Cell.ofValue (.array [])).value.sequences = [] := by
    simp [Cell.ofValue, Value.sequences, valueSequences]
  refine hparams.ends (hops.added hcell) (by simp) fun more state₃ others₃ hmore => ?_
  have hne : state₁.heap.next ≠ state₂.heap.next := hops.ne_next_of_free (by simp)
  have hinside : stmts :: lineBodies stmts ⊆ stmts :: others₁ ++ others₂ ++ others₃ := by
    refine List.subset_append_of_subset_left _ (List.subset_append_of_subset_left _ ?_)
    exact List.cons_subset_cons _ hstmts.fed.bodies
  have hline := hmore.snoc
    ⟨state₃.handle, .functionDef state₁.heap.next stmts state₂.heap.next⟩
    (by simp [Op.operands]) (by simpa [Op.operands] using hne)
    (by simp [Op.results, Op.result?]) (by simpa [Op.bodies] using hinside)
  refine ⟨_, (hline.noted _).advanced.perm ?_⟩
  -- The body is compiled first and stands in the last op-line.
  simp only [lineNames_append, lineNames_cons, lineNames_nil, Op.operands, Op.innerNames,
    List.append_nil]
  rw [List.append_assoc (lineNames _ stmts), List.append_assoc (lineNames _ stmts),
    ← List.append_assoc _ _ (lineNames _ stmts)]
  exact List.perm_append_comm

/-- A guarded branch tests a slot behind the op-lines that compute it. -/
theorem supplies_guardedTo {branch : Branch} (target : List OpLine → OpLine → OpId)
    (hcond : branch.cond.Supplies) (hstmts : branch.stmts.Supplies) :
    Supplies fun _ => guardedTo target branch := by
  intro context state hcontext
  rw [ends_guardedTo]
  refine hcond.ends (Supplied.start hcontext).added_empty (by simp)
    fun test state₁ others₁ htest => ?_
  have hguard := htest.advanced.advanced.test
    ⟨state₁.advanced.handle, .jumpIfNot state.heap.next state₁.handle⟩
    (by simp [Op.operands]) (by simp [Op.operands]) rfl rfl
  refine hstmts.ends hguard (by simp) fun stmts state₂ others₂ hstmts => ?_
  have hleave := hstmts.advanced.test ⟨state₂.handle, .jumpTo (target test
      ⟨state₁.advanced.handle, .jumpIfNot state.heap.next state₁.handle⟩)⟩
    (by simp [Op.operands]) (by simp [Op.operands]) rfl rfl
  have hpast := hleave.test ⟨state₁.handle, .noOp⟩ (by simp [Op.operands]) (by simp [Op.operands])
    rfl rfl
  exact ⟨_, by simpa [Op.operands, Op.innerNames] using hpast⟩

/-- A loop that tests first reads and writes what its guarded statements do. -/
theorem supplies_whileLoop {loop : Branch} (hcond : loop.cond.Supplies)
    (hstmts : loop.stmts.Supplies) : (whileLoop loop).Supplies := by
  rw [whileLoop_eq_guardedTo]
  exact supplies_guardedTo _ hcond hstmts

/-- A loop that tests last tests a slot behind the op-lines that compute it. -/
theorem supplies_doLoop {loop : Branch} (hcond : loop.cond.Supplies)
    (hstmts : loop.stmts.Supplies) : (doLoop loop).Supplies := by
  intro context state hcontext
  rw [ends_doLoop]
  refine hstmts.ends (Supplied.start hcontext).added_empty (by simp)
    fun stmts state₁ others₁ hstmts => ?_
  refine hcond.ends hstmts (by simp) fun test state₂ others₂ htest => ?_
  have hguard := htest.advanced.test
    ⟨state₂.handle, .jumpIf state.heap.next (entry (stmts ++ test) state₂.handle)⟩
    (by simp [Op.operands]) (by simp [Op.operands]) rfl rfl
  exact ⟨_, by simpa [Op.operands, Op.innerNames] using hguard⟩

/-- A conditional reads and writes what its branches and the statements behind them do. -/
theorem supplies_conditional {branches : List Branch} {otherwise : Emitter}
    (hcond : ∀ branch ∈ branches, branch.cond.Supplies)
    (hstmts : ∀ branch ∈ branches, branch.stmts.Supplies) (hotherwise : otherwise.Supplies) :
    (conditional branches otherwise).Supplies := by
  intro context state hcontext
  rw [ends_conditional]
  have hguarded : Supplies fun _ => guardedAll state.handle branches :=
    guardedAll_induction Supplies supplies_skip supplies_append state.handle fun branch hbranch =>
      supplies_guardedTo _ (hcond branch hbranch) (hstmts branch hbranch)
  refine @Supplies.ends _ _ none _ state.advanced _ _ _ _ _ hguarded
    (Supplied.start hcontext).advanced (by simp) fun ops state₁ others₁ hops => ?_
  refine hotherwise.ends hops (by simp) fun more state₂ others₂ hmore => ?_
  have hexit := hmore.test ⟨state.handle, .noOp⟩ (by simp [Op.operands]) (by simp [Op.operands])
    rfl rfl
  exact ⟨_, by simpa [Op.operands, Op.innerNames] using hexit⟩

/-- Every emitter that is built has its operands computed before they are read. -/
theorem Built.supplies {emitter : Emitter} (h : Built emitter) : emitter.Supplies := by
  induction h with
  | skip => exact supplies_skip
  | append _ _ hfirst hsecond => exact supplies_append hfirst hsecond
  | noting event _ h => exact supplies_noting event h
  | unsupported kind => exact supplies_unsupported kind
  | dropped literal => exact supplies_dropped literal
  | folded literal => exact supplies_folded literal
  | constant hliteral => exact supplies_constant hliteral
  | unary kind _ h => exact supplies_unary kind h
  | binary kind _ _ hleft hright => exact supplies_binary kind hleft hright
  | argument _ h => exact supplies_argument h
  | inlineText htext => exact supplies_inlineText htext
  | parameter declaration _ h => exact supplies_parameter declaration h
  | function _ _ _ hbody hname hparams => exact supplies_function hbody hname hparams
  | conditional _ _ _ hcond hstmts hotherwise =>
    exact supplies_conditional hcond hstmts hotherwise
  | whileLoop _ _ hcond hstmts => exact supplies_whileLoop hcond hstmts
  | doLoop _ _ hcond hstmts => exact supplies_doLoop hcond hstmts

end Emitter

/-! ## Calls -/

namespace Position

/-- A position stands in front of another in the same list. -/
def Precedes (earlier position : Position) : Prop :=
  earlier.owner = position.owner ∧ earlier.list = position.list ∧ earlier.line < position.line

/-- Another place in the list of a position. -/
def withLine : Position → Nat → Position
  | .returned list _, line => .returned list line
  | .stored slot list _, line => .stored slot list line

/-- Another place in a list has the same slot for its owner. -/
theorem owner_withLine (position : Position) (line : Nat) :
    (position.withLine line).owner = position.owner := by
  cases position <;> rfl

/-- Another place in a list is in the same list. -/
theorem list_withLine (position : Position) (line : Nat) :
    (position.withLine line).list = position.list := by
  cases position <;> rfl

end Position

namespace Call

variable {call : Call} {position position' : Position} {line line' : OpLine} {lines : List OpLine}
  {others : List (List OpLine)} {slot : SlotId}

/-- A call has made one op-line at a position. -/
theorem Makes.unique (h : call.Makes position line) (h' : call.Makes position line') :
    line = line' := by
  cases h with
  | returned hi hj =>
    cases h' with
    | returned hi' hj' =>
      obtain rfl := Option.some.inj (hi.symm.trans hi')
      exact Option.some.inj (hj.symm.trans hj')
  | stored hi _ hj =>
    cases h' with
    | stored hi' _ hj' =>
      obtain rfl := Option.some.inj (hi.symm.trans hi')
      exact Option.some.inj (hj.symm.trans hj')

/-- The list that a position of a call is in: all of it was made by the call, and it is one of those
whose operands are known. -/
theorem Makes.exists_list (h : Fed call.context call.before call.after lines others [])
    (hreturned : call.returned = lines :: lineBodies lines) (hmakes : call.Makes position line) :
    ∃ list ∈ lines :: others, list[position.line]? = some line ∧
      ∀ (j : Nat) (other : OpLine), list[j]? = some other →
        call.Makes (position.withLine j) other := by
  cases hmakes with
  | @returned i j list _ hi hj =>
    refine ⟨list, ?_, hj, fun _ _ hother => .returned hi hother⟩
    have hmem := List.mem_of_getElem? hi
    rw [hreturned] at hmem
    exact List.cons_subset_cons _ h.bodies hmem
  | @stored slot i j list _ hi hnew hj =>
    refine ⟨list, ?_, hj, fun _ _ hother => .stored hi hnew hother⟩
    obtain ⟨lists, hstored, hlists⟩ := h.stored slot
    obtain ⟨offset, hoffset⟩ := hstored.exists_offset
    exact List.mem_cons_of_mem _ (hlists (List.mem_of_getElem? (hoffset i list hi hnew).2))

/-- An op-line that writes the operand of another stands in front of it, in the same list. -/
theorem precedes_of_written {owner : SlotId → Option SlotId}
    (hspread : Spread Op.operands none 0 call.before call.after
      (listNames Op.operands call.returned) [] owner)
    (hfed : Fed call.context call.before call.after lines others [])
    (hreturned : call.returned = lines :: lineBodies lines) (hmakes : call.Makes position line)
    (hmakes' : call.Makes position' line') (hslot : slot ∈ line.op.operands)
    (hwritten : slot ∈ line'.op.results) : position'.Precedes position := by
  obtain ⟨list, hlist, hline, -⟩ := hmakes.exists_list hfed hreturned
  obtain ⟨list', hlist', hline', hmade⟩ := hmakes'.exists_list hfed hreturned
  have hsame : list = list' := by
    by_contra hne
    have hapart := hfed.apart.forall hlist hlist' hne
    exact (hapart line (List.mem_of_getElem? hline) line' (List.mem_of_getElem? hline')).1 slot
      hslot hwritten
  subst hsame
  have hlt := (hfed.inOrder list hlist).lt_of_written hline hline' hslot hwritten
  -- Lists at different positions might be equal, but the reading op-line is at one position only.
  have hhere : position = position'.withLine position.line :=
    position_eq_of_role hspread hmakes (hmade _ _ hline) hslot hslot
  refine ⟨?_, ?_, hlt⟩
  · rw [hhere, Position.owner_withLine]
  · rw [hhere, Position.list_withLine]

end Call

/-- Operands are computed before they are read, and no two op-lines share one. In what a call makes
that succeeds, without a context or in one that is there, at the top level, inside functions and in
the records that it stores: a slot is in one operand of one op-line at most, and the context in none;
and an op-line that writes the operand of another stands in front of it, in the same list. -/
theorem operands_ready (call : Call) (lines : List OpLine)
    (hcontext : ∀ slot ∈ call.context, slot.index < call.before.heap.size)
    (hrun : ((compile call.nodes call.context).run.run call.before).1 = .ok lines) :
    (∀ (position position' : Position) (line line' : OpLine) (i i' : Nat) (slot : SlotId),
      call.Makes position line → call.Makes position' line' → line.op.operands[i]? = some slot →
        line'.op.operands[i']? = some slot → position = position' ∧ i = i') ∧
      (∀ (position : Position) (line : OpLine) (slot : SlotId), call.Makes position line →
        slot ∈ line.op.operands → slot ∉ call.context) ∧
      ∀ (position position' : Position) (line line' : OpLine) (slot : SlotId),
        call.Makes position line → call.Makes position' line' → slot ∈ line.op.operands →
          line'.op.result? = some slot → position'.Precedes position := by
  have hreturned : call.returned = lines :: lineBodies lines := by rw [Call.returned, hrun]
  have hends := (compile_built call.nodes).supplies call.context call.before hcontext
  obtain ⟨others, ⟨owner, hspread⟩, hfed⟩ := hends.of_run_ok (Prod.ext hrun rfl)
  replace hspread : Spread Op.operands none 0 call.before call.after
      (listNames Op.operands call.returned) [] owner := by
    -- The lists are counted in the order in which they were made, which does not matter for a
    -- count.
    rw [hreturned]
    exact hspread.perm (listNames_lineBodies_perm lines)
  refine ⟨?_, ?_, ?_⟩
  · intro position position' line line' i i' slot hmakes hmakes' hi hi'
    -- A slot has one owner, and within one line an operand has one place.
    obtain rfl : position = position' := Call.position_eq_of_role hspread hmakes hmakes'
      (List.mem_of_getElem? hi) (List.mem_of_getElem? hi')
    obtain rfl : line = line' := hmakes.unique hmakes'
    have hnodup := Call.nodup_of_role hspread hmakes
    have hlt := (List.getElem?_eq_some_iff.mp hi).1
    exact ⟨rfl, (List.getElem?_inj hlt hnodup).mp (hi.trans hi'.symm)⟩
  · intro position line slot hmakes hslot hmem
    exact Nat.not_lt.mpr (Call.added_of_role hspread hmakes hslot).1 (hcontext slot hmem)
  · intro position position' line line' slot hmakes hmakes' hslot hresult
    exact Call.precedes_of_written hspread hfed hreturned hmakes hmakes' hslot
      (Option.mem_toList.mpr hresult)

/-- A function with a parameter whose default is a sum, and a loop in its body; and a call with two
arguments. -/
def nestedOperands : List Node :=
  [⟨.stmtFunction, [], [("name", .scalar (.string "f")),
      ("params", .list [.node ⟨.param, [], [("name", .scalar (.string "p")),
        ("default", .node ⟨.exprPlus, [], [("left", .node (variableNode "d")),
          ("right", .node (variableNode "e"))]⟩)]⟩]),
      ("stmts", .list [.node ⟨.stmtWhile, [], [("cond", .node (variableNode "x")),
        ("stmts", .list [.node ⟨.stmtEcho, [],
          [("exprs", .list [.node (variableNode "y")])]⟩])]⟩])]⟩,
    ⟨.exprFuncCall, [], [("name", .node (variableNode "g")),
      ("args", .list [.node ⟨.arg, [], [("value", .node (variableNode "z"))]⟩,
        .node ⟨.arg, [], [("value", .node (variableNode "w"))]⟩])]⟩]

/-- A call that compiles `nestedOperands` into the only slot of a heap. -/
def nestedCall : Call :=
  ⟨nestedOperands, some ⟨0⟩, .added {} {}⟩

/-- `nestedCall` succeeds: five op-lines are at the top level, six in the loop in the function and
three in the record of the parameter, and operands are computed before they are read in all of
them. -/
theorem operands_ready_nested :
    (∀ slot ∈ nestedCall.context, slot.index < nestedCall.before.heap.size) ∧
      nestedCall.returned.map List.length = [5, 6] ∧
      (nestedCall.after.heap.sequencesOf ⟨7⟩).map List.length = [3] ∧
      (∀ (position position' : Position) (line line' : OpLine) (i i' : Nat) (slot : SlotId),
        nestedCall.Makes position line → nestedCall.Makes position' line' →
          line.op.operands[i]? = some slot → line'.op.operands[i']? = some slot →
            position = position' ∧ i = i') ∧
      (∀ (position : Position) (line : OpLine) (slot : SlotId), nestedCall.Makes position line →
        slot ∈ line.op.operands → slot ∉ nestedCall.context) ∧
      ∀ (position position' : Position) (line line' : OpLine) (slot : SlotId),
        nestedCall.Makes position line → nestedCall.Makes position' line' →
          slot ∈ line.op.operands → line'.op.result? = some slot →
            position'.Precedes position := by
  have hcontext : ∀ slot ∈ nestedCall.context, slot.index < nestedCall.before.heap.size := by
    rintro _ ⟨rfl⟩
    decide
  have hlengths : nestedCall.returned.map List.length = [5, 6] := by decide +kernel
  have hstored : (nestedCall.after.heap.sequencesOf ⟨7⟩).map List.length = [3] := by
    decide +kernel
  -- The lengths show that the call is not refused.
  rcases hrun : ((compile nestedCall.nodes nestedCall.context).run.run nestedCall.before).1
    with e | lines
  · rw [Call.returned, hrun] at hlengths
    cases hlengths
  · exact ⟨hcontext, hlengths, hstored, operands_ready nestedCall lines hcontext hrun⟩

end Lowering
