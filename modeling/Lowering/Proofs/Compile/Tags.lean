import Lowering.Proofs.Compile.Linkable

/-!
# Tags and values

A slot has a value and a type tag. A compiler writes slots in four ways: a new slot is empty or
holds a literal, a literal node assigns its value, the one literal of a field is folded in, and
arguments and parameters are appended. The first two tag the slot as its value calls for, folding
tags it as a string, and appending as an array. So whatever a slot held before, its tag suits its
value once it has been written.

That makes a suitable tag a condition which no single change of the state takes away
(`CompileState.Stable`), and such a condition survives every compilation (`Built.maintains`). The
slots that can be found from compiled code were empty or not there before, so all of them are tagged
suitably, and so are the entries of the linked image (`compiled_slots_tagged`).
-/

namespace Lowering

open CompileM Emitter

/-! ## Conditions that stay -/

/-- A condition on states that no single change of a compiler takes away. -/
structure CompileState.Stable (p : CompileState → Prop) : Prop where
  noted {state : CompileState} (event : Event) : p state → p (state.noted event)
  advanced {state : CompileState} : p state → p state.advanced
  added {state : CompileState} {value : Value} :
    value.IsLiteral → p state → p (state.added (.ofValue value))
  folded {state : CompileState} (slot : SlotId) (literal : Scalar) :
    p state → p (state.written slot fun _ => .ofLiteral literal)
  assigned {state : CompileState} (slot : SlotId) {value : Value} :
    value.IsLiteral → p state → p (state.written slot fun _ => .ofValue value)
  pushed {state : CompileState} (slot : SlotId) (element : Value) :
    p state → p (state.written slot (.push element))

namespace CompileState.Stable

variable {p : CompileState → Prop} {state : CompileState}

/-- An empty slot holds the null literal. -/
theorem added_empty (hp : Stable p) (hstate : p state) : p (state.added {}) := by
  have hnull : Value.null.IsLiteral := by simp [Value.IsLiteral]
  exact hp.added hnull hstate

/-- Reporting misplaced nodes takes no stable condition away. -/
theorem notedMisplaced (hp : Stable p) (kinds : List NodeKind) (hstate : p state) :
    p (state.notedMisplaced kinds) := by
  induction kinds generalizing state with
  | nil => exact hstate
  | cons kind rest ih => exact ih (hp.noted _ hstate)

/-- Finding the slot to write takes no stable condition away. -/
theorem withResult (hp : Stable p) (context : Option SlotId) (hstate : p state) :
    p (state.withResult context) := by
  cases context with
  | none => exact hp.added_empty hstate
  | some _ => exact hstate

end CompileState.Stable

open CompileState (Stable)

namespace Emitter

/-- A condition holds where an emitter ends if it held where the emitter began. -/
def Maintains (p : CompileState → Prop) (emitter : Emitter) : Prop :=
  ∀ context state, p state → Ends (emitter context) state (fun _ => p) fun _ => p

variable {p : CompileState → Prop}

/-- An emitter that other steps follow. -/
theorem Maintains.ends {emitter : Emitter} (h : emitter.Maintains p) {context : Option SlotId}
    {state : CompileState} (hstate : p state) {done : List OpLine → CompileState → Prop}
    (hdone : ∀ ops after, p after → done ops after) :
    Ends (emitter context) state done fun _ => p :=
  (h context state hstate).mono hdone fun _ _ hfails => hfails

/-- No code takes no condition away. -/
theorem maintains_skip : skip.Maintains p :=
  fun _ _ hstate => ends_skip.mpr hstate

/-- One piece and then another take nothing away if neither of them does. -/
theorem maintains_append {first second : Emitter} (hfirst : first.Maintains p)
    (hsecond : second.Maintains p) : (append first second).Maintains p := by
  intro context state hstate
  rw [ends_append]
  exact hfirst.ends hstate fun _ _ hops => hsecond.ends hops fun _ _ hmore => hmore

/-- A literal changes a slot or adds to the log. -/
theorem maintains_folded (hp : Stable p) (literal : Scalar) : (folded literal).Maintains p := by
  intro context state hstate
  cases context with
  | none =>
    rw [ends_folded_none]
    exact hp.noted _ hstate
  | some slot =>
    rw [ends_folded_some]
    exact hp.folded slot literal hstate

/-- A constant changes a slot and adds to the log. -/
theorem maintains_constant (hp : Stable p) {literal : Constant}
    (hliteral : literal.value.IsLiteral) : (constant literal).Maintains p := by
  intro context state hstate
  cases context with
  | none =>
    rw [ends_constant_none]
    exact hstate
  | some slot =>
    rw [ends_constant_some]
    exact hp.assigned slot hliteral (hp.notedMisplaced _ hstate)

/-- An operation on one operand adds slots and hands out a handle. -/
theorem maintains_unary (hp : Stable p) {operand : Emitter} (kind : UnaryKind)
    (h : operand.Maintains p) : (unary kind operand).Maintains p := by
  intro context state hstate
  rw [ends_unary]
  refine h.ends (hp.added_empty hstate) fun _ _ hops => ?_
  exact hp.advanced (hp.withResult context hops)

/-- An operation on two operands adds slots and hands out a handle. -/
theorem maintains_binary (hp : Stable p) {left right : Emitter} (kind : BinaryKind)
    (hleft : left.Maintains p) (hright : right.Maintains p) :
    (binary kind left right).Maintains p := by
  intro context state hstate
  rw [ends_binary]
  refine hleft.ends (hp.added_empty (hp.added_empty hstate)) fun _ _ hops => ?_
  refine hright.ends hops fun _ _ hmore => ?_
  exact hp.advanced (hp.withResult context hmore)

/-- An argument adds a slot and changes the context. -/
theorem maintains_argument (hp : Stable p) {value : Emitter} (h : value.Maintains p) :
    (argument value).Maintains p := by
  intro context state hstate
  rw [ends_argument]
  refine h.ends (hp.added_empty hstate) fun _ _ hops => ?_
  cases context with
  | none => exact hops
  | some slot => exact hp.pushed slot _ hops

/-- Text between the statements adds slots and hands out a handle. -/
theorem maintains_inlineText (hp : Stable p) {text : Constant} (htext : text.value.IsLiteral) :
    (inlineText text).Maintains p := by
  intro context state hstate
  rw [ends_inlineText]
  exact hp.advanced (hp.added_empty (hp.added htext (hp.notedMisplaced _ hstate)))

/-- A parameter adds a slot and changes the context. -/
theorem maintains_parameter (hp : Stable p) {default : Emitter} (declaration : Declaration)
    (h : default.Maintains p) : (parameter declaration default).Maintains p := by
  intro context state hstate
  rw [ends_parameter]
  refine h.ends (hp.added_empty hstate) fun _ _ hops => ?_
  cases context with
  | none => exact hops
  | some slot => exact hp.pushed slot _ hops

/-- A function adds slots and hands out a handle. -/
theorem maintains_function (hp : Stable p) {body name params : Emitter} (hbody : body.Maintains p)
    (hname : name.Maintains p) (hparams : params.Maintains p) :
    (function body name params).Maintains p := by
  intro context state hstate
  rw [ends_function]
  refine hbody.ends hstate fun _ _ hstmts => ?_
  refine hname.ends (hp.added_empty hstmts) fun _ _ hops => ?_
  have hliteral : (Value.array []).IsLiteral := by simp [Value.IsLiteral, AllLiteral]
  refine hparams.ends (hp.added hliteral hops) fun _ _ hmore => ?_
  exact hp.advanced (hp.noted _ hmore)

/-- A guarded branch adds a slot and hands out handles. -/
theorem maintains_guardedTo (hp : Stable p) {branch : Branch}
    (target : List OpLine → OpLine → OpId) (hcond : branch.cond.Maintains p)
    (hstmts : branch.stmts.Maintains p) : Maintains p fun _ => guardedTo target branch := by
  intro context state hstate
  rw [ends_guardedTo]
  refine hcond.ends (hp.added_empty hstate) fun _ _ htest => ?_
  exact hstmts.ends (hp.advanced (hp.advanced htest)) fun _ _ hops => hp.advanced hops

/-- A conditional takes nothing away that its branches and the statements behind them do not. -/
theorem maintains_conditional (hp : Stable p) {branches : List Branch} {otherwise : Emitter}
    (hcond : ∀ branch ∈ branches, branch.cond.Maintains p)
    (hstmts : ∀ branch ∈ branches, branch.stmts.Maintains p) (hotherwise : otherwise.Maintains p) :
    (conditional branches otherwise).Maintains p := by
  intro context state hstate
  rw [ends_conditional]
  -- The handle of the common end is taken before the first branch.
  have hguarded : Maintains p fun _ => guardedAll state.handle branches :=
    guardedAll_induction (Maintains p) maintains_skip maintains_append state.handle
      fun branch hbranch =>
        maintains_guardedTo hp _ (hcond branch hbranch) (hstmts branch hbranch)
  refine (hguarded none _ (hp.advanced hstate)).mono (fun _ _ hops => ?_) fun _ _ hfails => hfails
  exact hotherwise.ends hops fun _ _ hmore => hmore

/-- A loop that tests last adds a slot and hands out a handle. -/
theorem maintains_doLoop (hp : Stable p) {loop : Branch} (hcond : loop.cond.Maintains p)
    (hstmts : loop.stmts.Maintains p) : (doLoop loop).Maintains p := by
  intro context state hstate
  rw [ends_doLoop]
  refine hstmts.ends (hp.added_empty hstate) fun _ _ hops => ?_
  exact hcond.ends hops fun _ _ htest => hp.advanced htest

/-- A condition that no single change takes away survives every emitter that is built. -/
theorem Built.maintains {emitter : Emitter} (h : Built emitter) (hp : Stable p) :
    emitter.Maintains p := by
  induction h with
  | skip => exact maintains_skip
  | append _ _ hfirst hsecond => exact maintains_append hfirst hsecond
  | noting event _ h => exact fun context _ hstate => h context _ (hp.noted event hstate)
  | unsupported _ => exact fun _ _ hstate => hstate
  | dropped _ => exact fun _ _ hstate => hp.noted _ hstate
  | folded literal => exact maintains_folded hp literal
  | constant hliteral => exact maintains_constant hp hliteral
  | unary kind _ h => exact maintains_unary hp kind h
  | binary kind _ _ hleft hright => exact maintains_binary hp kind hleft hright
  | argument _ h => exact maintains_argument hp h
  | inlineText htext => exact maintains_inlineText hp htext
  | parameter declaration _ h => exact maintains_parameter hp declaration h
  | function _ _ _ hbody hname hparams => exact maintains_function hp hbody hname hparams
  | conditional _ _ _ hcond hstmts hotherwise =>
    exact maintains_conditional hp hcond hstmts hotherwise
  | whileLoop _ _ hcond hstmts =>
    rw [whileLoop_eq_guardedTo]
    exact maintains_guardedTo hp _ hcond hstmts
  | doLoop _ _ hcond hstmts => exact maintains_doLoop hp hcond hstmts

end Emitter

/-! ## Suitable tags -/

/-- A tag suits a value that calls for a tag of its own: it is that tag, or it is that of a string
and the value is a literal. So arrays are tagged as such, nothing is tagged as a reference, and a
tag that is neither that of a string nor that of an array is right about its value. -/
structure TypeTag.Suits (type called : TypeTag) : Prop where
  tag : type = called ∨ type = .string ∧ called ∈ [.bool, .long, .double, .string]
  array : called = .array → type = .array
  not_ref : type ≠ .ref
  truthful : type ∈ [.null, .bool, .long, .double] → called = type

/-- The first condition gives the others wherever the value is no slot. -/
theorem TypeTag.Suits.of_tag {type called : TypeTag}
    (htag : type = called ∨ type = .string ∧ called ∈ [.bool, .long, .double, .string])
    (hcalled : called ≠ .ref) : type.Suits called := by
  refine ⟨htag, ?_, ?_, ?_⟩ <;> rcases htag with rfl | ⟨rfl, hmem⟩
  · exact id
  · rintro rfl
    simp at hmem
  · exact hcalled
  · decide
  · exact fun _ => rfl
  · simp

/-- The tag of a cell suits its value. -/
def Cell.Tagged (cell : Cell) : Prop :=
  cell.type.Suits cell.value.typeTag

namespace Cell

/-- A cell that is made of a value of literals has the tag of that value. -/
theorem tagged_ofValue {value : Value} (h : value.IsLiteral) : (ofValue value).Tagged := by
  refine .of_tag (Or.inl rfl) ?_
  cases value <;> simp_all [ofValue, Value.typeTag, Value.IsLiteral]

/-- An empty cell has the tag of what it holds. -/
theorem tagged_empty : Tagged {} := by
  have hnull : Value.null.IsLiteral := by simp [Value.IsLiteral]
  exact tagged_ofValue hnull

/-- A cell that is made of a literal is tagged as a string, which suits every literal. -/
theorem tagged_ofLiteral (literal : Scalar) : (ofLiteral literal).Tagged := by
  have hcalled : literal.toValue.typeTag ∈ [.bool, .long, .double, .string] := by
    cases literal <;> simp [Scalar.toValue, Value.typeTag]
  refine .of_tag (Or.inr ⟨rfl, hcalled⟩) fun (href : literal.toValue.typeTag = .ref) => ?_
  simp [href] at hcalled

/-- A cell that takes an element holds an array and is tagged as one. -/
theorem tagged_push (cell : Cell) (element : Value) : (cell.push element).Tagged :=
  .of_tag (Or.inl rfl) (by simp [push, Value.typeTag])

end Cell

/-- A slot that is tagged suitably stays so: whatever is written brings a suitable tag along. -/
theorem stable_tagged (slot : SlotId) :
    Stable fun state => (state.heap.get slot).Tagged := by
  have hwritten {state : CompileState} {target : SlotId} {change : Cell → Cell}
      (hchange : ∀ cell, (change cell).Tagged) (hslot : (state.heap.get slot).Tagged) :
      ((state.written target change).heap.get slot).Tagged := by
    rw [CompileState.written_heap, Heap.get_modify]
    split
    · exact hchange _
    · exact hslot
  refine ⟨fun _ => id, id, ?_, ?_, ?_, ?_⟩
  · intro state value hvalue hslot
    rw [CompileState.added_heap, Heap.get_add]
    split
    · exact Cell.tagged_ofValue hvalue
    · exact hslot
  · exact fun _ literal => hwritten fun _ => Cell.tagged_ofLiteral literal
  · exact fun _ _ hvalue => hwritten fun _ => Cell.tagged_ofValue hvalue
  · exact fun _ element => hwritten fun cell => cell.tagged_push element

/-! ## Images -/

/-- The tag that a value of an image calls for. -/
def ValueImage.typeTag : ValueImage → TypeTag
  | .null => .null
  | .bool _ => .bool
  | .long _ => .long
  | .double _ => .double
  | .string _ => .string
  | .array _ | .param _ => .array
  | .slot _ => .ref

/-- The tag of an entry of the slot table suits its value. -/
def SlotImage.Tagged (entry : SlotImage) : Prop :=
  entry.type.Suits entry.value.typeTag

/-- The linked form of a value calls for the same tag. -/
theorem Value.typeTag_placed (place : SlotId → SlotRef) (value : Value) :
    (value.placed place).typeTag = value.typeTag := by
  cases value <;> simp [Value.placed, ValueImage.typeTag, Value.typeTag]

/-- The entry of a slot is tagged suitably if the slot is. -/
theorem Heap.tagged_entry {heap : Heap} {slot : SlotId} (h : (heap.get slot).Tagged)
    (place : SlotId → SlotRef) : (heap.entry place slot).Tagged := by
  rw [SlotImage.Tagged, Heap.entry, Value.typeTag_placed]
  exact h

/-! ## Calls -/

/-- Tags suit values, except that a folded literal is tagged as a string. When statements have been
compiled without a context or in an empty one, this is so of every slot that can be found from the
op-lines or from the context, and of every entry of the linked image. The places of the entries are
words, and in an image of more slots than words a value may stand in the entry of another slot. -/
theorem compiled_slots_tagged {nodes : List Node} {context : Option SlotId}
    {state after : CompileState} {lines : List OpLine}
    (hempty : ∀ slot ∈ context, state.heap.get slot = {})
    (hrun : (compile nodes context).run.run state = (.ok lines, after)) :
    (∀ slot, Reach after.heap (lineSlots lines ++ context.toList) slot →
      (after.heap.get slot).Tagged) ∧
    ∀ image, link after.heap lines = .ok image → image.slots.length ≤ 2 ^ 32 →
      ∀ entry ∈ image.slots, entry.Tagged := by
  -- The context and the slots that are not there yet are empty before the call.
  let territory : Territory := ⟨(· ∈ context), state.heap.size⟩
  have hbefore : ∀ slot, territory.Owns slot → state.heap.get slot = {} := fun slot hslot =>
    hslot.elim (hempty slot) Heap.get_of_size_le
  have hsealed : territory.Sealed state := by
    refine ⟨le_rfl, fun slot hslot => ?_⟩
    rw [hbefore slot hslot]
    exact Territory.sealedValue_of_isLiteral (by simp [Value.IsLiteral])
  have hemits :=
    ((compile_built nodes).keeps context state (fun _ => Or.inl) hsealed).of_run_ok hrun
  have htagged : ∀ slot, territory.Owns slot → (after.heap.get slot).Tagged := by
    intro slot hslot
    refine ((compile_built nodes).maintains (stable_tagged slot) context state ?_).of_run_ok hrun
    rw [hbefore slot hslot]
    exact Cell.tagged_empty
  have hlines : ∀ slot ∈ lineSlots lines, territory.Owns slot := hemits.emission.owned
  refine ⟨fun slot hreach => htagged slot ?_, fun image himage hsmall entry hentry => ?_⟩
  · refine hemits.isSealed.owns_of_reach (List.forall_mem_append.mpr ⟨hlines, ?_⟩) hreach
    exact fun other hother => Or.inl (Option.mem_toList.mp hother)
  · have hlinked := link_eq_ok himage
    rw [hlinked.slots hsmall] at hentry
    obtain ⟨slot, hslot, rfl⟩ := List.mem_map.mp hentry
    have howns := hemits.isSealed.owns_of_reach hlines ((hlinked.mem_iff slot).mp hslot)
    exact Heap.tagged_entry (htagged slot howns) _

/-- A literal that is assigned to the context, an argument that takes its place, and an operation
with the context as its result. -/
def rewrittenNodes : List Node :=
  [⟨.scalarString, [], [("value", .scalar (.string "s"))]⟩,
    ⟨.arg, [], [("value", .scalar (.long 5))]⟩, variableNode "x"]

/-- The op-lines of `rewrittenNodes` in a new context. -/
def rewrittenLines : List OpLine :=
  [⟨⟨0⟩, .unary .fetchVariable ⟨2⟩ ⟨0⟩⟩]

/-- The state behind `rewrittenNodes` in a new context. -/
def rewrittenState : CompileState :=
  ((compile rewrittenNodes (some ⟨0⟩)).run.run (CompileState.added {} {})).2

/-- The context of `rewrittenNodes` held a string before it became an array, and the integer in the
slot of the argument is tagged as a string. Both tags are suitable, and so are the others. -/
theorem compiled_slots_tagged_rewritten :
    (rewrittenState.heap.get ⟨0⟩ = ⟨.array [.slot ⟨1⟩], .array⟩ ∧
      rewrittenState.heap.get ⟨1⟩ = ⟨.long 5, .string⟩) ∧
    (∀ slot, Reach rewrittenState.heap (lineSlots rewrittenLines ++ [⟨0⟩]) slot →
      (rewrittenState.heap.get slot).Tagged) ∧
    ∀ image, link rewrittenState.heap rewrittenLines = .ok image →
      image.slots.length ≤ 2 ^ 32 → ∀ entry ∈ image.slots, entry.Tagged := by
  have hrun : (compile rewrittenNodes (some ⟨0⟩)).run.run (CompileState.added {} {}) =
      (.ok rewrittenLines, rewrittenState) := Prod.ext rfl (by rw [rewrittenState])
  have hempty : ∀ slot ∈ some (⟨0⟩ : SlotId), (CompileState.added {} {}).heap.get slot = {} := by
    rintro _ ⟨rfl⟩
    rfl
  exact ⟨⟨rfl, rfl⟩, compiled_slots_tagged hempty hrun⟩

end Lowering
