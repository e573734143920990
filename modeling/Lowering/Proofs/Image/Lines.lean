import Mathlib.Data.List.Forall2
import Lowering.Proofs.Image.Readability

/-!
# The lines of the op-lines

A listing is a text, and whoever looks at it sees lines. `Text.linesOf` cuts a text at its line
breaks, and lines that were put together come apart again as long as none of them holds a line break
itself (`linesOf_lineChars`). The lines of op-lines never do. Beside margins, numerals, mnemonics
and what stands between them, they have the mark of a target and the directions of jumps, and these
occur nowhere else in them (`mem_opLine`).

`Standing` is an op-line where it stands: at a level of nesting, among the op-lines of its own
sequence. `standings` goes through a program in the order of the listing, and
`Image.listing_marks_targets` says what the line of each op-line shows: its margin, its position,
whether a jump of the same sequence goes to it, and the direction in which it jumps itself.
-/

namespace Lowering

namespace Text

/-- The lines of a text are what stands between its line breaks. Behind a line break that ends the
text is one more line, which is empty. -/
def linesOf (s : String) : List String :=
  (s.toList.splitOn '\n').map String.ofList

/-- A text without a line break. -/
def OneLine (s : String) : Prop :=
  '\n' ∉ s.toList

instance (s : String) : Decidable (OneLine s) :=
  inferInstanceAs (Decidable ('\n' ∉ s.toList))

/-- Two texts together are one line if both are. -/
@[simp] theorem oneLine_append {s t : String} : OneLine (s ++ t) ↔ OneLine s ∧ OneLine t := by
  simp [OneLine]

/-- Lines that hold no line breaks are found again, in front of any text. -/
theorem linesOf_lineChars {s : String} {lines : List String} {rest : List Char}
    (h : ∀ line ∈ lines, OneLine line) (hs : s.toList = lineChars lines ++ rest) :
    linesOf s = lines ++ (rest.splitOn '\n').map String.ofList := by
  unfold linesOf
  rw [hs]
  clear hs
  induction lines with
  | nil => rfl
  | cons line lines ih =>
    obtain ⟨hline, hlines⟩ := List.forall_mem_cons.mp h
    rw [lineChars_cons, List.append_assoc, List.cons_append,
      List.splitOn_append_cons_self_of_not_mem hline, List.map_cons, ih hlines,
      String.ofList_toList]
    rfl

/-- Four digits are the decimal digits, filled up with zeros from the left. -/
theorem toList_fourDigits (n : Nat) :
    (fourDigits n).toList = (Nat.toDigits 10 n).leftpad 4 '0' := by
  simp [fourDigits, padLeft, List.leftpad, Nat.toList_repr, ← String.length_toList]

end Text

open Text

/-! ## Signs -/

/-- The characters that tell something by themselves: a line break, the mark of a target, and the
directions of jumps. -/
def signs : List Char :=
  ['\n', '►', '↑', '↓']

/-- A text without signs. -/
def Unsigned (s : List Char) : Prop :=
  ∀ c ∈ s, c ∉ signs

instance (s : List Char) : Decidable (Unsigned s) :=
  List.decidableBAll (fun c => c ∉ signs) s

namespace Unsigned

variable {s t : List Char}

/-- Two texts without signs have none together. -/
theorem append (hs : Unsigned s) (ht : Unsigned t) : Unsigned (s ++ t) :=
  List.forall_mem_append.mpr ⟨hs, ht⟩

/-- No sign stands in a text without signs. -/
theorem not_mem (hs : Unsigned s) {c : Char} (hc : c ∈ signs) : c ∉ s :=
  fun hmem => hs c hmem hc

/-- Characters of a kind that no sign is of. -/
theorem of_kind {kind : Char → Bool} (hkind : signs.any kind = false)
    (hs : ∀ c ∈ s, kind c) : Unsigned s := by
  intro c hc hsign
  exact List.any_eq_false.mp hkind c hsign (hs c hc)

/-- Blanks are no signs. -/
theorem blanks (n : Nat) : Unsigned (List.replicate n ' ') := by
  have hblank : ∀ c ∈ List.replicate n ' ', c == ' ' := by simp
  exact of_kind (by decide) hblank

end Unsigned

/-- Digits are no signs. -/
theorem Text.Denotes.unsigned {numeral : List Char} {n : Nat} (h : Denotes numeral n) :
    Unsigned numeral :=
  .of_kind (by decide) h.digits

/-- A slot is shown without signs. -/
theorem SlotRef.text_unsigned (slot : SlotRef) : Unsigned slot.text.toList := by
  rw [SlotRef.text, String.toList_append]
  exact Unsigned.append (by decide) (denotes_repr _).unsigned

/-- The sign for the direction in which a jump goes: back or onto itself, or ahead. -/
def direction (position : Nat) (target : UInt32) : Char :=
  if target.toNat ≤ position then '↑' else '↓'

/-- Only an arrow is the direction of a jump. -/
theorem ne_direction {c : Char} (hup : c ≠ '↑') (hdown : c ≠ '↓') (position : Nat)
    (target : UInt32) : c ≠ direction position target := by
  unfold direction
  split
  · exact hup
  · exact hdown

section

variable {c : Char} {position : Nat}

/-- The only sign in an arrow is its direction. -/
theorem mem_arrow (hc : c ∈ signs) {target : UInt32} :
    c ∈ (arrow position target).toList ↔ c = direction position target := by
  have hparts : (arrow position target).toList = direction position target ::
      (" (→ ".toList ++ (fourDigits target.toNat).toList ++ [')']) := by
    unfold arrow direction
    split <;> simp
  have hrest : Unsigned (" (→ ".toList ++ (fourDigits target.toNat).toList ++ [')']) :=
    (Unsigned.append (by decide) (denotes_fourDigits _).unsigned).append (by decide)
  rw [hparts, List.mem_cons, or_iff_left (hrest.not_mem hc)]

/-- The only sign in the text of an op-line is the direction of a jump. -/
theorem LinkedOp.mem_text (hc : c ∈ signs) (op : LinkedOp) :
    c ∈ (op.text position).toList ↔
      ∃ target, op.target? = some target ∧ c = direction position target := by
  have hmnemonic : Unsigned op.action.mnemonic.toList :=
    .of_kind (by decide) op.action.isLetter_of_mem_mnemonic
  rw [op.toList_text position, List.mem_append, List.mem_append,
    or_iff_right (hmnemonic.not_mem hc), or_iff_right ((Unsigned.blanks _).not_mem hc)]
  have hslot (slot : SlotRef) : c ∉ slot.text.toList := slot.text_unsigned.not_mem hc
  -- What stands between the operands is made of these characters.
  have hbetween : Unsigned " ->,params".toList := by decide
  have hfixed := hbetween.not_mem hc
  simp only [String.reduceToList, List.mem_cons, List.not_mem_nil, or_false, not_or] at hfixed
  cases op <;> simp [operands, target?, hslot, mem_arrow hc, hfixed]

/-- The signs in the line of an op-line are the mark of a target and the direction of a jump. -/
theorem mem_opLine (hc : c ∈ signs) (level : Nat) (targets : List Nat) (op : LinkedOp) :
    c ∈ (opLine level targets position op).toList ↔ c = '►' ∧ position ∈ targets ∨
      ∃ target, op.target? = some target ∧ c = direction position target := by
  have hmargin : c ∉ (margin level).toList := by
    rw [margin, String.toList_ofList]
    exact (Unsigned.blanks _).not_mem hc
  have hposition : c ∉ (fourDigits position).toList := (denotes_fourDigits _).unsigned.not_mem hc
  have hblank : c ≠ ' ' := by
    rintro rfl
    exact absurd hc (by decide)
  by_cases htarget : position ∈ targets <;>
    simp [opLine, htarget, hmargin, hposition, hblank, op.mem_text hc]

end

/-- The line of an op-line is one line. -/
theorem opLine_oneLine (level : Nat) (targets : List Nat) (position : Nat) (op : LinkedOp) :
    OneLine (opLine level targets position op) := by
  intro hbreak
  rw [mem_opLine (by decide)] at hbreak
  rcases hbreak with ⟨hmark, -⟩ | ⟨target, -, hdirection⟩
  · exact absurd hmark (by decide)
  · exact ne_direction (by decide) (by decide) position target hdirection

/-! ## Op-lines where they stand -/

/-- An op-line where it stands: the level of nesting, and the op-lines of its own sequence before
and after it. -/
structure Standing where
  level : Nat
  before : List LinkedOp
  op : LinkedOp
  after : List LinkedOp

namespace Standing

/-- The sequence that an op-line stands in. -/
def sequence (standing : Standing) : List LinkedOp :=
  standing.before ++ standing.op :: standing.after

/-- The position of an op-line in its sequence. -/
def position (standing : Standing) : Nat :=
  standing.before.length

/-- Some jump of the same sequence goes to the op-line. -/
def IsTarget (standing : Standing) : Prop :=
  ∃ jump ∈ standing.sequence, ∃ target, jump.target? = some target ∧
    target.toNat = standing.position

/-- A line shows an op-line where it stands. Behind a margin of two blanks for each level come the
position, filled up to four digits, a mark or a blank, and the text of the op-line. The mark is
there exactly if a jump of the same sequence goes to the position, and the direction of a jump is up
exactly if its target is not behind the position; neither sign stands anywhere else in the line. -/
structure ShownBy (standing : Standing) (line : String) : Prop where
  oneLine : OneLine line
  layout : ∃ mark, line.toList = List.replicate (2 * standing.level) ' ' ++
      (Nat.toDigits 10 standing.position).leftpad 4 '0' ++
      ' ' :: mark :: ' ' :: (standing.op.text standing.position).toList ∧
    (mark = '►' ∧ standing.IsTarget ∨ mark = ' ' ∧ ¬ standing.IsTarget)
  marked : '►' ∈ line.toList ↔ standing.IsTarget
  up : '↑' ∈ line.toList ↔ ∃ target, standing.op.target? = some target ∧
    target.toNat ≤ standing.position
  down : '↓' ∈ line.toList ↔ ∃ target, standing.op.target? = some target ∧
    standing.position < target.toNat

end Standing

mutual

/-- The op-lines in the body of a function at a level, where they stand; others have no body. -/
def LinkedOp.standings (level : Nat) : LinkedOp → List Standing
  | .functionDef _ body _ => standingsFrom (level + 1) [] body
  | _ => []

/-- The rest of a sequence at a level behind op-lines before it, where each stands, with the body of
a function right behind it and one level further in. -/
def standingsFrom (level : Nat) (before : List LinkedOp) : List LinkedOp → List Standing
  | [] => []
  | op :: after =>
    ⟨level, before, op, after⟩ :: (op.standings level ++ standingsFrom level (before ++ [op]) after)

end

/-- The op-lines of a program where they stand, in the order of the listing. -/
def standings (ops : List LinkedOp) : List Standing :=
  standingsFrom 0 [] ops

/-- The positions that jumps go to are looked up in the sequence of the op-line. -/
theorem Standing.isTarget_iff (standing : Standing) :
    standing.IsTarget ↔ standing.position ∈ jumpTargets standing.sequence := by
  simp [Standing.IsTarget, jumpTargets]

/-- The line that a listing has for an op-line shows it. -/
theorem Standing.shownBy_opLine (standing : Standing) : standing.ShownBy
    (opLine standing.level (jumpTargets standing.sequence) standing.position standing.op) := by
  refine ⟨opLine_oneLine _ _ _ _, ?_, ?_, ?_, ?_⟩
  · rw [isTarget_iff]
    by_cases htarget : standing.position ∈ jumpTargets standing.sequence
    · exact ⟨'►', by simp [opLine, margin, htarget, toList_fourDigits], Or.inl ⟨rfl, htarget⟩⟩
    · exact ⟨' ', by simp [opLine, margin, htarget, toList_fourDigits], Or.inr ⟨rfl, htarget⟩⟩
  · rw [mem_opLine (by decide), isTarget_iff, or_iff_left]
    · simp
    · rintro ⟨target, -, hdirection⟩
      exact ne_direction (by decide) (by decide) standing.position target hdirection
  · rw [mem_opLine (by decide), or_iff_right (by simp)]
    simp [direction]
  · rw [mem_opLine (by decide), or_iff_right (by simp)]
    simp [direction]

mutual

/-- The body of a function is shown one level further in, each op-line where it stands. -/
theorem LinkedOp.body_shown (level : Nat) : ∀ op : LinkedOp,
    List.Forall₂ Standing.ShownBy (op.standings level)
      (opLines (level + 1) (jumpTargets op.body) 0 op.body)
  | .functionDef _ body _ => by
    rw [LinkedOp.standings, LinkedOp.body]
    exact opLines_shown (level + 1) [] body
  | .unary _ _ _ | .binary _ _ _ _ | .jumpTo _ | .jumpIf _ _ | .jumpIfNot _ _ | .noOp => by
    simp [LinkedOp.standings, LinkedOp.body, opLines]

/-- The lines of the rest of a sequence show its op-lines where they stand. The targets are those of
the whole sequence, so they are the same on every line of it. -/
theorem opLines_shown (level : Nat) (before : List LinkedOp) : ∀ ops : List LinkedOp,
    List.Forall₂ Standing.ShownBy (standingsFrom level before ops)
      (opLines level (jumpTargets (before ++ ops)) before.length ops)
  | [] => by simp [standingsFrom, opLines]
  | op :: after => by
    have hline := Standing.shownBy_opLine ⟨level, before, op, after⟩
    have hafter := opLines_shown level (before ++ [op]) after
    rw [List.append_assoc, List.singleton_append, List.length_append,
      List.length_singleton] at hafter
    rw [standingsFrom, opLines, LinkedOp.lines_eq, List.cons_append]
    exact .cons hline (List.rel_append (LinkedOp.body_shown level op) hafter)

end

/-! ## The section of the op-lines -/

/-- The lines of a program show its op-lines where they stand. -/
theorem programLines_shown (ops : List LinkedOp) :
    List.Forall₂ Standing.ShownBy (standings ops) (programLines ops) :=
  opLines_shown 0 [] ops

/-- No line of a program has a line break in it. -/
theorem programLines_oneLine (ops : List LinkedOp) : ∀ line ∈ programLines ops, OneLine line := by
  have hlines : List.Forall₂ (fun line standing => OneLine line ∧ standing.ShownBy line)
      (programLines ops) (standings ops) :=
    ((programLines_shown ops).imp fun _ _ hshown => ⟨hshown.oneLine, hshown⟩).flip
  exact ((List.forall₂_and_left _ _).mp hlines).1

/-- A number is written without a line break. -/
theorem oneLine_repr (n : Nat) : OneLine n.repr :=
  (denotes_repr n).unsigned.not_mem (by decide)

/-- The head of a section is written without line breaks, if its words are. -/
theorem sectionHead_oneLine {title unit : String} (htitle : OneLine title) (hunit : OneLine unit)
    (count : Nat) : ∀ line ∈ sectionHead title count unit, OneLine line := by
  have hblank : OneLine " " := by decide
  have hrule : OneLine rule := by
    unfold OneLine rule
    rw [String.toList_ofList]
    intro hbreak
    exact absurd (List.eq_of_mem_replicate hbreak) (by decide)
  simp [sectionHead, htitle, hunit, hblank, hrule, oneLine_repr]

/-- A listing marks exactly the targets of jumps, each in its own sequence. Between the head of the
first section and an empty line it has one line for each op-line, in order, with the lines of a
body one level further in behind the line of its function, and each line shows its op-line where it
stands. -/
theorem Image.listing_marks_targets (image : Image) : ∃ lines rest,
    linesOf image.listing =
      sectionHead "main" image.ops.length "op-lines" ++ lines ++ "" :: rest ∧
    List.Forall₂ Standing.ShownBy (standings image.ops) lines := by
  have hlines : ∀ line ∈ sectionHead "main" image.ops.length "op-lines" ++
      programLines image.ops ++ [""], OneLine line := by
    simp only [List.forall_mem_append, List.forall_mem_singleton]
    exact ⟨⟨sectionHead_oneLine (by decide) (by decide) _, programLines_oneLine _⟩, by decide⟩
  obtain ⟨rest, hchars⟩ : ∃ rest, image.listing.toList = lineChars
      (sectionHead "main" image.ops.length "op-lines" ++ programLines image.ops ++ [""]) ++ rest := by
    rw [Image.toList_listing, Image.listingLines, List.append_assoc, lineChars_append]
    exact ⟨_, rfl⟩
  refine ⟨programLines image.ops, (rest.splitOn '\n').map String.ofList, ?_,
    programLines_shown image.ops⟩
  rw [linesOf_lineChars hlines hchars, List.append_assoc, List.singleton_append]

end Lowering
