import Mathlib.Data.List.Nodup
import Lowering.Image.Listing

/-!
# The op-lines in a listing

A listing shows everything about the op-lines of an image, although nothing in it is marked off but
by its layout. The lemmas `append_inj` say of one part after the other that it can be read: texts
that begin with such parts and are equal have equal parts in front and equal texts behind. A numeral
ends where the digits do, and the mnemonic of a line ends where its letters do, so the rest of the
line follows from what the mnemonic stands for (`LinkedOp.text_append_inj`).

A body ends in front of the first line that stands further out, which is what `Outside` says of the
text behind it. Lines of one level are `Legible`: behind them comes either an op-line of the same
level, which starts with its position, or something outside. The step from a list to one with an
op-line more takes the body one level further in, so the bodies and the lists are done together
(`legible`). What stands behind the op-lines does not have to be read for this, except for the
number of slots.
-/

namespace Lowering

variable {s t : List Char}

/-! ## Runs of characters -/

namespace Text

/-- A text does not begin with a character of a kind, so a run of them ends in front of it. -/
def EndsRun (kind : Char → Bool) (s : List Char) : Prop :=
  ∀ c ∈ s.head?, kind c = false

/-- A run ends where a character of another kind begins. -/
@[simp] theorem endsRun_cons {kind : Char → Bool} {c : Char} :
    EndsRun kind (c :: s) ↔ kind c = false := by
  simp [EndsRun]

/-- A run is found again in front of a text that ends it. -/
theorem takeWhile_append_of_endsRun {kind : Char → Bool} {run : List Char}
    (hrun : ∀ c ∈ run, kind c) (hs : EndsRun kind s) : (run ++ s).takeWhile kind = run := by
  rw [List.takeWhile_append_of_pos hrun]
  cases s with
  | nil => simp
  | cons c s => simp [endsRun_cons.mp hs]

/-- A run ends where its kind of character does, so it can be read. -/
theorem run_append_inj {kind : Char → Bool} {xs ys : List Char} (hxs : ∀ c ∈ xs, kind c)
    (hys : ∀ c ∈ ys, kind c) (hs : EndsRun kind s) (ht : EndsRun kind t)
    (h : xs ++ s = ys ++ t) : xs = ys ∧ s = t := by
  have hruns : xs = ys := by
    rw [← takeWhile_append_of_endsRun hxs hs, h, takeWhile_append_of_endsRun hys ht]
  subst hruns
  exact ⟨rfl, List.append_cancel_left h⟩

/-- Decimal digits stand for a number, with or without zeros in front. -/
structure Denotes (numeral : List Char) (n : Nat) : Prop where
  digits : ∀ c ∈ numeral, c.isDigit
  value : Nat.ofDigitChars 10 numeral 0 = n

/-- Two numerals that begin the same text, each up to a character that is no digit, denote one
number. -/
theorem Denotes.append_inj {xs ys : List Char} {n m : Nat} (hn : Denotes xs n) (hm : Denotes ys m)
    (hs : EndsRun Char.isDigit s) (ht : EndsRun Char.isDigit t) (h : xs ++ s = ys ++ t) :
    n = m ∧ s = t := by
  obtain ⟨rfl, hrest⟩ := run_append_inj hn.digits hm.digits hs ht h
  exact ⟨hn.value.symm.trans hm.value, hrest⟩

/-- A number denotes itself in the usual digits. -/
theorem denotes_repr (n : Nat) : Denotes n.repr.toList n := by
  rw [Nat.toList_repr]
  exact ⟨fun _ => Nat.isDigit_of_mem_toDigits (by decide) (by decide),
    Nat.ofDigitChars_ten_toDigits⟩

/-- Four digits denote the number that they are made from. -/
theorem denotes_fourDigits (n : Nat) : Denotes (fourDigits n).toList n := by
  obtain ⟨hdigits, hvalue⟩ := denotes_repr n
  rw [fourDigits, padLeft, String.toList_append, String.toList_ofList]
  refine ⟨fun c hc => ?_, ?_⟩
  · rcases List.mem_append.mp hc with hc | hc
    · rw [List.eq_of_mem_replicate hc]
      rfl
    · exact hdigits c hc
  · rw [Nat.ofDigitChars_append, Nat.ofDigitChars_replicate_zero, Nat.mul_zero, hvalue]

/-- Four digits are not empty. -/
theorem fourDigits_ne_nil (n : Nat) : (fourDigits n).toList ≠ [] := by
  rw [fourDigits, padLeft, String.toList_append, Nat.toList_repr]
  exact List.append_ne_nil_of_right_ne_nil _ Nat.toDigits_ne_nil

end Text

open Text (EndsRun denotes_repr denotes_fourDigits run_append_inj)

/-! ## Operands -/

/-- Two slots that begin the same text, each up to a character that is no digit, are one slot. -/
theorem SlotRef.text_append_inj {a b : SlotRef} (hs : EndsRun Char.isDigit s)
    (ht : EndsRun Char.isDigit t) (h : a.text.toList ++ s = b.text.toList ++ t) :
    a = b ∧ s = t := by
  simp only [SlotRef.text, String.toList_append, List.append_assoc] at h
  obtain ⟨hnumber, hrest⟩ :=
    (denotes_repr _).append_inj (denotes_repr _) hs ht (List.append_cancel_left h)
  exact ⟨congrArg SlotRef.mk (UInt32.toNat_inj.mp hnumber), hrest⟩

/-- The parenthesis ends an arrow, whatever comes behind it. -/
theorem arrow_append_inj {position : Nat} {target target' : UInt32}
    (h : (arrow position target).toList ++ s = (arrow position target').toList ++ t) :
    target = target' ∧ s = t := by
  have hparts (target : UInt32) : ∃ c, (arrow position target).toList =
      c :: " (→ ".toList ++ (Text.fourDigits target.toNat).toList ++ [')'] := by
    unfold arrow
    split <;> simp
  -- The direction follows from position and target, so it may be passed over.
  obtain ⟨c, hc⟩ := hparts target
  obtain ⟨c', hc'⟩ := hparts target'
  simp only [hc, hc', List.cons_append, List.append_assoc] at h
  obtain ⟨htarget, hrest⟩ := (denotes_fourDigits _).append_inj (denotes_fourDigits _)
    (by simp) (by simp) (List.append_cancel_left (List.cons.inj h).2)
  exact ⟨UInt32.toNat_inj.mp htarget, (List.cons.inj hrest).2⟩

/-! ## Op-lines -/

/-- What an op-line does, apart from its operands. -/
inductive Action where
  | unary (kind : UnaryKind)
  | binary (kind : BinaryKind)
  | define | jump | jumpIf | jumpIfNot | nothing

namespace Action

/-- All actions. -/
def all : List Action :=
  UnaryKind.all.map unary ++ BinaryKind.all.map binary ++
    [define, jump, jumpIf, jumpIfNot, nothing]

/-- Every action is in the list of all actions. -/
theorem mem_all : ∀ action : Action, action ∈ all
  | unary kind => by simpa [all] using List.mem_of_getElem? kind.getElem?_index
  | binary kind => by simpa [all] using List.mem_of_getElem? kind.getElem?_index
  | define | jump | jumpIf | jumpIfNot | nothing => by simp [all]

/-- The short name of an action in listings. -/
def mnemonic : Action → String
  | unary kind => kind.mnemonic
  | binary kind => kind.mnemonic
  | define => "FUNC"
  | jump => "JUMP"
  | jumpIf => "JUMP_IF"
  | jumpIfNot => "JUMP_IF_NOT"
  | nothing => "NOP"

/-- A mnemonic tells what is done. -/
theorem mnemonic_injective : Function.Injective mnemonic := by
  have hnodup : (all.map mnemonic).Nodup := by decide +kernel
  intro action action' h
  exact List.inj_on_of_nodup_map hnodup action.mem_all action'.mem_all h

/-- The characters of mnemonics. -/
def isLetter (c : Char) : Bool :=
  c.isUpper || c == '_'

/-- Mnemonics are made of letters. -/
theorem isLetter_of_mem_mnemonic (action : Action) : ∀ c ∈ action.mnemonic.toList, isLetter c := by
  have hall : (all.all fun action => action.mnemonic.toList.all isLetter) = true := by
    decide +kernel
  exact List.all_eq_true.mp (List.all_eq_true.mp hall action action.mem_all)

/-- The number of blanks between a mnemonic and the operands. -/
def gap : Action → Nat
  | nothing => 0
  | action => 14 - action.mnemonic.length + 1

/-- Two mnemonics that begin the same text, each up to a character that is no letter, are those of
one action. -/
theorem append_inj {action action' : Action} (hs : EndsRun isLetter s) (ht : EndsRun isLetter t)
    (h : action.mnemonic.toList ++ (List.replicate action.gap ' ' ++ s) =
      action'.mnemonic.toList ++ (List.replicate action'.gap ' ' ++ t)) :
    action = action' ∧ s = t := by
  have hblanks {n : Nat} {u : List Char} (hu : EndsRun isLetter u) :
      EndsRun isLetter (List.replicate n ' ' ++ u) := by
    cases n with
    | zero => exact hu
    | succ n => simp [List.replicate_succ, isLetter]
  obtain ⟨hmnemonic, hrest⟩ := run_append_inj action.isLetter_of_mem_mnemonic
    action'.isLetter_of_mem_mnemonic (hblanks hs) (hblanks ht) h
  obtain rfl := mnemonic_injective (String.toList_inj.mp hmnemonic)
  exact ⟨rfl, List.append_cancel_left hrest⟩

end Action

namespace LinkedOp

/-- What an op-line does. -/
def action : LinkedOp → Action
  | unary kind _ _ => .unary kind
  | binary kind _ _ _ => .binary kind
  | functionDef _ _ _ => .define
  | jumpTo _ => .jump
  | jumpIf _ _ => .jumpIf
  | jumpIfNot _ _ => .jumpIfNot
  | noOp => .nothing

/-- What a listing shows of an op-line at a position behind the mnemonic. -/
def operands (position : Nat) : LinkedOp → String
  | unary _ op1 result => op1.text ++ " -> " ++ result.text
  | binary _ op1 op2 result => op1.text ++ ", " ++ op2.text ++ " -> " ++ result.text
  | functionDef name _ params => name.text ++ " params " ++ params.text
  | jumpTo target => arrow position target
  | jumpIf cond target | jumpIfNot cond target => cond.text ++ " " ++ arrow position target
  | noOp => ""

/-- The body of a function; other op-lines have none. -/
def body : LinkedOp → List LinkedOp
  | functionDef _ body _ => body
  | _ => []

/-- An op-line is shown as its mnemonic, the gap behind it and its operands. -/
theorem toList_text (position : Nat) (op : LinkedOp) : (op.text position).toList =
    op.action.mnemonic.toList ++
      (List.replicate op.action.gap ' ' ++ (op.operands position).toList) := by
  cases op <;>
    simp [text, action, operands, mnemonicColumn, Text.padRight, Action.mnemonic, Action.gap,
      List.replicate_succ']

/-- Behind a mnemonic and its gap there is no letter. -/
theorem endsRun_operands (position : Nat) (op : LinkedOp) :
    EndsRun Action.isLetter ((op.operands position).toList ++ '\n' :: s) := by
  cases op with
  | jumpTo target =>
    simp only [operands, arrow]
    split <;> simp [Action.isLetter]
  | _ => simp [operands, SlotRef.text, Action.isLetter]

/-- If it is known what is done, the operands can be read to the end of the line. -/
theorem operands_append_inj {position : Nat} {op op' : LinkedOp} (haction : op.action = op'.action)
    (h : (op.operands position).toList ++ '\n' :: s =
      (op'.operands position).toList ++ '\n' :: t) :
    (op.body = op'.body → op = op') ∧ s = t := by
  -- The two do the same, so their slots and targets stand in the same places.
  cases op <;> cases op' <;> cases haction <;>
    simp only [operands, String.toList_append, List.append_assoc] at h
  case unary.unary =>
    obtain ⟨rfl, hresult⟩ := SlotRef.text_append_inj (by simp) (by simp) h
    obtain ⟨rfl, hend⟩ :=
      SlotRef.text_append_inj (by simp) (by simp) (List.append_cancel_left hresult)
    exact ⟨fun _ => rfl, (List.cons.inj hend).2⟩
  case binary.binary =>
    obtain ⟨rfl, hop2⟩ := SlotRef.text_append_inj (by simp) (by simp) h
    obtain ⟨rfl, hresult⟩ :=
      SlotRef.text_append_inj (by simp) (by simp) (List.append_cancel_left hop2)
    obtain ⟨rfl, hend⟩ :=
      SlotRef.text_append_inj (by simp) (by simp) (List.append_cancel_left hresult)
    exact ⟨fun _ => rfl, (List.cons.inj hend).2⟩
  case functionDef.functionDef =>
    obtain ⟨rfl, hparams⟩ := SlotRef.text_append_inj (by simp) (by simp) h
    obtain ⟨rfl, hend⟩ :=
      SlotRef.text_append_inj (by simp) (by simp) (List.append_cancel_left hparams)
    exact ⟨congrArg (functionDef _ · _), (List.cons.inj hend).2⟩
  case jumpTo.jumpTo =>
    obtain ⟨rfl, hend⟩ := arrow_append_inj h
    exact ⟨fun _ => rfl, (List.cons.inj hend).2⟩
  case jumpIf.jumpIf | jumpIfNot.jumpIfNot =>
    obtain ⟨rfl, harrow⟩ := SlotRef.text_append_inj (by simp) (by simp) h
    obtain ⟨rfl, hend⟩ := arrow_append_inj (List.append_cancel_left harrow)
    exact ⟨fun _ => rfl, (List.cons.inj hend).2⟩
  case noOp.noOp => exact ⟨fun _ => rfl, (List.cons.inj h).2⟩

/-- A line can be read up to its end, but for the body of a function. -/
theorem text_append_inj {position : Nat} {op op' : LinkedOp}
    (h : (op.text position).toList ++ '\n' :: s = (op'.text position).toList ++ '\n' :: t) :
    (op.body = op'.body → op = op') ∧ s = t := by
  simp only [toList_text, List.append_assoc] at h
  obtain ⟨haction, hoperands⟩ :=
    Action.append_inj (op.endsRun_operands position) (op'.endsRun_operands position) h
  exact operands_append_inj haction hoperands

end LinkedOp

/-! ## Lines -/

/-- The characters of lines, each with a line break behind it. -/
def lineChars (lines : List String) : List Char :=
  lines.flatMap fun line => line.toList ++ ['\n']

/-- No lines have no characters. -/
@[simp] theorem lineChars_nil : lineChars [] = [] := rfl

/-- Lines are their first one, its line break and the others. -/
@[simp] theorem lineChars_cons (line : String) (lines : List String) :
    lineChars (line :: lines) = line.toList ++ '\n' :: lineChars lines := by
  simp [lineChars]

/-- Lines one after another have the characters of both. -/
@[simp] theorem lineChars_append (first rest : List String) :
    lineChars (first ++ rest) = lineChars first ++ lineChars rest :=
  List.flatMap_append

/-- A listing is its lines with a line break behind each. -/
theorem Image.toList_listing (image : Image) :
    image.listing.toList = lineChars image.listingLines := by
  simp [Image.listing, lineChars, List.flatMap_map]

/-- The number of entries in the head of a section can be read. -/
theorem sectionHead_append_inj {title unit : String} {count count' : Nat}
    (h : lineChars (sectionHead title count unit) ++ s =
      lineChars (sectionHead title count' unit) ++ t) : count = count' ∧ s = t := by
  simp only [sectionHead, lineChars_cons, String.toList_append, List.append_assoc,
    List.append_cancel_left_eq, List.cons_append, List.cons.injEq, true_and] at h
  obtain ⟨hcount, hrest⟩ := (denotes_repr _).append_inj (denotes_repr _) (by simp) (by simp) h
  simp only [List.append_cancel_left_eq, List.cons.injEq, true_and, lineChars_nil,
    List.nil_append] at hrest
  exact ⟨hcount, hrest⟩

/-- The parts of a line: its margin, its position, a mark and what it shows of the op-line. -/
theorem opLine_eq (level : Nat) (targets : List Nat) (position : Nat) (op : LinkedOp) :
    ∃ mark, (opLine level targets position op).toList = List.replicate (2 * level) ' ' ++
      ((Text.fourDigits position).toList ++ ' ' :: mark :: ' ' :: (op.text position).toList) := by
  simp only [opLine, margin]
  split
  · exact ⟨'►', by simp⟩
  · exact ⟨' ', by simp⟩

/-- The lines of an op-line are its own line and those of its body. -/
theorem LinkedOp.lines_eq (level : Nat) (targets : List Nat) (position : Nat) (op : LinkedOp) :
    op.lines level targets position = opLine level targets position op ::
      opLines (level + 1) (jumpTargets op.body) 0 op.body := by
  cases op <;> simp [LinkedOp.lines, LinkedOp.body, opLines]

/-! ## Levels -/

/-- Op-lines start with their margin and a digit. -/
theorem opLines_start (level : Nat) (targets : List Nat) (position : Nat) (op : LinkedOp)
    (ops : List LinkedOp) (s : List Char) : ∃ digit rest, digit.isDigit ∧
      lineChars (opLines level targets position (op :: ops)) ++ s =
        List.replicate (2 * level) ' ' ++ digit :: rest := by
  obtain ⟨mark, hline⟩ := opLine_eq level targets position op
  obtain ⟨digit, digits, hdigits⟩ := List.exists_cons_of_ne_nil (Text.fourDigits_ne_nil position)
  have hdigit : digit.isDigit := (denotes_fourDigits position).digits digit (by simp [hdigits])
  rw [opLines, LinkedOp.lines_eq, List.cons_append, lineChars_cons, hline, hdigits]
  simp only [List.append_assoc, List.cons_append]
  exact ⟨digit, _, hdigit, rfl⟩

/-- No op-line at a level or further in stands in front of a text. -/
def Outside (level : Nat) (s : List Char) : Prop :=
  ∀ inner ≥ level, ∀ digit rest, digit.isDigit → s ≠ List.replicate (2 * inner) ' ' ++ digit :: rest

namespace Outside

variable {level position : Nat} {targets : List Nat}

/-- What is outside of a level does not begin with an op-line of that level. -/
theorem ne_opLines (hs : Outside level s) (op : LinkedOp) (ops : List LinkedOp) :
    s ≠ lineChars (opLines level targets position (op :: ops)) ++ t := by
  obtain ⟨digit, rest, hdigit, hstart⟩ := opLines_start level targets position op ops t
  rw [hstart]
  exact hs level (Nat.le_refl level) digit rest hdigit

/-- The op-lines of a level are outside of the bodies in it. -/
theorem opLines_append (hs : Outside level s) (ops : List LinkedOp) :
    Outside (level + 1) (lineChars (opLines level targets position ops) ++ s) := by
  intro inner hinner digit rest hdigit h
  cases ops with
  | nil => exact hs inner (Nat.le_of_succ_le hinner) digit rest hdigit h
  | cons op ops =>
    -- The digit of the first line stands where a line further in still has blanks.
    obtain ⟨digit', rest', hdigit', hstart⟩ := opLines_start level targets position op ops s
    have hmargin (n : Nat) : ∀ c ∈ List.replicate n ' ', c == ' ' := by simp
    have hends {c : Char} {u : List Char} (hc : c.isDigit) : EndsRun (· == ' ') (c :: u) := by
      rw [Text.endsRun_cons, beq_eq_false_iff_ne]
      rintro rfl
      exact absurd hc (by decide)
    obtain ⟨hmargins, -⟩ := run_append_inj (hmargin _) (hmargin _) (hends hdigit') (hends hdigit)
      (hstart.symm.trans h)
    have hlevels := congrArg List.length hmargins
    simp only [List.length_replicate] at hlevels
    omega

/-- An empty line is outside of everything. -/
theorem emptyLine (level : Nat) (s : List Char) : Outside level ('\n' :: s) := by
  intro inner _ digit rest hdigit h
  cases inner with
  | zero =>
    obtain rfl := (List.cons.inj h).1
    exact absurd hdigit (by decide)
  | succ inner => exact absurd (List.cons.inj h).1 (by decide)

end Outside

/-- The op-lines of a level can be read up to a text that is outside of it, whatever jumps to them
are marked. -/
def Legible (level : Nat) (ops : List LinkedOp) : Prop :=
  ∀ ⦃position : Nat⦄ ⦃targets targets' : List Nat⦄ ⦃ops' : List LinkedOp⦄ ⦃s t : List Char⦄,
    Outside level s → Outside level t →
    lineChars (opLines level targets position ops) ++ s =
      lineChars (opLines level targets' position ops') ++ t →
    ops = ops' ∧ s = t

namespace Legible

variable {level : Nat}

/-- No op-lines can be read. -/
theorem nil : Legible level [] := by
  intro position targets targets' ops' s t hs ht h
  cases ops' with
  | nil => exact ⟨rfl, h⟩
  | cons op' ops' => exact absurd h (hs.ne_opLines op' ops')

/-- An op-line is read with its body, then the op-lines behind it. -/
theorem cons {op : LinkedOp} {ops : List LinkedOp} (hbody : Legible (level + 1) op.body)
    (hops : Legible level ops) : Legible level (op :: ops) := by
  intro position targets targets' ops' s t hs ht h
  cases ops' with
  | nil => exact absurd h.symm (ht.ne_opLines op ops)
  | cons op' ops' =>
    obtain ⟨mark, hline⟩ := opLine_eq level targets position op
    obtain ⟨mark', hline'⟩ := opLine_eq level targets' position op'
    -- Both lines stand at the same level and position, so they differ behind those, if at all.
    simp only [opLines, LinkedOp.lines_eq, List.cons_append, lineChars_cons, lineChars_append,
      hline, hline', List.append_assoc, List.append_cancel_left_eq, List.cons.injEq, true_and] at h
    obtain ⟨hop, hlines⟩ := LinkedOp.text_append_inj h.2
    -- The body ends in front of the next line of this level or of what is outside of it.
    obtain ⟨hbodies, hrest⟩ := hbody (hs.opLines_append ops) (ht.opLines_append ops') hlines
    obtain rfl := hop hbodies
    obtain ⟨rfl, hend⟩ := hops hs ht hrest
    exact ⟨rfl, hend⟩

end Legible

mutual

/-- The body of an op-line can be read at every level. -/
theorem LinkedOp.legible_body : ∀ (op : LinkedOp) (level : Nat), Legible level op.body
  | .functionDef _ body _, level => legible body level
  | .unary _ _ _, _ | .binary _ _ _ _, _ | .jumpTo _, _ | .jumpIf _ _, _ | .jumpIfNot _ _, _
  | .noOp, _ => .nil

/-- The op-lines of any level can be read. -/
theorem legible : ∀ (ops : List LinkedOp) (level : Nat), Legible level ops
  | [], _ => .nil
  | op :: ops, level => .cons (op.legible_body (level + 1)) (legible ops level)

end

/-- A listing loses nothing about the op-lines. Images with the same listing have equal op-lines,
the bodies of functions included, and slot tables with equally many entries. -/
theorem Image.ops_eq_of_listing_eq {image image' : Image} (h : image.listing = image'.listing) :
    image.ops = image'.ops ∧ image.slots.length = image'.slots.length := by
  have hchars := congrArg String.toList h
  simp only [Image.toList_listing, Image.listingLines, lineChars_append, lineChars_cons,
    String.toList_empty, List.append_assoc, List.cons_append, List.nil_append] at hchars
  obtain ⟨-, hprogram⟩ := sectionHead_append_inj hchars
  -- An empty line ends the program, so nothing has to be known of the texts in the slots.
  obtain ⟨hops, hslots⟩ :=
    legible image.ops 0 (Outside.emptyLine 0 _) (Outside.emptyLine 0 _) hprogram
  obtain ⟨hcount, -⟩ := sectionHead_append_inj (List.cons.inj hslots).2
  exact ⟨hops, hcount⟩

/-- The image of a function with a jump out of its body. The name of its parameter holds a line
break and what looks like an op-line; `default` are the op-lines of the parameter, of which a
listing only shows the number. -/
def defaultImage (default : List LinkedOp) : Image where
  ops := [.functionDef ⟨0⟩ [.jumpIf ⟨7⟩ 12345, .noOp] ⟨1⟩, .noOp]
  slots := [⟨.string "f", .string⟩, ⟨.param ⟨"x\n0002   NOP", ⟨0⟩, default, true, none⟩, .null⟩]

/-- Parameters that differ in an op-line have one listing, and the op-lines of the images are equal
all the same. -/
theorem Image.ops_eq_of_listing_eq_defaults :
    (defaultImage [.noOp]).listing = (defaultImage [.jumpTo 3]).listing ∧
      (defaultImage [.noOp]).ops = (defaultImage [.jumpTo 3]).ops ∧
      (defaultImage [.noOp]).slots.length = (defaultImage [.jumpTo 3]).slots.length := by
  have hlisting : (defaultImage [.noOp]).listing = (defaultImage [.jumpTo 3]).listing := by
    simp only [Image.listing, Image.listingLines, defaultImage, slotLines, slotLine,
      ValueImage.text, ParamImage.text, List.isEmpty_cons, List.length_cons, List.length_nil]
  exact ⟨hlisting, Image.ops_eq_of_listing_eq hlisting⟩

end Lowering
