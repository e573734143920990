import Lowering.Image
import Lowering.Text.Quoted

/-!
# Listings

The listing of an image shows its op-lines with their positions, then its slots. The body of a
function follows its line, two columns further in. A line that some jump of its own list goes to is
marked, and an arrow tells whether a jump goes back (or onto itself) or ahead.
-/

namespace Lowering

/-! ## Values -/

/-- The text of a parameter record in a listing. -/
def ParamImage.text (record : ParamImage) : String :=
  let hint := match record.typeHint with
    | some hint => hint ++ " "
    | none => ""
  let ops := if record.ops.isEmpty then "" else " (" ++ record.ops.length.repr ++ " ops)"
  "param " ++ hint ++ (if record.byRef then "&" else "") ++ "$" ++ record.name ++ " = " ++
    record.default.text ++ ops

mutual

/-- The text of a value in a listing. -/
def ValueImage.text : ValueImage → String
  | .null => "null"
  | .bool b => Text.truth b
  | .long n => n.toInt.repr
  | .double x => x.text .plain
  | .string s => Text.quoted s
  | .array items => Text.bracketed (valueTexts items)
  | .slot ref => ref.text
  | .param record => record.text

/-- The texts of values in a listing. -/
def valueTexts : List ValueImage → List String
  | [] => []
  | value :: rest => value.text :: valueTexts rest

end

/-! ## Op-lines -/

/-- The arrow of a jump from one position to another. -/
def arrow (position : Nat) (target : UInt32) : String :=
  (if target.toNat ≤ position then "↑" else "↓") ++ " (→ " ++ Text.fourDigits target.toNat ++ ")"

/-- A mnemonic in its column. -/
def mnemonicColumn (mnemonic : String) : String :=
  Text.padRight 14 mnemonic ++ " "

/-- What a listing shows of an op-line at a position, without the body of a function. -/
def LinkedOp.text (position : Nat) : LinkedOp → String
  | .unary kind op1 result => mnemonicColumn kind.mnemonic ++ op1.text ++ " -> " ++ result.text
  | .binary kind op1 op2 result =>
    mnemonicColumn kind.mnemonic ++ op1.text ++ ", " ++ op2.text ++ " -> " ++ result.text
  | .functionDef name _ params => mnemonicColumn "FUNC" ++ name.text ++ " params " ++ params.text
  | .jumpTo target => mnemonicColumn "JUMP" ++ arrow position target
  | .jumpIf cond target => mnemonicColumn "JUMP_IF" ++ cond.text ++ " " ++ arrow position target
  | .jumpIfNot cond target =>
    mnemonicColumn "JUMP_IF_NOT" ++ cond.text ++ " " ++ arrow position target
  | .noOp => "NOP"

/-- The positions that the jumps of a list go to. -/
def jumpTargets (ops : List LinkedOp) : List Nat :=
  ops.filterMap fun op => op.target?.map UInt32.toNat

/-- Two spaces for each level of nesting. -/
def margin (level : Nat) : String :=
  String.ofList (List.replicate (2 * level) ' ')

/-- The line of an op-line at a level of nesting and a position; `targets` are the positions that its
list jumps to. -/
def opLine (level : Nat) (targets : List Nat) (position : Nat) (op : LinkedOp) : String :=
  let mark := if targets.contains position then "►" else " "
  margin level ++ Text.fourDigits position ++ " " ++ mark ++ " " ++ op.text position

mutual

/-- The lines of an op-line: its own and those of a function's body. -/
def LinkedOp.lines (level : Nat) (targets : List Nat) (position : Nat) : LinkedOp → List String
  | .functionDef name body params =>
    opLine level targets position (.functionDef name body params) ::
      opLines (level + 1) (jumpTargets body) 0 body
  | op => [opLine level targets position op]

/-- The lines of op-lines from a position on. -/
def opLines (level : Nat) (targets : List Nat) (position : Nat) : List LinkedOp → List String
  | [] => []
  | op :: rest => op.lines level targets position ++ opLines level targets (position + 1) rest

end

/-! ## The whole listing -/

/-- The rule above and below the head of a section. -/
def rule : String :=
  String.ofList (List.replicate 40 '═')

/-- The head of a section. -/
def sectionHead (title : String) (count : Nat) (unit : String) : List String :=
  [rule, " " ++ title, " " ++ count.repr ++ " " ++ unit, rule]

/-- The lines of the op-lines of a program. -/
def programLines (ops : List LinkedOp) : List String :=
  opLines 0 (jumpTargets ops) 0 ops

/-- The line of a slot. -/
def slotLine (place : Nat) (slot : SlotImage) : String :=
  "$" ++ Text.padRight 5 place.repr ++ " " ++ Text.padRight 7 slot.type.word ++ " " ++
    slot.value.text

/-- The lines of slots from a place on. -/
def slotLines (place : Nat) : List SlotImage → List String
  | [] => []
  | slot :: rest => slotLine place slot :: slotLines (place + 1) rest

/-- The lines of a listing. -/
def Image.listingLines (image : Image) : List String :=
  sectionHead "main" image.ops.length "op-lines" ++ programLines image.ops ++ [""] ++
    sectionHead "slots" image.slots.length "entries" ++ slotLines 0 image.slots

/-- The listing of an image: its lines, each with a line break behind it. -/
def Image.listing (image : Image) : String :=
  String.join (image.listingLines.map (· ++ "\n"))

end Lowering
