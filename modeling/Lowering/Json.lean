import Lowering.Double

/-!
# JSON values

A `Json` is what a reader finds in a JSON text, up to the point where the text goes wrong. Objects
keep their members in the order of the text and repeated names with them. A text that breaks off or
is malformed leaves an `unreadable` value or an `Ending` other than `closed` at that point, so that a
decoder which walks the value in order meets the first of two faults first, whether it is one of the
text or one of the decoder's own.

Reading a value is stricter than passing over it: a number beyond the range of doubles, an escape
that stands for half a character and containers nested too deeply are only refused by a reader. A
number that breaks off at the end of the text is cut short for a reader, who needs its digits, and
malformed for someone who passes over it. `readFault` and `skipFault` tell what each of the two meets
in a value.
-/

namespace Lowering

namespace Json

/-- Why a text cannot be read on. -/
inductive Cause where
  /-- The text ends inside a value. -/
  | ended
  /-- The text ends inside a word or a number. -/
  | cutShort
  /-- The text is not JSON. -/
  | malformed
  deriving DecidableEq

/-- A place where a text goes wrong: what a reader meets there, and what someone who only passes over
the value meets, if anything. -/
structure Fault where
  reading : Cause
  skipping : Option Cause
  deriving DecidableEq

/-- A fault that nobody gets past. -/
def Fault.fatal (cause : Cause) : Fault :=
  ⟨cause, some cause⟩

/-- A number is an integer when it is written without fraction and exponent and fits 64 bits, signed
or unsigned; otherwise it is a double. -/
inductive Number where
  | int (n : Int)
  | double (x : Double)
  deriving DecidableEq

/-- One more than the largest integer of 64 signed bits. -/
def signedBound : Nat := 0x8000000000000000

/-- One more than the largest integer of 64 unsigned bits. -/
def unsignedBound : Nat := 0x10000000000000000

/-- One more than the largest word of 32 bits. -/
def wordBound : Nat := 0x100000000

/-- How a container ends. -/
inductive Ending where
  /-- With its bracket. -/
  | closed
  /-- The text goes wrong where a bracket or a comma should stand. -/
  | broken (fault : Fault)
  /-- The text goes wrong after a comma. -/
  | brokenAfterComma (fault : Fault)
  deriving DecidableEq

/-- What a reader meets who wants another entry or the end of the container. -/
def Ending.reading : Ending → Option Cause
  | .closed => none
  | .broken fault | .brokenAfterComma fault => some fault.reading

/-- An ending is closed if a reader meets no fault there. -/
theorem Ending.reading_eq_none {ending : Ending} : ending.reading = none ↔ ending = .closed := by
  cases ending <;> simp [Ending.reading]

/-- What a reader meets who wants nothing but the end of the container: a comma is already wrong. -/
def Ending.closing : Ending → Option Cause
  | .closed => none
  | .broken fault => some fault.reading
  | .brokenAfterComma _ => some .malformed

/-- What someone meets who passes over the container. -/
def Ending.skipping : Ending → Option Cause
  | .closed => none
  | .broken fault | .brokenAfterComma fault => fault.skipping

end Json

/-- A JSON value as far as its text can be read. -/
inductive Json where
  | null
  | bool (b : Bool)
  | number (n : Json.Number)
  | string (s : String)
  | array (items : List Json) (ending : Json.Ending)
  | object (members : List (String × Json)) (ending : Json.Ending)
  /-- A place where a value should stand and the text goes wrong. -/
  | unreadable (fault : Json.Fault)

namespace Json

/-- A complete array. -/
def list (items : List Json) : Json :=
  .array items .closed

/-- A complete object. -/
def record (members : List (String × Json)) : Json :=
  .object members .closed

/-- An integer. -/
def int (n : Int) : Json :=
  .number (.int n)

/-- Induction over values: containers come with the property for all that they contain. -/
theorem induction {p : Json → Prop} (null : p .null) (bool : ∀ b, p (.bool b))
    (number : ∀ n, p (.number n)) (string : ∀ s, p (.string s))
    (array : ∀ items ending, (∀ item ∈ items, p item) → p (.array items ending))
    (object : ∀ members ending, (∀ member ∈ members, p member.2) → p (.object members ending))
    (unreadable : ∀ fault, p (.unreadable fault)) : ∀ value, p value
  | .null => null
  | .bool b => bool b
  | .number n => number n
  | .string s => string s
  | .array items ending => array items ending fun item hitem => by
    have := List.sizeOf_lt_of_mem hitem
    exact induction null bool number string array object unreadable item
  | .object members ending => object members ending fun (name, value) hmember => by
    have := List.sizeOf_lt_of_mem hmember
    exact induction null bool number string array object unreadable value
  | .unreadable fault => unreadable fault
termination_by value => sizeOf value
decreasing_by all_goals simp_wf; simp_all; omega

/-- The number of containers that may enclose one another when a value is read. -/
def nestingLimit : Nat := 127

mutual

/-- The first fault that a reader meets in a value, with `depth` levels of containers left. -/
def readFault (depth : Nat) : Json → Option Cause
  | .array items ending =>
    match depth with
    | 0 => some .malformed
    | depth + 1 => (readFaultItems depth items).orElse fun _ => ending.reading
  | .object members ending =>
    match depth with
    | 0 => some .malformed
    | depth + 1 => (readFaultMembers depth members).orElse fun _ => ending.reading
  | .unreadable fault => some fault.reading
  | _ => none

/-- The first fault that a reader meets in the items of an array. -/
def readFaultItems (depth : Nat) : List Json → Option Cause
  | [] => none
  | item :: rest => (readFault depth item).orElse fun _ => readFaultItems depth rest

/-- The first fault that a reader meets in the members of an object. -/
def readFaultMembers (depth : Nat) : List (String × Json) → Option Cause
  | [] => none
  | (_, value) :: rest => (readFault depth value).orElse fun _ => readFaultMembers depth rest

end

/-- Reading items meets no fault if reading each of them meets none. -/
theorem readFaultItems_eq_none {depth : Nat} {items : List Json} :
    readFaultItems depth items = none ↔ ∀ item ∈ items, readFault depth item = none := by
  induction items with
  | nil => simp [readFaultItems]
  | cons item rest ih =>
    rw [readFaultItems, List.forall_mem_cons, ← ih]
    cases readFault depth item <;> simp

/-- Reading members meets no fault if reading the value of each of them meets none. -/
theorem readFaultMembers_eq_none {depth : Nat} {members : List (String × Json)} :
    readFaultMembers depth members = none ↔
      ∀ member ∈ members, readFault depth member.2 = none := by
  induction members with
  | nil => simp [readFaultMembers]
  | cons member rest ih =>
    rw [readFaultMembers, List.forall_mem_cons, ← ih]
    cases readFault depth member.2 <;> simp

/-- A reader meets no fault in an array that is closed and has none in its items. -/
theorem readFault_array {depth : Nat} {items : List Json} {ending : Ending} :
    readFault depth (.array items ending) = none ↔
      ∃ inner, depth = inner + 1 ∧ (∀ item ∈ items, readFault inner item = none) ∧
        ending = .closed := by
  cases depth with
  | zero => simp [readFault]
  | succ depth =>
    rw [readFault, ← Ending.reading_eq_none]
    simp only [Nat.add_right_cancel_iff, exists_eq_left', ← readFaultItems_eq_none]
    cases readFaultItems depth items <;> simp

/-- A reader meets no fault in an object that is closed and has none in its members. -/
theorem readFault_object {depth : Nat} {members : List (String × Json)} {ending : Ending} :
    readFault depth (.object members ending) = none ↔
      ∃ inner, depth = inner + 1 ∧ (∀ member ∈ members, readFault inner member.2 = none) ∧
        ending = .closed := by
  cases depth with
  | zero => simp [readFault]
  | succ depth =>
    rw [readFault, ← Ending.reading_eq_none]
    simp only [Nat.add_right_cancel_iff, exists_eq_left', ← readFaultMembers_eq_none]
    cases readFaultMembers depth members <;> simp

mutual

/-- The first fault met in passing over a value. -/
def skipFault : Json → Option Cause
  | .array items ending => (skipFaultItems items).orElse fun _ => ending.skipping
  | .object members ending => (skipFaultMembers members).orElse fun _ => ending.skipping
  | .unreadable fault => fault.skipping
  | _ => none

/-- The first fault met in passing over the items of an array. -/
def skipFaultItems : List Json → Option Cause
  | [] => none
  | item :: rest => (skipFault item).orElse fun _ => skipFaultItems rest

/-- The first fault met in passing over the members of an object. -/
def skipFaultMembers : List (String × Json) → Option Cause
  | [] => none
  | (_, value) :: rest => (skipFault value).orElse fun _ => skipFaultMembers rest

end

end Json

end Lowering
