import Lowering.Json.Decimal

/-!
# Reading JSON texts

`Json.read` turns a text into a value. It never fails: what is wrong with the text is part of the
value (see `Lowering.Json`). The parts of the grammar that cannot nest, numbers, strings and words,
are read by recursion on the text. Values nest, and their recursion is bounded by a fuel that
`Json.read` takes from the length of the text.
-/

namespace Lowering.Json

/-- The four characters that may stand between the parts of a text. -/
def isBlank (c : Char) : Bool :=
  c == ' ' || c == '\t' || c == '\n' || c == '\r'

/-- A text from its first character on that is not blank. -/
def skipBlank (cs : List Char) : List Char :=
  cs.dropWhile isBlank

/-! ## Strings -/

/-- What reading a string finds behind its opening quote: its content with the text that follows, or
a fault with the text that follows when the string can be passed over. -/
inductive StringScan where
  | text (content : List Char) (rest : List Char)
  | fault (fault : Fault) (rest : Option (List Char))

/-- Puts a character in front of a string's content. -/
def StringScan.cons (c : Char) : StringScan → StringScan
  | .text content rest => .text (c :: content) rest
  | .fault f rest => .fault f rest

/-- A string with an escape for half a character: malformed to a reader, while passing over it meets
only what is wrong later on. -/
def StringScan.spoil : StringScan → StringScan
  | .text _ rest => .fault ⟨.malformed, none⟩ (some rest)
  | .fault f rest => .fault ⟨.malformed, f.skipping⟩ rest

/-- A string that nobody gets past. -/
def StringScan.fatal (cause : Cause) : StringScan :=
  .fault (.fatal cause) none

/-- The value of a hexadecimal digit. -/
def hexDigit? (c : Char) : Option Nat :=
  if '0' ≤ c ∧ c ≤ '9' then some (c.toNat - '0'.toNat)
  else if 'a' ≤ c ∧ c ≤ 'f' then some (c.toNat - 'a'.toNat + 10)
  else if 'A' ≤ c ∧ c ≤ 'F' then some (c.toNat - 'A'.toNat + 10)
  else none

/-- The number that four hexadecimal digits spell. -/
def hexQuad? (a b c d : Char) : Option Nat := do
  return (((← hexDigit? a) * 16 + (← hexDigit? b)) * 16 + (← hexDigit? c)) * 16 + (← hexDigit? d)

/-- Whether a text has fewer than the four bytes that a hexadecimal escape takes. -/
def tooShort (cs : List Char) : Bool :=
  decide (cs.foldl (fun size c => size + c.utf8Size) 0 < 4)

/-- Whether a text ends before a second escape of a surrogate pair could be complete. -/
def endsInPair : List Char → Bool
  | [] | ['\\'] => true
  | '\\' :: 'u' :: rest => tooShort rest
  | _ => false

/-- The character of a one-letter escape. -/
def escaped? (c : Char) : Option Char :=
  match c with
  | '"' => some '"'
  | '\\' => some '\\'
  | '/' => some '/'
  | 'b' => some '\x08'
  | 'f' => some '\x0c'
  | 'n' => some '\n'
  | 'r' => some '\r'
  | 't' => some '\t'
  | _ => none

/-- Whether a code unit is the first half of a surrogate pair. -/
def isHighSurrogate (n : Nat) : Bool :=
  decide (0xD800 ≤ n) && decide (n ≤ 0xDBFF)

/-- Whether a code unit is the second half of a surrogate pair. -/
def isLowSurrogate (n : Nat) : Bool :=
  decide (0xDC00 ≤ n) && decide (n ≤ 0xDFFF)

/-- The character of a surrogate pair. -/
def pairChar (high low : Nat) : Char :=
  Char.ofNat (0x10000 + (high - 0xD800) * 0x400 + (low - 0xDC00))

/-- Reads a string behind its opening quote. -/
def scanString : List Char → StringScan
  | [] => .fatal .ended
  | '"' :: rest => .text [] rest
  | ['\\'] => .fatal .ended
  | '\\' :: 'u' :: a :: b :: c :: d :: rest =>
    match hexQuad? a b c d with
    | none => .fatal .malformed
    | some high =>
      let halved (_ : Unit) := (scanString rest).spoil
      if isHighSurrogate high then
        match rest with
        | '\\' :: 'u' :: e :: f :: g :: h :: rest' =>
          match hexQuad? e f g h with
          | some low =>
            if isLowSurrogate low then (scanString rest').cons (pairChar high low)
            else halved ()
          | none => .fatal .malformed
        | rest' => if endsInPair rest' then .fatal .ended else halved ()
      else if isLowSurrogate high then halved ()
      else (scanString rest).cons (Char.ofNat high)
  | '\\' :: 'u' :: rest => .fatal (if tooShort rest then .ended else .malformed)
  | '\\' :: c :: rest =>
    match escaped? c with
    | some c => (scanString rest).cons c
    | none => .fatal .malformed
  | c :: rest => if c.toNat < 0x20 then .fatal .malformed else (scanString rest).cons c
termination_by structural cs => cs

/-! ## Numbers and words -/

/-- Reads at least one digit. -/
def scanDigits (cs : List Char) : Except Cause (List Char × List Char) :=
  match cs.takeWhile Char.isDigit, cs.dropWhile Char.isDigit with
  | [], [] => .error .cutShort
  | [], _ => .error .malformed
  | digits, rest => .ok (digits, rest)

/-- Reads the digits before the point, where a zero stands alone. -/
def scanWhole : List Char → Except Cause (List Char × List Char)
  | '0' :: c :: rest => if c.isDigit then .error .malformed else .ok (['0'], c :: rest)
  | cs => scanDigits cs

/-- Reads the digits behind a point, if there is one. -/
def scanFraction : List Char → Except Cause (Option (List Char) × List Char)
  | '.' :: rest => (scanDigits rest).map fun (digits, rest) => (some digits, rest)
  | cs => .ok (none, cs)

/-- Reads an exponent, if there is one. -/
def scanExponent : List Char → Except Cause (Option Int × List Char)
  | mark :: rest =>
    if mark = 'e' ∨ mark = 'E' then
      let (negative, digits) := match rest with
        | '-' :: ds => (true, ds)
        | '+' :: ds => (false, ds)
        | ds => (false, ds)
      (scanDigits digits).map fun (digits, rest) =>
        let n : Int := Nat.ofDigitChars 10 digits 0
        (some (if negative then -n else n), rest)
    else .ok (none, mark :: rest)
  | [] => .ok (none, [])

/-- The value of a number from its parts; a double that is too large has none. -/
def number? (negative : Bool) (whole : List Char) (fraction : Option (List Char))
    (exponent : Option Int) : Option Number :=
  let digits := Nat.ofDigitChars 10 whole 0
  if fraction.isNone && exponent.isNone && !negative && decide (digits < unsignedBound) then
    some (.int digits)
  else if fraction.isNone && exponent.isNone && negative && decide (0 < digits) &&
      decide (digits ≤ signedBound) then
    some (.int (-digits))
  else
    (decimal? whole (fraction.getD []) exponent).map fun magnitude =>
      .double (Double.ofMagnitude negative magnitude)

/-- Reads the parts of a number. -/
def scanNumber (cs : List Char) : Except Cause (Option Number × List Char) := do
  let (negative, cs) := match cs with
    | '-' :: rest => (true, rest)
    | cs => (false, cs)
  let (whole, cs) ← scanWhole cs
  let (fraction, cs) ← scanFraction cs
  let (exponent, cs) ← scanExponent cs
  return (number? negative whole fraction exponent, cs)

/-- Reads a number as a value. Passing over a number looks no further than its next character, so that
the end of the text is as wrong there as any other character. -/
def readNumber (cs : List Char) : Json × Option (List Char) :=
  match scanNumber cs with
  | .ok (some n, rest) => (.number n, some rest)
  | .ok (none, rest) => (.unreadable ⟨.malformed, none⟩, some rest)
  | .error cause => (.unreadable ⟨cause, some .malformed⟩, none)

/-- Reads the letters of a word. -/
def scanWord : List Char → List Char → Except Cause (List Char)
  | [], cs => .ok cs
  | _ :: _, [] => .error .cutShort
  | expected :: word, c :: cs => if c = expected then scanWord word cs else .error .malformed

/-- Reads a word that stands for a value. -/
def readWord (word : String) (value : Json) (cs : List Char) : Json × Option (List Char) :=
  match scanWord word.toList cs with
  | .ok rest => (value, some rest)
  | .error cause => (.unreadable (.fatal cause), none)

/-! ## Values -/

/-- Reads a value that is no container. -/
def readScalar : List Char → Json × Option (List Char)
  | [] => (.unreadable (.fatal .ended), none)
  | '"' :: rest =>
    match scanString rest with
    | .text content rest => (.string (String.ofList content), some rest)
    | .fault f rest => (.unreadable f, rest)
  | 'n' :: rest => readWord "ull" .null rest
  | 't' :: rest => readWord "rue" (.bool true) rest
  | 'f' :: rest => readWord "alse" (.bool false) rest
  | c :: rest =>
    if c = '-' ∨ c.isDigit then readNumber (c :: rest)
    else (.unreadable (.fatal .malformed), none)

mutual

/-- Reads a value and returns the text behind it, unless the text cannot be followed further. -/
def readValue : Nat → List Char → Json × Option (List Char)
  | 0, _ => (.unreadable (.fatal .ended), none)
  | fuel + 1, cs =>
    match skipBlank cs with
    | '[' :: rest =>
      match skipBlank rest with
      | ']' :: rest => (.array [] .closed, some rest)
      | [] => (.array [] (.broken (.fatal .ended)), none)
      | rest =>
        let (items, ending, rest) := readItems fuel rest
        (.array items ending, rest)
    | '{' :: rest =>
      match skipBlank rest with
      | '}' :: rest => (.object [] .closed, some rest)
      | rest =>
        let (members, ending, rest) := readMembers fuel .broken rest
        (.object members ending, rest)
    | cs => readScalar cs

/-- Reads the items of an array from the start of one of them. -/
def readItems : Nat → List Char → List Json × Ending × Option (List Char)
  | 0, _ => ([], .broken (.fatal .ended), none)
  | fuel + 1, cs =>
    match readValue fuel cs with
    | (item, none) => ([item], .closed, none)
    | (item, some rest) =>
      match skipBlank rest with
      | [] => ([item], .broken (.fatal .ended), none)
      | ']' :: rest => ([item], .closed, some rest)
      | ',' :: rest =>
        match skipBlank rest with
        | [] => ([item], .brokenAfterComma (.fatal .ended), none)
        | ']' :: _ => ([item], .brokenAfterComma (.fatal .malformed), none)
        | rest =>
          let (items, ending, rest) := readItems fuel rest
          (item :: items, ending, rest)
      | _ => ([item], .broken (.fatal .malformed), none)

/-- Reads the members of an object from the start of one of them; `breaking` says how the object
ends when there is no name here. A name that cannot be read ends the object for a reader, and someone
who passes over the object goes on behind it. -/
def readMembers : Nat → (Fault → Ending) → List Char →
    List (String × Json) × Ending × Option (List Char)
  | 0, breaking, _ => ([], breaking (.fatal .ended), none)
  | fuel + 1, breaking, cs =>
    match skipBlank cs with
    | '"' :: rest =>
      match scanString rest with
      | .text name rest => readMember fuel (String.ofList name) rest
      | .fault fault none => ([], breaking fault, none)
      | .fault fault (some rest) =>
        let (members, ending, rest) := readMember fuel "" rest
        let skipping := (skipFaultMembers members).orElse fun _ => ending.skipping
        ([], breaking ⟨fault.reading, skipping⟩, rest)
    | [] => ([], breaking (.fatal .ended), none)
    | _ => ([], breaking (.fatal .malformed), none)

/-- Reads a member behind its name, and the members that follow. -/
def readMember : Nat → String → List Char → List (String × Json) × Ending × Option (List Char)
  | 0, name, _ => ([(name, .unreadable (.fatal .ended))], .closed, none)
  | fuel + 1, name, cs =>
    match skipBlank cs with
    | ':' :: rest =>
      match readValue fuel rest with
      | (value, none) => ([(name, value)], .closed, none)
      | (value, some rest) =>
        match skipBlank rest with
        | [] => ([(name, value)], .broken (.fatal .ended), none)
        | '}' :: rest => ([(name, value)], .closed, some rest)
        | ',' :: rest =>
          let (members, ending, rest) := readMembers fuel .brokenAfterComma rest
          ((name, value) :: members, ending, rest)
        | _ => ([(name, value)], .broken (.fatal .malformed), none)
    | [] => ([(name, .unreadable (.fatal .ended))], .closed, none)
    | _ => ([(name, .unreadable (.fatal .malformed))], .closed, none)

end

/-- What a text holds: its value, and whether anything but blanks follows it. -/
structure Document where
  root : Json
  surplus : Bool

/-- The document whose value has been read, with the text behind it. -/
def Document.ofValue : Json × Option (List Char) → Document
  | (root, none) => ⟨root, false⟩
  | (root, some rest) => ⟨root, !(skipBlank rest).isEmpty⟩

/-- Reads a text. Each step from a container into an entry takes at most two units of fuel and at
least one character, so twice the length is enough, and more fuel changes nothing (`read_eq`). -/
def read (text : String) : Document :=
  let cs := text.toList
  .ofValue (readValue (2 * cs.length + 2) cs)

end Lowering.Json
