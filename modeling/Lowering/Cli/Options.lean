/-!
# Command-line options

One file to compile, and options before and behind it. A long option takes its value from the next
argument or from behind an equals sign. Short options can be run together, and one that takes a value
takes it from the rest of its argument or from the next one. Only `-v` may be repeated. A value does
not start with a dash, unless it is a dash alone; behind `--` every argument names a file.
-/

namespace Lowering.Cli

/-- The form in which an image is put out. -/
inductive Format where
  | listing | json | bytes
  deriving DecidableEq

/-- The format with a name. -/
def Format.ofName? : String → Option Format
  | "listing" => some .listing
  | "json" => some .json
  | "postcard" => some .bytes
  | _ => none

/-- What the command line asks for. -/
structure Options where
  input : String
  format : Format
  output : Option String
  withContext : Bool
  verbosity : Nat
  deriving DecidableEq

/-- The options met so far. -/
structure Draft where
  input : Option String := none
  format : Option Format := none
  output : Option String := none
  withContext : Bool := false
  verbosity : Nat := 0

namespace Draft

/-- Takes the name of the file to compile. -/
def setInput (draft : Draft) (path : String) : Option Draft :=
  if draft.input.isSome || path.isEmpty then none else some { draft with input := some path }

/-- Takes the name of a format. -/
def setFormat (draft : Draft) (name : String) : Option Draft :=
  if draft.format.isSome then none
  else (Format.ofName? name).map fun format => { draft with format := some format }

/-- Takes the name of the file to write. -/
def setOutput (draft : Draft) (path : String) : Option Draft :=
  if draft.output.isSome || path.isEmpty then none else some { draft with output := some path }

/-- Takes the wish for a shared slot. -/
def setContext (draft : Draft) : Option Draft :=
  if draft.withContext then none else some { draft with withContext := true }

/-- Takes a wish for more messages. -/
def addVerbosity (draft : Draft) : Draft :=
  { draft with verbosity := draft.verbosity + 1 }

/-- The options, once there is a file to compile. -/
def finish (draft : Draft) : Option Options :=
  draft.input.map fun input =>
    ⟨input, draft.format.getD .listing, draft.output, draft.withContext, draft.verbosity⟩

end Draft

/-- Whether an argument can be the value of the option before it. -/
def isValue (argument : String) : Bool :=
  argument == "-" || !argument.startsWith "-"

/-- A long option without its dashes, split at the first equals sign. -/
def splitOption (option : List Char) : String × Option String :=
  match option.dropWhile (· != '=') with
  | _ :: value => (String.ofList (option.takeWhile (· != '=')), some (String.ofList value))
  | [] => (String.ofList option, none)

/-- What an option does that takes a value. -/
abbrev Setter := Draft → String → Option Draft

/-- The long options that take a value. -/
def setterNamed? : String → Option Setter
  | "emit" => some Draft.setFormat
  | "output" => some Draft.setOutput
  | _ => none

/-- What an argument does: it changes the draft, or it waits for the next argument as a value. -/
inductive Effect where
  | change (draft : Draft)
  | wait (draft : Draft) (setter : Setter)

/-- The effect of a long option. -/
def longOption (draft : Draft) (option : List Char) : Option Effect :=
  match splitOption option with
  | ("with-context", none) => draft.setContext.map .change
  | ("verbose", none) => some (.change draft.addVerbosity)
  | (name, value) =>
    (setterNamed? name).bind fun setter =>
      match value with
      | some value => (setter draft value).map .change
      | none => some (.wait draft setter)

/-- The effect of short options that are run together. -/
def shortOptions (draft : Draft) : List Char → Option Effect
  | [] => some (.change draft)
  | 'v' :: rest => shortOptions draft.addVerbosity rest
  | ['o'] => some (.wait draft Draft.setOutput)
  | 'o' :: '=' :: value => (draft.setOutput (String.ofList value)).map .change
  | 'o' :: value => (draft.setOutput (String.ofList value)).map .change
  | _ => none

/-- The effect of an argument. -/
def effect (draft : Draft) (argument : String) : Option Effect :=
  match argument.toList with
  | '-' :: '-' :: option => longOption draft option
  | '-' :: c :: rest => shortOptions draft (c :: rest)
  | _ => (draft.setInput argument).map .change

/-- Takes arguments that all name files. -/
def readFiles (draft : Draft) : List String → Option Draft
  | [] => some draft
  | argument :: rest => (draft.setInput argument).bind (readFiles · rest)

/-- Takes arguments one after another; `setter` is waiting for a value. -/
def readArguments (draft : Draft) : (setter : Option Setter) → List String → Option Draft
  | none, [] => some draft
  | some _, [] => none
  | some setter, argument :: rest =>
    if isValue argument then (setter draft argument).bind (readArguments · none rest) else none
  | none, argument :: rest =>
    if argument == "--" then readFiles draft rest
    else
      match effect draft argument with
      | some (.change draft) => readArguments draft none rest
      | some (.wait draft setter) => readArguments draft (some setter) rest
      | none => none

/-- The options that a command line asks for, if it makes sense. -/
def Options.ofArguments? (arguments : List String) : Option Options :=
  (readArguments {} none arguments).bind Draft.finish

end Lowering.Cli
