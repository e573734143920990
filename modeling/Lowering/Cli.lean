import Lowering.Cli.Filter
import Lowering.Cli.Options
import Lowering.Compile
import Lowering.Image.Json
import Lowering.Image.Listing
import Lowering.Image.Wire
import Lowering.Link
import Lowering.Tree.Reader

/-!
# The command line

The program reads a statement list from a file, compiles and links it, and puts the image out in one
of three forms. `Cli.process` is all of this but the files: from the options and what was read it makes
the messages and the output.
-/

namespace Lowering.Cli

/-- Why a file cannot be read or written. -/
inductive FileError where
  | notFound
  | isDirectory
  | notUtf8
  | other (reason : String)
  deriving DecidableEq

/-- The wording of an error. -/
def FileError.message : FileError → String
  | .notFound => "No such file or directory (os error 2)"
  | .isDirectory => "Is a directory (os error 21)"
  | .notUtf8 => "stream did not contain valid UTF-8"
  | .other reason => reason

/-- An image in one of its forms. -/
def Format.render (format : Format) (image : Image) : List UInt8 :=
  match format with
  | .listing => Wire.textBytes image.listing
  | .json => Wire.textBytes image.toText
  | .bytes => image.toBytes

/-- A log message; the lines of a long one are indented. -/
def logLine (event : Event) : String :=
  "[" ++ Text.padRight 5 event.level.name ++ " " ++ event.source ++ "] " ++
    "\n    ".intercalate (event.message.splitOn "\n")

/-- What a run of the program says and puts out; a run that fails puts nothing out. -/
structure Report where
  messages : List String
  output : Option (List UInt8)

/-- A run that ends with a message. -/
def Report.failure (messages : List String) (last : String) : Report :=
  ⟨messages ++ [last], none⟩

/-- Compiles and links a statement list. -/
def produce (options : Options) (filter : Filter) (nodes : List Node) : Report :=
  let said (events : List Event) := (events.filter filter.allows).map logLine
  let start : CompileState := if options.withContext then { heap := ({} : Heap).add {} } else {}
  let context : Option SlotId := if options.withContext then some ⟨0⟩ else none
  let (result, state) := (compile nodes context).run.run start
  let events := state.log.reverse
  match result with
  | .error error => .failure (said events) error.message
  | .ok lines =>
    let events := events ++ [.compiled lines.length]
    match link state.heap lines with
    | .error error => .failure (said events) error.message
    | .ok image =>
      ⟨said (events ++ [.linked image.ops.length image.slots.length]),
        some (options.format.render image)⟩

/-- The run of the program on what was read from its file. -/
def process (options : Options) (filter : Filter) (source : Except FileError String) : Report :=
  match source with
  | .error error =>
    .failure [] ("Failed to read '" ++ options.input ++ "': " ++ error.message)
  | .ok text =>
    match statementsOfText text with
    | .error _ => .failure [] ("Invalid syntax tree in '" ++ options.input ++ "':")
    | .ok nodes => produce options filter nodes

/-- The message about an output that cannot be written. -/
def writeFailure (error : FileError) : String :=
  "Failed to write output: " ++ error.message

end Lowering.Cli
