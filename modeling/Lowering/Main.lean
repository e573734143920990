import Lowering.Cli

/-!
# The program

Reads the file that the command line names, and writes what `Cli.process` makes of it. The variable
`RUST_LOG` overrides the level of messages that `-v` asks for.
-/

open Lowering Lowering.Cli

/-- Reads a text file. -/
def readSource (path : String) : IO (Except FileError String) := do
  try
    let bytes ← IO.FS.readBinFile path
    match String.fromUTF8? bytes with
    | some text => return .ok text
    | none => return .error .notUtf8
  catch error => return .error (.other (toString error))

/-- Writes the output to a file or to the standard output. -/
def writeOutput (output : Option String) (bytes : List UInt8) : IO Unit :=
  match output with
  | some path => IO.FS.writeBinFile path bytes.toByteArray
  | none => do (← IO.getStdout).write bytes.toByteArray

/-- The program: exits with 2 when the command line makes no sense and with 1 when it fails. -/
def main (arguments : List String) : IO UInt32 := do
  match Options.ofArguments? arguments with
  | none =>
    IO.eprintln "error: the command line makes no sense"
    return 2
  | some options =>
    let filter := match ← IO.getEnv "RUST_LOG" with
      | some text => Filter.ofText text
      | none => Filter.ofVerbosity options.verbosity
    let report := process options filter (← readSource options.input)
    report.messages.forM fun message => IO.eprintln message
    match report.output with
    | none => return 1
    | some bytes =>
      try
        writeOutput options.output bytes
        return 0
      catch error =>
        IO.eprintln (writeFailure (.other (toString error)))
        return 1
