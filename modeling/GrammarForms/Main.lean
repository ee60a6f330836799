import GrammarForms.CommandLine.Run

/-!
# The Program

The program reads the file or the standard input that a line names and prints the report of the run.
-/

namespace GrammarForms.CommandLine

def readFailure : IO.Error → ReadFailure
  | .noFileOrDirectory .. => .notFound
  | .inappropriateType .. => .isDirectory
  | error => .other error.toString

/-- The text of the input, or why there is none. -/
def readInput (request : Request) : IO (Except ReadFailure String) := do
  let bytes : Except IO.Error ByteArray ← EIO.toBaseIO <|
    match request.file? with
    | some path => IO.FS.readBinFile path
    | none => do
      (← IO.getStdin).readBinToEnd
  return match bytes with
  | .error error => .error (readFailure error)
  | .ok bytes =>
    match String.fromUTF8? bytes with
    | some text => .ok text
    | none => .error .notText

end GrammarForms.CommandLine

open GrammarForms.CommandLine

def main (arguments : List String) : IO UInt32 := do
  let invocation := Invocation.ofArguments arguments
  let input : Except ReadFailure String ←
    match invocation with
    | .run request => readInput request
    | _ => pure (.error .notFound)
  let report := invocation.report fun _ ↦ input
  IO.print report.out
  IO.eprint report.err
  return report.status.toUInt32
