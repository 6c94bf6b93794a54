import TreeSelect.CommandLine.Run
/-!
# The program

The outer layer: it fetches the document that a request needs, and prints the answer.
-/

namespace TreeSelect.CommandLine

/-- Fetches a document. -/
def fetch : Place → IO Fetched
  | .input => return .ok (← (← IO.getStdin).readBinToEnd)
  | .file path =>
    try
      return .ok (← IO.FS.readBinFile (String.ofList path))
    catch
      | .noFileOrDirectory .. => return .error .noSuchFile
      | e => return .error (.other (toString e).toList)

end TreeSelect.CommandLine

open TreeSelect in
/-- Answers the command line. -/
def main (arguments : List String) : IO UInt32 := do
  let arguments := arguments.map String.toList
  let place := (CommandLine.Request.ofArguments? arguments).bind CommandLine.Request.place?
  let fetched ← match place with
    | some place => CommandLine.fetch place
    | none => pure (.ok .empty)
  let outcome := CommandLine.run fetched arguments
  IO.print (String.ofList outcome.output)
  IO.eprint (String.ofList outcome.errors)
  return outcome.code.toUInt32
