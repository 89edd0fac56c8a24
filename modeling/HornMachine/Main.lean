import HornMachine.CommandLine.Report

/-! The command line: reads files and standard input, and prints the report. -/

namespace HornMachine.CommandLine

/-- Read what `read` reads and keep the reason if that fails. -/
def attemptRead (read : IO String) : IO (Except ReadFailure String) := do
  try
    let text ← read
    pure (.ok text)
  catch error =>
    match error with
    | .noFileOrDirectory _ _ _ => pure (.error .missing)
    | error => pure (.error (.other (toString error)))

/-- Read standard input to its end. -/
def readStandardInput : IO String := do
  let stream ← IO.getStdin
  let bytes ← stream.readBinToEnd
  match String.fromUTF8? bytes with
  | some text => pure text
  | none => throw (IO.userError "stream did not contain valid UTF-8")

/-- Print a report and return its exit code. -/
def Report.print (report : Report) : IO UInt32 := do
  IO.print report.output
  IO.eprint report.errors
  pure report.exitCode.toUInt32

end HornMachine.CommandLine

open HornMachine.CommandLine in
/-- Answer the command line. -/
def main (args : List String) : IO UInt32 := do
  let program ← IO.appPath
  let report ← respond (fun path ↦ attemptRead (IO.FS.readFile path))
    (attemptRead readStandardInput) (program.fileName.getD "geowam") args
  report.print
