import RoundTrip.Format

/-!
# The command line

The program reads its input, asks `runProgram` what becomes of it, and writes the output that the
report asks for. It decides nothing by itself: a step that the machine refuses becomes a part of
the storage, and the report is made again from there.
-/

set_option autoImplicit false

namespace RoundTrip.CommandLine

/-- The configuration of the program: no log and no limit. -/
def settings : Config := .parse "" "" ""

/-- The text of an error of the machine. -/
def errorText : IO.Error → String
  | .noFileOrDirectory _ _ _ => "no such file or directory"
  | .inappropriateType _ 20 _ => "not a directory"
  | .inappropriateType _ 21 _ => "is a directory"
  | .permissionDenied _ _ _ => "permission denied"
  | e => e.toString

/-- An error of the machine as the failure of a step. -/
def failureOf (verb path : String) (e : IO.Error) : Failure :=
  .within (verb ++ " " ++ path) (.plain (errorText e))

/-- Opens and reads a file. -/
def readInput (path : String) : IO (Except Failure Run.Source) := do
  match ← (IO.FS.Handle.mk path .read).toBaseIO with
  | .error e => return .error (failureOf "open" path e)
  | .ok handle =>
      match ← handle.readBinToEnd.toBaseIO with
      | .error e => return .ok { contents := [], failure := some (failureOf "read" path e) }
      | .ok bs => return .ok { contents := bs.toList, failure := none }

/-- Creates a file and writes its contents. -/
def writeOutput (path : String) (bs : Bytes) : IO (Except Failure Run.Sink) := do
  match ← (IO.FS.Handle.mk path .write).toBaseIO with
  | .error e => return .error (failureOf "open" path e)
  | .ok handle =>
      let written : IO Unit := do
        handle.write ⟨bs.toArray⟩
        handle.flush
      match ← written.toBaseIO with
      | .error e => return .ok { Run.Sink.ideal with syncFailure := failureOf "write" path e }
      | .ok _ => return .ok .ideal

/-- The run of the program on the files of the machine. -/
def perform (args : List String) : IO Run.Report := do
  let input ← match Run.Arguments.parse args with
    | .ok a => readInput a.input
    | .error e => pure (.error e)
  let report (output : Except Failure Run.Sink) : Run.Report :=
    runProgram settings ⟨fun _ => input, fun _ => output⟩ args
  let planned := report (.ok .ideal)
  match planned.stored with
  | none => return planned
  | some (path, bs) => return report (← writeOutput path bs)

end RoundTrip.CommandLine

open RoundTrip in
/-- Runs the harness that the program is named for. -/
def main (rest : List String) : IO UInt32 := do
  let args := (← IO.appPath).toString :: rest
  let report ← CommandLine.perform args
  (← IO.getStderr).putStr (Run.transcript CommandLine.settings.logger? args report)
  return UInt32.ofNat (exitStatus report.failure)
