import FlatXor.Program

/-!
# The outer layer of the program

Only here are files and the environment looked at, and only here is output written.
-/
namespace FlatXor

/-- What there is at a path in the file system. -/
def readContent (path : String) : IO FileContent := do
  try
    return .bytes (← IO.FS.readBinFile path)
  catch
    | .inappropriateType .. => return .directory
    | .noFileOrDirectory .. => return .missing
    | e => return .unreadable (toString e)

/-- The path of the settings file that the arguments name, if any. -/
def settingsPath? (args : List String) (stepLimit : Option String) : Option String :=
  match Invocation.parse args stepLimit with
  | .ok invocation => invocation.config
  | .error _ => none

/-- A search without an end. -/
partial def runForever : IO Unit := do
  IO.sleep 1000
  runForever

end FlatXor

open FlatXor in
/-- Runs the program. -/
def main (args : List String) : IO UInt32 := do
  let stepLimit ← IO.getEnv Invocation.maxStepsVariable
  let content ← match settingsPath? args stepLimit with
    | some path => readContent path
    | none => pure .missing
  match Program.run args ⟨stepLimit, fun _ => content⟩ with
  | none =>
    runForever
    return 1
  | some result =>
    let out ← IO.getStdout
    out.putStr result.output
    out.flush
    unless result.report.isEmpty do
      (← IO.getStderr).putStrLn result.report
    return result.exitCode.toUInt32
