import WasmLift.Command

/-!
# The program

Carries out the run that the arguments ask for.
-/

namespace WasmLift.Command

/-- The content of a file, if it can be read. -/
def readFile? (path : String) : IO (Option (List UInt8)) := do
  try
    let content ← IO.FS.readBinFile path
    return some content.toList
  catch _ => return none

/-- Writes a file; says whether that was possible. -/
def writeFile? (path text : String) : IO Bool := do
  try
    IO.FS.writeFile path text
    return true
  catch _ => return false

/-- Ends a run that fails. -/
def fail (failure : Failure) : IO UInt32 := do
  IO.eprintln failure.line
  return 1

/-- Carries out a run. -/
def carryOut (run : Invocation) : IO UInt32 := do
  IO.eprintln (announcement run)
  match listing run (← readFile? run.input) with
  | .error failure => fail failure
  | .ok text =>
    match run.output with
    | none => IO.print text
    | some path =>
      unless ← writeFile? path text do return ← fail (.writing path)
      IO.eprintln (writtenLine path)
    IO.eprintln completion
    return 0

end WasmLift.Command

/-- The entry point. -/
def main (args : List String) : IO UInt32 :=
  match WasmLift.Command.read args with
  | .ok run => WasmLift.Command.carryOut run
  | .error refusal => return refusal.exitCode.toUInt32
