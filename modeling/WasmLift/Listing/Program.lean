import WasmLift.Listing.Function
import WasmLift.Listing.Table

/-!
# The listing of a program

The functions in order, each after a blank line, then the function tables, then the initialized
memory. In gadgets mode only the functions that some table holds are listed.
-/

namespace WasmLift

namespace Listing

/-- The functions that are listed. -/
def listedFunctions (p : Program) (gadgets : Bool) : List Function :=
  p.functions.filter fun f => !gadgets || p.isInTable (p.functionIndex f)

/-- The fragment of the listing that a function is. -/
def fragment (p : Program) (memory : MemoryImage) (f : Function) : Logged String := do
  let text ← Logged.within (.decompilingFunction (p.functionIndex f) (p.functionName f))
    (function p memory f)
  return "\n" ++ text

/-- What follows the functions: the tables and the initialized memory. -/
def tail (p : Program) (memory : MemoryImage) : Except Cause String := do
  let tables ← tableTexts p 0 p.tables
  return String.join tables ++ (if memory.isEmpty then "" else memory.dump)

/-- Reports the stack pointer that was chosen, if there was a choice. -/
def reportBackend (p : Program) : Logged Unit := do
  match Backend.candidates p.globals with
  | (g, index) :: other :: rest =>
    Logged.emit (.severalStackPointers (other :: rest).length.succ g.name index)
  | _ => return

/-- The listing of a program. -/
def program (p : Program) (gadgets : Bool) : Logged String := do
  reportBackend p
  let backend := p.backend
  if !backend.isSupported then throw (.ofCause (.unsupportedBackend backend.name))
  Logged.emit (.backend backend.name)
  let memory ← Logged.ofExcept ((MemoryImage.ofSegments p.segments).mapError Error.ofCause)
  let listed := listedFunctions p gadgets
  let fragments ← listed.mapM (fragment p memory)
  let rest ← Logged.ofExcept ((tail p memory).mapError Error.ofCause)
  Logged.emit (.emitted listed.length p.functions.length p.tables.length)
  return String.join fragments ++ rest

end Listing

end WasmLift
