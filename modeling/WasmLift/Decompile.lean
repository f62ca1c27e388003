import WasmLift.Listing.Program
import WasmLift.Module.Decode
import WasmLift.Program.Expand

/-!
# Decompilation

From the bytes of a module to its listing. The first construct that is not supported ends the run.
-/

namespace WasmLift

/-- The listing of the module that the bytes stand for. In gadgets mode only the functions that some
function table holds are listed. -/
def decompile (input : List UInt8) (gadgets : Bool) : Logged String := do
  let m ← Logged.within .parsing (Module.decode input)
  let p ← Logged.within .expanding (Program.ofModule m)
  Logged.within .generating (Listing.program p gadgets)

end WasmLift
