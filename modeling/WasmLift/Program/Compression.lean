/-!
# Compression levels

How much of a function's stack frame is still visible in its body.
-/

namespace WasmLift

/-- The compression level of a function. -/
inductive Compression where
  /-- The function has no body. -/
  | imported
  /-- The frame base is computed into a local by the first three statements. -/
  | decompressed (frameSize : Int)
  /-- The stack pointer is adjusted in place by the statement at this position. -/
  | minor (statement : Nat)
  /-- Nothing of the frame is left to recover. -/
  | maximum
deriving DecidableEq, Repr

namespace Compression

/-- The level as a number, from -1 for an import to 2. -/
def level : Compression → Int
  | .imported => -1
  | .decompressed _ => 0
  | .minor _ => 1
  | .maximum => 2

/-- The text the level is logged with. -/
def report : Compression → String
  | .imported => "Imported"
  | .decompressed frameSize => s!"Decompressed \x7b frame_size: {frameSize} \x7d"
  | .minor statement => s!"Minor \x7b statement: {statement} \x7d"
  | .maximum => "Maximum"

end Compression

end WasmLift
