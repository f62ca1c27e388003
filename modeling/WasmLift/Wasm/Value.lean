import WasmLift.Wasm.Type
import WasmLift.Decimal.Notation

/-!
# Constants

A constant is a word together with the type that reads it. Floating-point constants are kept as
their bits, so a payload of a word that is not a number survives.
-/

namespace WasmLift

open Decimal (Format Unpacked)

/-- A constant of a number type. -/
inductive Value where
  | i32 (word : BitVec 32)
  | i64 (word : BitVec 64)
  | f32 (bits : BitVec 32)
  | f64 (bits : BitVec 64)
deriving DecidableEq, Repr

namespace Value

/-- The type of a constant. -/
def ty : Value → Ty
  | .i32 _ => .i32
  | .i64 _ => .i64
  | .f32 _ => .f32
  | .f64 _ => .f64

/-- The signed number an integer constant stands for. -/
def asInteger? : Value → Option Int
  | .i32 word => some word.toInt
  | .i64 word => some word.toInt
  | .f32 _ | .f64 _ => none

/-- The sign and magnitude of a floating-point constant. -/
def unpacked? : Value → Option Unpacked
  | .i32 _ | .i64 _ => none
  | .f32 bits => some (Format.single.unpack bits.toNat)
  | .f64 bits => some (Format.double.unpack bits.toNat)

end Value

end WasmLift
