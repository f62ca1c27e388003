import WasmLift.Wasm.Value

/-!
# Initial values

The value of a constant expression as far as it is known without running the module: a constant, or
the value of another global.
-/

namespace WasmLift

open Decimal (Exceptional Magnitude)

/-- An initial value. -/
inductive Init where
  | value (v : Value)
  | globalGet (index : Nat)
deriving DecidableEq, Repr

namespace Init

/-- How floating-point words without digits are named in a report. -/
def exceptional : Exceptional := ⟨"NaN", "inf"⟩

/-- The text an initial value is reported with. -/
def report : Init → String
  | .value (.i32 word) => s!"I32({word.toInt})"
  | .value (.i64 word) => s!"I64({word.toInt})"
  | .value (.f32 bits) =>
    let digits := (Decimal.Format.single.unpack bits.toNat).text exceptional Magnitude.compact?
    s!"F32({digits})"
  | .value (.f64 bits) =>
    let digits := (Decimal.Format.double.unpack bits.toNat).text exceptional Magnitude.compact?
    s!"F64({digits})"
  | .globalGet index => s!"GlobalGet({index})"

end Init

end WasmLift
