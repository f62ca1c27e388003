/-!
# Binary floating-point formats

A floating-point word is a sign, an exponent field and a fraction field. It is unpacked here into an
exact value: `mantissa · 2 ^ exponent` for the finite ones. `onBoundary` marks a normal word whose
fraction is zero: its lower neighbour is only half as far away as its upper neighbour.
-/

namespace WasmLift.Decimal

/-- The widths of the exponent and fraction fields of an interchange format. -/
structure Format where
  exponentBits : Nat
  fractionBits : Nat
deriving DecidableEq, Repr

namespace Format

/-- Single precision: 32 bits. -/
def single : Format := ⟨8, 23⟩

/-- Double precision: 64 bits. -/
def double : Format := ⟨11, 52⟩

/-- What is subtracted from the exponent field. -/
def bias (f : Format) : Nat :=
  (1 <<< (f.exponentBits - 1)) - 1

end Format

/-- The magnitude of a floating-point word. -/
inductive Magnitude where
  | notANumber
  | infinite
  | zero
  /-- The value `mantissa · 2 ^ exponent`, with a positive mantissa. -/
  | finite (mantissa : Nat) (exponent : Int) (onBoundary : Bool)
deriving DecidableEq, Repr

/-- A floating-point word taken apart. -/
structure Unpacked where
  negative : Bool
  magnitude : Magnitude
deriving DecidableEq, Repr

/-- The sign and magnitude that a word of the format stands for. -/
def Format.unpack (f : Format) (bits : Nat) : Unpacked :=
  let fraction := bits % (1 <<< f.fractionBits)
  let exponent := (bits >>> f.fractionBits) % (1 <<< f.exponentBits)
  let negative := (bits >>> (f.fractionBits + f.exponentBits)) % 2 == 1
  let least : Int := 1 - (f.bias : Int) - f.fractionBits
  if exponent = (1 <<< f.exponentBits) - 1 then
    ⟨negative, if fraction = 0 then .infinite else .notANumber⟩
  else if exponent = 0 then
    ⟨negative, if fraction = 0 then .zero else .finite fraction least false⟩
  else
    ⟨negative, .finite ((1 <<< f.fractionBits) + fraction) (least + (exponent - 1)) (fraction == 0)⟩

end WasmLift.Decimal
