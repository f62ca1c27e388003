/-!
# Hexadecimal text

Numbers in the listing are hexadecimal: lowercase digits, most significant first, without leading
zeros unless a width asks for them.
-/

namespace WasmLift.Text

/-- The lowercase hexadecimal digits of a number, without a leading zero except for zero itself. -/
def hexDigits (n : Nat) : List Char :=
  Nat.toDigits 16 n

/-- The hexadecimal digits of a number, filled up with zeros to at least `width` digits. -/
def hexPadded (width n : Nat) : List Char :=
  (hexDigits n).leftpad width '0'

/-- An address or size: the digits after `0x`. -/
def hexNat (n : Nat) : String :=
  "0x" ++ String.ofList (hexDigits n)

/-- A signed number: its magnitude after `0x`, with a minus sign in front of a negative one. -/
def hexInt (v : Int) : String :=
  if v < 0 then "-" ++ hexNat v.natAbs else hexNat v.natAbs

/-- The digits of a 64-bit word, a negative number being read as its two's complement. -/
def hexWord (v : Int) : List Char :=
  hexDigits (BitVec.ofInt 64 v).toNat

/-- The value of a lowercase hexadecimal digit. -/
def hexValue? (c : Char) : Option Nat :=
  if '0' ≤ c ∧ c ≤ '9' then some (c.toNat - 48)
  else if 'a' ≤ c ∧ c ≤ 'f' then some (c.toNat - 87)
  else none

end WasmLift.Text
