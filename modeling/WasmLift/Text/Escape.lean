import WasmLift.Text.Hex

/-!
# Escaped bytes

Bytes are shown inside double quotes. A printable ASCII byte stands for itself, the quote and the
backslash are preceded by a backslash, line feed, carriage return and tab have letters of their own,
and every other byte is `\x` followed by exactly two hexadecimal digits. So an escaped text holds
no bare quote and stays on one line.
-/

namespace WasmLift.Text

/-- A byte that stands for itself between quotes, unless it is the quote or the backslash. -/
def isPrintable (b : UInt8) : Bool :=
  0x20 ≤ b && b ≤ 0x7e

/-- The escaped form of one byte. -/
def escapeByte (b : UInt8) : List Char :=
  if b = 0x22 then ['\\', '"']
  else if b = 0x5c then ['\\', '\\']
  else if b = 0x0a then ['\\', 'n']
  else if b = 0x0d then ['\\', 'r']
  else if b = 0x09 then ['\\', 't']
  else if isPrintable b then [Char.ofNat b.toNat]
  else '\\' :: 'x' :: hexPadded 2 b.toNat

/-- The escaped form of a run of bytes, without the surrounding quotes. -/
def escape (bytes : List UInt8) : String :=
  String.ofList (bytes.flatMap escapeByte)

/-- A text between quotes, its UTF-8 bytes escaped one by one. -/
def quote (s : String) : String :=
  "\"" ++ escape s.toUTF8.toList ++ "\""

end WasmLift.Text
