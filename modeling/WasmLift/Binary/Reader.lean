/-!
# Reading the binary format

A reader takes a value from the front of a list of bytes and leaves the rest, or fails. The numbers
of the format are variable-length: seven bits a byte, least significant group first, the high bit of
a byte saying that another follows. A number of `n` bits has at most `n / 7` bytes rounded up, and
the bits of the last one that do not fit must be zero, or copies of the sign.
-/

namespace WasmLift.Binary

/-- A reader of the binary format. -/
abbrev Reader := StateT (List UInt8) Option

namespace Reader

/-- The next byte. -/
def byte : Reader Nat
  | [] => none
  | b :: rest => some (b.toNat, rest)

/-- The next byte, left where it is. -/
def peek : Reader Nat
  | [] => none
  | b :: rest => some (b.toNat, b :: rest)

/-- The next `n` bytes. -/
def bytes (n : Nat) : Reader (List UInt8) := fun input =>
  let front := input.take n
  if front.length = n then some (front, input.drop n) else none

/-- Succeeds if the condition holds. -/
def require (condition : Bool) : Reader Unit :=
  if condition then pure () else failure

/-- An unsigned number of at most `groups + 1` bytes, the last of which holds `last` bits. -/
def unsigned (last : Nat) : (groups : Nat) → Reader Nat
  | 0 => do
    let b ← byte
    require (b < 1 <<< last)
    return b
  | groups + 1 => do
    let b ← byte
    if b < 128 then return b
    let high ← unsigned last groups
    return b - 128 + 128 * high

/-- A signed number of at most `groups + 1` bytes, the last of which holds `last` bits. -/
def signed (last : Nat) : (groups : Nat) → Reader Int
  | 0 => do
    let b ← byte
    if b < 1 <<< (last - 1) then return b
    require (128 - (1 <<< (last - 1)) ≤ b && b < 128)
    return b - 128
  | groups + 1 => do
    let b ← byte
    if b < 64 then return b
    if b < 128 then return b - 128
    let high ← signed last groups
    return b - 128 + 128 * high

/-- An unsigned 32-bit number. -/
def u32 : Reader Nat :=
  unsigned 4 4

/-- An unsigned 64-bit number. -/
def u64 : Reader Nat :=
  unsigned 1 9

/-- A signed 32-bit number. -/
def s32 : Reader Int :=
  signed 4 4

/-- A signed 33-bit number, which holds every index beside negative codes. -/
def s33 : Reader Int :=
  signed 5 4

/-- A signed 64-bit number. -/
def s64 : Reader Int :=
  signed 1 9

/-- A number of `n` bytes, least significant byte first. -/
def littleEndian : (n : Nat) → Reader Nat
  | 0 => return 0
  | n + 1 => do
    let b ← byte
    let high ← littleEndian n
    return b + 256 * high

/-- A length and that many bytes. -/
def sized : Reader (List UInt8) := do
  bytes (← u32)

/-- A text of the given size in bytes, in its UTF-8 form. -/
def utf8 (size : Nat) : Reader String := do
  let content ← bytes size
  (String.fromUTF8? (ByteArray.mk content.toArray) : Option String)

/-- The longest name of an import, an export or a custom section, in bytes. -/
def maxTextSize : Nat := 100000

/-- A name of an import, an export or a custom section: its size and its text. -/
def text : Reader String := do
  let size ← u32
  require (size ≤ maxTextSize)
  utf8 size

/-- A name in a name section: its size, which has no limit, and its text. -/
def longText : Reader String := do
  utf8 (← u32)

/-- The same item `n` times. -/
def repeated {α : Type} (item : Reader α) : (n : Nat) → Reader (List α)
  | 0 => return []
  | n + 1 => do
    let a ← item
    let rest ← repeated item n
    return a :: rest

/-- A count of at most `limit` and that many items. -/
def vector {α : Type} (limit : Nat) (item : Reader α) : Reader (List α) := do
  let count ← u32
  require (count ≤ limit)
  repeated item count

/-- Reads the whole of the bytes: nothing may be left over. -/
def whole {α : Type} (r : Reader α) (input : List UInt8) : Option α :=
  match r input with
  | some (a, []) => some a
  | _ => none

end Reader

end WasmLift.Binary
