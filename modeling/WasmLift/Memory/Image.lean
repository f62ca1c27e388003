import WasmLift.Error
import WasmLift.Module.Basic
import WasmLift.Text.Escape

/-!
# The initialized memory

The data segments laid over each other, from the lowest address any of them covers to the highest.
Where segments overlap the later one shows, and a gap between them is zero.
-/

namespace WasmLift

/-- A stretch of memory: its bytes, from address `min` up to but not including `max`. -/
structure MemoryImage where
  min : Nat := 0
  max : Nat := 0
  bytes : List UInt8 := []
deriving DecidableEq, Repr

namespace MemoryImage

/-- The longest stretch an image can hold. -/
def maxSpan : Nat := 0x100000000

/-- Replaces the bytes from `start` on by those of a segment. -/
def overlay (bytes : List UInt8) (start : Nat) (content : List UInt8) : List UInt8 :=
  bytes.take start ++ content ++ bytes.drop (start + content.length)

/-- The address after the last byte of a segment, which must not exceed the address space. -/
def segmentEnd (s : DataSegment) : Except Cause Nat :=
  if s.offset + s.bytes.length < 0x10000000000000000 then .ok (s.offset + s.bytes.length)
  else .error (.malformed (.segmentEnd s.offset))

/-- The greatest of an address and the ends of the segments. -/
def greatestEnd : List DataSegment → (max : Nat) → Except Cause Nat
  | [], max => .ok max
  | s :: rest, max => do greatestEnd rest (Nat.max max (← segmentEnd s))

/-- The least of an address and the offsets of the segments. -/
def leastOffset (segments : List DataSegment) (min : Nat) : Nat :=
  segments.foldl (fun least s => Nat.min least s.offset) min

/-- The image of a list of segments. -/
def ofSegments : List DataSegment → Except Cause MemoryImage
  | [] => .ok {}
  | first :: rest => do
    let segments := first :: rest
    let min := leastOffset rest first.offset
    let max ← greatestEnd segments min
    if maxSpan < max - min then throw (.malformed (.segmentSpan (max - min)))
    let bytes := segments.foldl (fun bytes s => overlay bytes (s.offset - min) s.bytes)
      (List.replicate (max - min) 0)
    return ⟨min, max, bytes⟩

/-- The image has no byte. -/
def isEmpty (image : MemoryImage) : Bool :=
  image.bytes.isEmpty

/-- The address is one of the image. -/
def contains (image : MemoryImage) (address : Int) : Bool :=
  image.min ≤ address && address < image.max

/-- A byte of a text: printable, a line feed, a tab or a carriage return. -/
def isTextByte (b : UInt8) : Bool :=
  Text.isPrintable b || b == 0x0a || b == 0x09 || b == 0x0d

/-- The bytes before the first zero byte, if there is one. -/
def beforeZero? : List UInt8 → Option (List UInt8)
  | [] => none
  | b :: rest => if b = 0 then some [] else (beforeZero? rest).map (b :: ·)

/-- The zero-terminated text at an address, escaped, if it is at least two text bytes long. -/
def stringAt? (image : MemoryImage) (address : Int) : Option String := do
  guard (image.contains address)
  let text ← beforeZero? (image.bytes.drop (address.toNat - image.min))
  guard (2 ≤ text.length && text.all isTextByte)
  return Text.escape text

/-- How many bytes a row of the dump shows. -/
def rowSize : Nat := 16

/-- A row of the dump: its address, its bytes in hexadecimal and as escaped text. -/
def dumpRow (address : Nat) (row : List UInt8) : String :=
  let hex := List.intercalate [' '] (row.map fun b => Text.hexPadded 2 b.toNat)
  "// " ++ String.ofList (Text.hexPadded 8 address) ++ ": " ++ String.ofList hex ++ " : \"" ++
    Text.escape row ++ "\"\n"

/-- The rows of at most `fuel` bytes from an address on. -/
def dumpRows : (fuel address : Nat) → List UInt8 → String
  | 0, _, _ => ""
  | fuel + 1, address, bytes =>
    if bytes.isEmpty then ""
    else dumpRow address (bytes.take rowSize) ++
      dumpRows fuel (address + rowSize) (bytes.drop rowSize)

/-- The image as comment lines under a banner. -/
def dump (image : MemoryImage) : String :=
  "\n/****INITIALIZED MEMORY DUMP****/\n" ++
    dumpRows image.bytes.length image.min image.bytes

end MemoryImage

end WasmLift
