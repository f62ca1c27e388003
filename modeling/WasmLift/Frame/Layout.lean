import WasmLift.Log
import WasmLift.Wasm.Type

/-!
# Stack slots

The variables of a stack frame, found by the accesses made to it. A slot is the byte range of the
access that first touched it. An access inside a slot belongs to it; one that overlaps a slot
without lying inside it has no slot. Where a range ends is a signed number of 64 bits, and the sum
it comes from is not checked: past the greatest such number it goes on with the least.
-/

namespace WasmLift

/-- What is left of a sum of signed 64-bit numbers: it wraps around. -/
def wrap64 (n : Int) : Int :=
  n.bmod 0x10000000000000000

/-- A variable of the frame: its offset from the frame base, its size, and the type of the access
that found it. -/
structure Slot where
  offset : Nat
  size : Nat
  ty : Ty
deriving DecidableEq, Repr

namespace Slot

/-- The offset after the last byte, as a signed 64-bit number. -/
def stop (s : Slot) : Int :=
  wrap64 (s.offset + s.size)

/-- The byte at an offset belongs to the slot. -/
def contains (s : Slot) (offset : Nat) : Bool :=
  s.offset ≤ offset && offset < s.stop

end Slot

/-- The slots found so far, in the order of discovery. -/
structure FrameLayout where
  slots : List Slot := []
deriving DecidableEq, Repr

/-- A place in a slot: where the slot begins, and how far into it. -/
structure SlotPlace where
  offset : Nat
  diff : Nat
deriving DecidableEq, Repr

namespace FrameLayout

/-- The slot that holds the byte at an offset. -/
def find? (layout : FrameLayout) (offset : Nat) : Option Slot :=
  layout.slots.find? (·.contains offset)

/-- The place of the byte at an offset, which may be negative. -/
def placeAt? (layout : FrameLayout) (offset : Int) : Option SlotPlace :=
  if 0 ≤ offset then
    (layout.find? offset.toNat).map fun s => ⟨s.offset, offset.toNat - s.offset⟩
  else none

/-- A slot that begins inside an access but not at its start. -/
def obstacle? (layout : FrameLayout) (offset bytes : Nat) : Option Slot :=
  layout.slots.find? fun s => offset < s.offset && s.offset < wrap64 (offset + bytes)

/-- The outcome of placing an access. -/
inductive Placement where
  /-- The access lies in a slot, which may be new. -/
  | inside (place : SlotPlace) (layout : FrameLayout)
  /-- The access overlaps a slot without lying in it. -/
  | outside (event : Event)
deriving DecidableEq, Repr

/-- Places an access: in the slot it begins in, or in a new slot if it touches none. -/
def place (layout : FrameLayout) (offset bytes : Nat) (ty : Ty) : Placement :=
  match layout.find? offset with
  | some s =>
    if s.stop < wrap64 (offset + bytes) then .outside (.straddles bytes offset s.offset)
    else .inside ⟨s.offset, offset - s.offset⟩ layout
  | none =>
    match layout.obstacle? offset bytes with
    | some s => .outside (.runsInto bytes offset s.offset)
    | none => .inside ⟨offset, 0⟩ ⟨layout.slots ++ [⟨offset, bytes, ty⟩]⟩

end FrameLayout

end WasmLift
