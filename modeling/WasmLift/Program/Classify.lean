import WasmLift.Program.Backend
import WasmLift.Program.Compression

/-!
# Classifying functions

Unoptimized code computes the frame base of a function in its first three statements: the stack
pointer, the frame size, and their sum or difference, each into a local. Optimized code adjusts the
stack pointer in one statement, or not at all.
-/

namespace WasmLift

namespace Compression

/-- The local and the value of a plain assignment. -/
def plainSet? : Expr → Option (Nat × Expr)
  | .localSet index value false _ => some (index, value)
  | _ => none

/-- The node reads the stack pointer. -/
def readsStackPointer (sp : Nat) : Expr → Bool
  | .globalGet index _ => index == sp
  | _ => false

/-- The integer a node is. -/
def integer? : Expr → Option Int
  | .const v => v.asInteger?
  | _ => none

/-- The two locals that a sum or difference of locals takes. -/
def sumOfLocals? : Expr → Option (Nat × Nat)
  | .binary op (.localGet left _) (.localGet right _) =>
    if op.isAdd || op.isSub then some (left, right) else none
  | _ => none

/-- The frame size, if the statements begin with the computation of a frame base: the stack pointer
and the size go to locals, and the sum or difference of these, in either order, to a third. -/
def frameSize? (sp : Nat) : List Expr → Option Int
  | first :: second :: third :: _ => do
    let (base, source) ← plainSet? first
    guard (readsStackPointer sp source)
    let (size, constant) ← plainSet? second
    let frameSize ← integer? constant
    let (_, sum) ← plainSet? third
    let (left, right) ← sumOfLocals? sum
    guard ((left == base && right == size) || (left == size && right == base))
    return frameSize
  | _ => none

/-- The node is the stack pointer plus or minus an integer, in either order. -/
def isAdjusted (sp : Nat) : Expr → Bool
  | .binary op left right =>
    (op.isAdd || op.isSub) &&
      ((readsStackPointer sp left && (integer? right).isSome) ||
        (readsStackPointer sp right && (integer? left).isSome))
  | _ => false

/-- The statement adjusts the stack pointer and keeps its new value in a local. -/
def isStackAdjustment (sp : Nat) : Expr → Bool
  | .globalSet index (.localSet _ value _ _) => index == sp && isAdjusted sp value
  | _ => false

/-- The level of a body with the given statements. -/
def ofStatements (sp : Nat) (children : List Expr) : Compression :=
  match frameSize? sp children with
  | some frameSize => .decompressed frameSize
  | none =>
    if 1 < children.length then
      match children.findIdx? (isStackAdjustment sp) with
      | some statement => .minor statement
      | none => .maximum
    else .maximum

/-- The level of a function. -/
def classify (stackPointer : Option Nat) (f : Function) : Compression :=
  match f.kind with
  | .imported _ _ => .imported
  | .defined _ (.block _ children _) =>
    match stackPointer with
    | some sp => ofStatements sp children
    | none => .maximum
  | .defined _ _ => .maximum

end Compression

/-- The level of the function at an index; there is nothing to recover beyond the last. -/
def Program.compression (p : Program) (index : Nat) : Compression :=
  match p.functions[index]? with
  | some f => Compression.classify p.stackPointer? f
  | none => .maximum

end WasmLift
