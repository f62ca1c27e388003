import WasmLift.Program.Basic

/-!
# The stack pointer

The supported toolchain keeps its shadow stack pointer in the first mutable integer global that has
a constant as its initial value. The width of that global is the pointer width.
-/

namespace WasmLift

/-- The toolchain behind a program, with the index of its stack pointer. -/
inductive Backend where
  | llvm32 (stackPointer : Nat)
  | llvm64 (stackPointer : Nat)
  | unknown
deriving DecidableEq, Repr

namespace Backend

/-- The index of the stack pointer. -/
def stackPointer? : Backend → Option Nat
  | .llvm32 index | .llvm64 index => some index
  | .unknown => none

/-- The toolchain is known. -/
def isSupported : Backend → Bool
  | .llvm32 _ | .llvm64 _ => true
  | .unknown => false

/-- The name of the toolchain. -/
def name : Backend → String
  | .llvm32 _ => "llvm32"
  | .llvm64 _ => "llvm64"
  | .unknown => "unknown"

/-- The global may be a stack pointer. -/
def isCandidate (g : Global) : Bool :=
  g.isMutable && g.ty.isInteger &&
    match g.init with
    | some (.const _) => true
    | _ => false

/-- The globals that may be the stack pointer, with their indices. -/
def candidates (globals : List Global) : List (Global × Nat) :=
  globals.zipIdx.filter fun (g, _) => isCandidate g

/-- The toolchain that the globals of a program show. -/
def detect (globals : List Global) : Backend :=
  match candidates globals with
  | [] => .unknown
  | (g, index) :: _ => if g.ty = .i64 then .llvm64 index else .llvm32 index

end Backend

/-- The toolchain behind a program. -/
def Program.backend (p : Program) : Backend :=
  Backend.detect p.globals

/-- The stack pointer of a program. -/
def Program.stackPointer? (p : Program) : Option Nat :=
  p.backend.stackPointer?

end WasmLift
