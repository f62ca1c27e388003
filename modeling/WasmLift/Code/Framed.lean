import WasmLift.Code.Dialect
import WasmLift.Memory.Image
import WasmLift.Program.Backend

/-!
# The dialect of unoptimized functions

Unoptimized code keeps every value in a local and spills variables to a frame on the shadow stack.
Locals are treated as registers: an assignment records the value and prints nothing, and a use
prints the recorded value. A value with effects is assigned to a plain local instead, and so is one
that may be read before it is recorded. The stack pointer plus or minus a constant is the frame
base, and an access at a constant distance from it is a stack slot.
-/

namespace WasmLift

/-- The state of the walk over an unoptimized function. -/
structure FrameState where
  /-- The value last recorded for each local. -/
  registers : List (Option Code)
  /-- The locals that are printed as variables, in ascending order. -/
  plain : List Nat := []
  layout : FrameLayout := {}
  /-- What is worth reporting, in order. -/
  events : List Event := []
deriving Repr

namespace Framed

/-- The surroundings of the walk: the program, its memory, the function, and the stack pointer. -/
structure Surroundings where
  program : Program
  memory : MemoryImage
  function : Function
  stackPointer : Option Nat

/-- A step of the walk. -/
abbrev Step := Walk FrameState

/-- Adds a number to a list in ascending order, unless it is there already. -/
def insertSorted (n : Nat) : List Nat → List Nat
  | [] => [n]
  | m :: rest =>
    if n < m then n :: m :: rest
    else if n = m then m :: rest
    else m :: insertSorted n rest

/-- The register of a local. -/
def register (s : Surroundings) (index : Nat) : Step Nat := do
  let slot := index - s.function.params.length
  if slot < (← get).registers.length then return slot
  throw (.malformed (.localIndex index))

/-- From now on the local is printed as a variable. -/
def makePlain (index : Nat) : Step Unit :=
  modify fun st => { st with plain := insertSorted index st.plain }

/-- Records or forgets the value of a register. -/
def record (slot : Nat) (value : Option Code) : Step Unit :=
  modify fun st => { st with registers := st.registers.set slot value }

/-- A use of a local: the recorded value, or the local as a variable. -/
def localGet (s : Surroundings) (index : Nat) : Step Code := do
  if index < s.function.params.length then return .param index
  let slot ← register s index
  let st ← get
  if st.plain.contains index then return .localVar index
  match st.registers[slot]? with
  | some (some value) => return value
  | _ =>
    makePlain index
    return .localVar index

/-- An assignment to a local: a value without effects is recorded, any other is assigned to a
variable. -/
def localSet (s : Surroundings) (index : Nat) (value : Code) (tee : Bool) : Step Code := do
  if index < s.function.params.length then return .assign (.param index) value
  let slot ← register s index
  if (← get).plain.contains index || value.hasEffects then
    makePlain index
    record slot none
    return .assign (.localVar index) value
  record slot (some value)
  return if tee then value else .nop

/-- A use of a global. -/
def globalGet (s : Surroundings) (index : Nat) : Code :=
  if s.stackPointer = some index then .stackPointer
  else .globalVar (Walk.globalText s.program index)

/-- An assignment to a global; one to the stack pointer prints nothing. -/
def globalSet (s : Surroundings) (index : Nat) (value : Code) : Code :=
  if s.stackPointer = some index then .nop
  else .assign (.globalVar (Walk.globalText s.program index)) value

/-- A constant, with the text at its address if there is one. -/
def const (s : Surroundings) (value : Value) : Code :=
  .const value (value.asInteger?.bind s.memory.stringAt?)

/-- The integer a node is. -/
def integer? : Code → Option Int
  | .const value _ => value.asInteger?
  | _ => none

/-- The node is the stack pointer. -/
def isStackPointer : Code → Bool
  | .stackPointer => true
  | _ => false

/-- The frame address at a distance from one of two nodes. -/
def displaced? (left right : Code) (distance : Int) : Option Code :=
  match left, right with
  | .stackBase, _ | _, .stackBase => some (.stackAddress distance)
  | .stackAddress offset, _ | _, .stackAddress offset =>
    some (.stackAddress (wrap64 (offset + distance)))
  | _, _ => none

/-- The frame base or a frame address, if the operation gives one: the stack pointer plus or minus a
constant, or a frame address plus a constant. -/
def frameAddress? (op : BinOp) (left right : Code) : Option Code := do
  let distance ← (integer? left).or (integer? right)
  if (op.isAdd || op.isSub) && (isStackPointer left || isStackPointer right) then
    return .stackBase
  guard op.isAdd
  displaced? left right distance

/-- An operation on two values. -/
def binary (op : BinOp) (left right : Code) : Code :=
  (frameAddress? op left right).getD (.binary op left right)

/-- The offset from the frame base that an address plus a static offset is, if it lies in the
frame. -/
def frameOffset? (address : Code) (offset : Nat) : Option Nat := do
  let base ← match address with
    | .stackBase => some 0
    | .stackAddress distance => some distance
    | _ => none
  guard (offset < 0x8000000000000000)
  let sum := base + offset
  guard (0 ≤ sum && sum < 0x8000000000000000)
  return sum.toNat

/-- The variable of an access: a stack slot, or a dereference. -/
def access (address : Code) (arg : MemArg) (ty : Ty) : Step Code := do
  match frameOffset? address arg.offset with
  | none => return .deref address arg ty
  | some offset =>
    match (← get).layout.place offset arg.bytes ty with
    | .inside place layout =>
      modify ({ · with layout := layout })
      return .slot place
    | .outside event =>
      modify fun st => { st with events := st.events ++ [event] }
      return .deref address arg ty

/-- A store. -/
def store (address value : Code) (ty : Ty) (arg : MemArg) : Step Code := do
  return .assign (← access address arg ty) value

/-- The dialect of an unoptimized function. -/
def dialect (s : Surroundings) : Dialect FrameState where
  localGet := localGet s
  localSet := localSet s
  globalGet := globalGet s
  globalSet := globalSet s
  const := const s
  binary := binary
  load := access
  store := store

/-- The state before the first statement. -/
def initial (s : Surroundings) : FrameState :=
  { registers := List.replicate s.function.locals.length none }

/-- The statements of an unoptimized function, and the state after the last. -/
def statements (s : Surroundings) : Except Cause (List Code) × FrameState :=
  (Walk.function s.program (dialect s) s.function).run.run (initial s)

end Framed

end WasmLift
