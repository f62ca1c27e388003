import WasmLift.Code.Return
import WasmLift.Code.Spelling
import WasmLift.Program.Basic

/-!
# From expressions to pseudocode

The walk over an expression tree is the same for every function. How variables, constants, sums and
memory accesses are written depends on how much is known of the function: a `Dialect` says so. A
dialect may keep a state, which the walk threads through the tree in evaluation order.
-/

namespace WasmLift

/-- A step of the walk, which may stop with a cause. -/
abbrev Walk (σ : Type) := ExceptT Cause (StateM σ)

/-- How variables, constants, sums and memory accesses are written. -/
structure Dialect (σ : Type) where
  localGet : Nat → Walk σ Code
  /-- An assignment of a value to a local; the flag says that the value is also used. -/
  localSet : Nat → Code → Bool → Walk σ Code
  globalGet : Nat → Code
  globalSet : Nat → Code → Code
  const : Value → Code
  binary : BinOp → Code → Code → Code
  load : Code → MemArg → Ty → Walk σ Code
  /-- A store of a value of the given type at an address. -/
  store : Code → Code → Ty → MemArg → Walk σ Code

namespace Walk

/-- The name of a global, as it is shown. -/
def globalText (p : Program) (index : Nat) : String :=
  match p.globals[index]? with
  | some g => Spelling.globalName g.name
  | none => s!"global{index}"

/-- A statement list without the statements that print nothing. -/
def keep (node : Code) (rest : List Code) : List Code :=
  if node.isNop then rest else node :: rest

variable {σ : Type}

mutual

/-- Writes a node. -/
def expr (p : Program) (d : Dialect σ) : Expr → Walk σ Code
  | .localGet index _ => d.localGet index
  | .localSet index value tee _ => do
    let v ← expr p d value
    d.localSet index v tee
  | .globalGet index _ => return d.globalGet index
  | .globalSet index value => do
    let v ← expr p d value
    return d.globalSet index v
  | .call target args _ => do
    let as ← exprs p d args
    return .call (p.names.get target).name as
  | .callIndirect target args _ => do
    let as ← exprs p d args
    let t ← expr p d target
    return .callIndirect t as
  | .const value => return d.const value
  | .unary op value => do
    let v ← expr p d value
    return .unary op v
  | .binary op left right => do
    let l ← expr p d left
    let r ← expr p d right
    return d.binary op l r
  | .select condition ifTrue ifFalse _ => do
    let t ← expr p d ifTrue
    let e ← expr p d ifFalse
    let c ← expr p d condition
    return .select c t e
  | .drop value => expr p d value
  | .ret value => do
    let v ← option p d value
    return .ret v
  | .nop => return .nop
  | .unreachable => return .unreachable
  | .block label children _ => do
    let cs ← statements p d children
    return .block label cs
  | .ite condition ifTrue ifFalse ty => do
    let c ← expr p d condition
    let t ← expr p d ifTrue
    let e ← option p d ifFalse
    return .ite c t e (ty != .void)
  | .loop label body _ => do
    let b ← expr p d body
    return .loop label b
  | .br label condition value => do
    let v ← option p d value
    let c ← option p d condition
    return .br label c v
  | .switch labels fallback condition value => do
    let v ← option p d value
    let c ← expr p d condition
    return .switch labels fallback c v
  | .load address arg ty => do
    let a ← expr p d address
    d.load a arg ty
  | .store address value arg => do
    let a ← expr p d address
    let v ← expr p d value
    d.store a v value.ty arg
  | .memorySize => return .memorySize
  | .memoryGrow delta => do
    let v ← expr p d delta
    return .memoryGrow v
  | .memoryCopy target source length => do
    let t ← expr p d target
    let s ← expr p d source
    let l ← expr p d length
    return .memoryCopy t s l
  | .memoryFill target value length => do
    let t ← expr p d target
    let v ← expr p d value
    let l ← expr p d length
    return .memoryFill t v l
termination_by structural e => e

/-- Writes the arguments of a call. -/
def exprs (p : Program) (d : Dialect σ) : List Expr → Walk σ (List Code)
  | [] => return []
  | e :: rest => do
    let node ← expr p d e
    let nodes ← exprs p d rest
    return node :: nodes
termination_by structural es => es

/-- Writes a statement list, without the statements that print nothing. -/
def statements (p : Program) (d : Dialect σ) : List Expr → Walk σ (List Code)
  | [] => return []
  | e :: rest => do
    let node ← expr p d e
    let nodes ← statements p d rest
    return keep node nodes
termination_by structural es => es

/-- Writes a node that may be missing. -/
def option (p : Program) (d : Dialect σ) : Option Expr → Walk σ (Option Code)
  | none => return none
  | some e => do
    let node ← expr p d e
    return some node
termination_by structural e => e

end

/-- Writes the statements of a body, each with whether it has a value, without those that print
nothing. -/
def bodyStatements (p : Program) (d : Dialect σ) : List Expr → Walk σ (List (Code × Bool))
  | [] => return []
  | e :: rest => do
    let node ← expr p d e
    let nodes ← bodyStatements p d rest
    return if node.isNop then nodes else (node, e.isValue) :: nodes

/-- Writes a function: its statements, with its value returned. -/
def function (p : Program) (d : Dialect σ) (f : Function) : Walk σ (List Code) := do
  let returnsValue := f.result != .void
  match f.body? with
  | none => return []
  | some (.block label children _) =>
    let nodes := Code.withReturn returnsValue (← bodyStatements p d children)
    return if label.isSome then [.block label nodes] else nodes
  | some .nop => return []
  | some body =>
    let node ← expr p d body
    return Code.withReturn returnsValue [(node, body.isValue)]

end Walk

end WasmLift
