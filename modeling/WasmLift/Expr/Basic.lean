import WasmLift.Names.Binding
import WasmLift.Wasm.Numeric
import WasmLift.Wasm.Value

/-!
# Expression trees

A function body as a tree: every node owns its operands and has a type, `void` for a statement. A
branch names the label of a block it leaves or of a loop it restarts.
-/

namespace WasmLift

/-- The name of a branch target. -/
structure Label where
  id : Nat
deriving DecidableEq, Repr

/-- A label as it is written. -/
def Label.text (label : Label) : String :=
  s!"label${label.id}"

/-- A memory access: the static offset, the bytes touched, whether a narrow load extends the sign,
and whether the access is atomic. -/
structure MemArg where
  offset : Nat
  bytes : Nat
  signed : Bool
  atomic : Bool
deriving DecidableEq, Repr

/-- A node of a function body. -/
inductive Expr where
  | localGet (index : Nat) (ty : Ty)
  /-- An assignment to a local; with `tee` it also gives the value. -/
  | localSet (index : Nat) (value : Expr) (tee : Bool) (ty : Ty)
  | globalGet (index : Nat) (ty : Ty)
  | globalSet (index : Nat) (value : Expr)
  | call (target : NameId) (args : List Expr) (ty : Ty)
  | callIndirect (target : Expr) (args : List Expr) (ty : Ty)
  | const (value : Value)
  | unary (op : UnOp) (value : Expr)
  | binary (op : BinOp) (left right : Expr)
  | select (condition ifTrue ifFalse : Expr) (ty : Ty)
  | drop (value : Expr)
  | ret (value : Option Expr)
  | nop
  | unreachable
  | block (label : Option Label) (children : List Expr) (ty : Ty)
  | ite (condition ifTrue : Expr) (ifFalse : Option Expr) (ty : Ty)
  | loop (label : Option Label) (body : Expr) (ty : Ty)
  | br (label : Label) (condition value : Option Expr)
  | switch (labels : List Label) (fallback : Option Label) (condition : Expr)
      (value : Option Expr)
  | load (address : Expr) (arg : MemArg) (ty : Ty)
  | store (address value : Expr) (arg : MemArg)
  | memorySize
  | memoryGrow (delta : Expr)
  | memoryCopy (target source length : Expr)
  | memoryFill (target value length : Expr)
deriving Repr, Inhabited

namespace Expr

/-- The type of a node. A conditional branch that carries a value gives it when it is not taken. -/
def ty : Expr → Ty
  | .localGet _ ty | .localSet _ _ _ ty | .globalGet _ ty | .call _ _ ty | .callIndirect _ _ ty
  | .select _ _ _ ty | .block _ _ ty | .ite _ _ _ ty | .loop _ _ ty | .load _ _ ty => ty
  | .const v => v.ty
  | .unary op _ => op.resultTy
  | .binary op _ _ => op.resultTy
  | .br _ (some _) (some value) => value.ty
  | .memorySize | .memoryGrow _ => .i32
  | .globalSet _ _ | .drop _ | .ret _ | .nop | .unreachable | .br _ _ _ | .switch _ _ _ _
  | .store _ _ _ | .memoryCopy _ _ _ | .memoryFill _ _ _ => .void

/-- The node gives a value. -/
def isValue (e : Expr) : Bool :=
  e.ty != .void

/-- Control never goes on after the node. -/
def isTerminator : Expr → Bool
  | .ret _ | .unreachable | .switch _ _ _ _ | .br _ none _ => true
  | _ => false

/-- A list of nodes as one: a single node stays as it is, no node is `nop`, and several are an
unlabeled block. -/
def sequence (children : List Expr) (ty : Ty) : Expr :=
  match children with
  | [] => .nop
  | [e] => e
  | _ => .block none children ty

end Expr

end WasmLift
