import WasmLift.Expr.Basic
import WasmLift.Frame.Layout

/-!
# Pseudocode trees

The form in which a function is printed. Besides the nodes of an expression tree there are the
variables that have been recovered: parameters, locals, named globals, stack slots and the frame
base.
-/

namespace WasmLift

/-- A node of pseudocode. -/
inductive Code where
  | param (index : Nat)
  | localVar (index : Nat)
  | globalVar (name : String)
  /-- A stack slot, or the bytes at a distance into it. -/
  | slot (place : SlotPlace)
  | stackBase
  /-- The frame base plus a constant. -/
  | stackAddress (offset : Int)
  | stackPointer
  /-- The memory at an address plus a static offset, as a value of the given type. -/
  | deref (address : Code) (arg : MemArg) (ty : Ty)
  | assign (target value : Code)
  | call (name : String) (args : List Code)
  | callIndirect (target : Code) (args : List Code)
  /-- A constant, with the text it points to if there is one. -/
  | const (value : Value) (text : Option String)
  | unary (op : UnOp) (value : Code)
  | binary (op : BinOp) (left right : Code)
  | select (condition ifTrue ifFalse : Code)
  | ret (value : Option Code)
  | nop
  | unreachable
  | block (label : Option Label) (children : List Code)
  /-- A conditional; `isValue` says that it stands for a value. -/
  | ite (condition ifTrue : Code) (ifFalse : Option Code) (isValue : Bool)
  | loop (label : Option Label) (body : Code)
  | br (label : Label) (condition value : Option Code)
  | switch (labels : List Label) (fallback : Option Label) (condition : Code)
      (value : Option Code)
  | memorySize
  | memoryGrow (delta : Code)
  | memoryCopy (target source length : Code)
  | memoryFill (target value length : Code)
deriving Repr, Inhabited

namespace Code

/-- Control never goes on after the node. -/
def isTerminator : Code → Bool
  | .ret _ | .unreachable | .switch _ _ _ _ | .br _ none _ => true
  | _ => false

/-- The node prints nothing. -/
def isNop : Code → Bool
  | .nop => true
  | _ => false

/-- Evaluating the node twice, or not at all, could be noticed. -/
def hasEffects : Code → Bool
  | .param _ | .localVar _ | .globalVar _ | .slot _ | .stackBase | .stackAddress _ | .stackPointer
  | .const _ _ | .nop | .memorySize => false
  | .deref address _ _ => address.hasEffects
  | .unary _ value => value.hasEffects
  | .binary _ left right => left.hasEffects || right.hasEffects
  | .select condition ifTrue ifFalse =>
    condition.hasEffects || ifTrue.hasEffects || ifFalse.hasEffects
  | _ => true

/-- The node fits into a larger expression. -/
def isExpression : Code → Bool
  | .ret _ | .nop | .unreachable | .block _ _ | .loop _ _ | .br _ _ _ | .switch _ _ _ _
  | .ite _ _ _ false => false
  | _ => true

end Code

end WasmLift
