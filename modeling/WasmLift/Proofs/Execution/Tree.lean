import WasmLift.Proofs.Execution.Host

/-!
# Running a tree

The meaning of an expression tree. Children of a block run in order, operands in the order of the
operand stack: both choices of a `select` before its condition, the arguments of an indirect call
before the table index, the value that a branch carries before its condition. A branch leaves the
block, or restarts the loop, that bears its label. A loop may be restarted at most `bound` times
each time it is entered, so that every run ends; what a tree does is what it does for growing
bounds.
-/

namespace WasmLift

namespace Run

variable {h : Host} {α : Type}

/-- Ends a block with the value of a branch that bears its label. -/
def catching (label : Option Label) (x : Run h Label (Option Value)) :
    Run h Label (Option Value) :=
  x.onJump fun target value => if label = some target then pure value else throw (.jump target value)

/-- Restarts a loop at a branch that bears its label, at most `k` times. -/
def looping (label : Option Label) (x : Run h Label α) : (k : Nat) → Run h Label α
  | 0 => x.onJump fun target value =>
      if label = some target then throw .exhausted else throw (.jump target value)
  | k + 1 => x.onJump fun target value =>
      if label = some target then looping label x k else throw (.jump target value)

/-- The value of a construct of the given type, which has to be there unless the type is `void`. -/
def settle (ty : Ty) (value : Option Value) : Run h Label (Option Value) :=
  if ty = .void then pure none else some <$> demand value

end Run

namespace Expr

open Run

section
variable (h : Host) (resolve : NameId → Nat) (bound : Nat)

mutual

/-- Runs a node and gives its value, if it has one. Called functions are found by `resolve`. -/
def eval : Expr → Run h Label (Option Value)
  | .localGet index ty => do
    let v ← getLocal index
    return ty.keep v
  | .localSet index value _ ty => do
    let v ← eval value >>= demand
    setLocal index v
    return ty.keep v
  | .globalGet index ty => do
    let v ← perform (.globalGet index)
    return ty.keep v
  | .globalSet index value => do
    let v ← eval value >>= demand
    let _ ← perform (.globalSet index v)
    return none
  | .call target args ty => do
    let vs ← operands args
    let v ← perform (.call (.function (resolve target)) vs)
    return ty.keep v
  | .callIndirect target args ty => do
    let vs ← operands args
    let index ← eval target >>= demand
    let v ← perform (.call (.tableEntry index ty) vs)
    return ty.keep v
  | .const value => return some value
  | .unary op value => do
    let v ← eval value >>= demand
    some <$> ofExcept (h.unary op v)
  | .binary op left right => do
    let l ← eval left >>= demand
    let r ← eval right >>= demand
    some <$> ofExcept (h.binary op l r)
  | .select condition ifTrue ifFalse ty => do
    let t ← eval ifTrue >>= demand
    let e ← eval ifFalse >>= demand
    let c ← eval condition >>= demand
    return ty.keep (if c.holds then t else e)
  | .drop value => do
    let _ ← eval value >>= demand
    return none
  | .ret value => do
    let v ← carried value
    throw (.ret v)
  | .nop => return none
  | .unreachable => throw (.trap .unreachable)
  | .block label children ty => catching label (statements children) >>= settle ty
  | .ite condition ifTrue ifFalse ty => do
    let c ← eval condition >>= demand
    (if c.holds then eval ifTrue else arm ifFalse) >>= settle ty
  | .loop label body ty => looping label (eval body) bound >>= settle ty
  | .br label condition value => do
    let v ← carried value
    match ← carried condition with
    | none => throw (.jump label v)
    | some c => if c.holds then throw (.jump label v) else return v
  | .switch labels fallback condition value => do
    let v ← carried value
    let c ← eval condition >>= demand
    match labels[c.asIndex]?.or fallback with
    | some label => throw (.jump label v)
    | none => throw .stuck
  | .load address arg ty => do
    let a ← eval address >>= demand
    let v ← perform (.load arg ty a)
    return ty.keep v
  | .store address value arg => do
    let a ← eval address >>= demand
    let v ← eval value >>= demand
    let _ ← perform (.update (.store arg a v))
    return none
  | .memorySize => some <$> perform .memorySize
  | .memoryGrow delta => do
    let v ← eval delta >>= demand
    some <$> perform (.update (.grow v))
  | .memoryCopy target source length => do
    let t ← eval target >>= demand
    let s ← eval source >>= demand
    let l ← eval length >>= demand
    let _ ← perform (.update (.copy t s l))
    return none
  | .memoryFill target value length => do
    let t ← eval target >>= demand
    let v ← eval value >>= demand
    let l ← eval length >>= demand
    let _ ← perform (.update (.fill t v l))
    return none
termination_by structural e => e

/-- The values of operands, from left to right. -/
def operands : List Expr → Run h Label (List Value)
  | [] => return []
  | e :: rest => do
    let v ← eval e >>= demand
    let vs ← operands rest
    return v :: vs
termination_by structural es => es

/-- Runs statements in order and gives the value of the last. -/
def statements : List Expr → Run h Label (Option Value)
  | [] => return none
  | e :: rest => do
    let v ← eval e
    match rest with
    | [] => return v
    | _ :: _ => statements rest
termination_by structural es => es

/-- The value that a branch carries or depends on, if there is one. -/
def carried : Option Expr → Run h Label (Option Value)
  | none => return none
  | some e => do
    let v ← eval e >>= demand
    return some v
termination_by structural e => e

/-- Runs the second arm of a conditional, if there is one. -/
def arm : Option Expr → Run h Label (Option Value)
  | none => return none
  | some e => eval e
termination_by structural e => e

end

end

end Expr

end WasmLift
