import WasmLift.Expr.Builder
import WasmLift.Proofs.Execution.Tree

/-!
# Running operators on the operand stack

The meaning of a flat run of operators. A machine takes one operator at a time off its code and
works on the operands of the innermost open construct. For every open construct it remembers where a
branch to it goes on, what such a branch carries, and the operands that were there before it was
opened. A branch to a block goes on after its end, one to a loop at its beginning.
-/

namespace WasmLift

/-! ## What operators take and give -/

namespace Scope

/-- The type of a structured construct without parameters and with at most one result. -/
def constructTy? (scope : Scope) : BlockType → Option Ty
  | .empty => some .void
  | .value type => Ty.ofValType? type
  | .declared index =>
    match scope.types[index]? with
    | some ⟨[], []⟩ => some .void
    | some ⟨[], [type]⟩ => Ty.ofValType? type
    | _ => none

/-- The signature of a function. -/
def callee? (scope : Scope) (function : Nat) : Option Signature := do
  let type ← scope.funcTypes[function]?
  (Signature.ofFuncType type).toOption

/-- The signature of a declared function type. -/
def declared? (scope : Scope) (index : Nat) : Option Signature := do
  let type ← scope.types[index]?
  (Signature.ofFuncType type).toOption

end Scope

namespace Operator

/-- How many operands an operator takes off the stack and how many results it leaves there; none if
it transfers control or is not supported. -/
def arity? (scope : Scope) : Operator → Option (Nat × Nat)
  | .const _ | .localGet _ | .globalGet _ | .memorySize 0 => some (0, 1)
  | .localSet _ | .globalSet _ | .drop => some (1, 0)
  | .localTee _ | .unary _ | .load _ _ | .memoryGrow 0 => some (1, 1)
  | .binary _ => some (2, 1)
  | .store _ _ => some (2, 0)
  | .memoryCopy 0 0 | .memoryFill 0 => some (3, 0)
  | .select | .typedSelect _ => some (3, 1)
  | .nop => some (0, 0)
  | .call function => (scope.callee? function).map fun s => (s.params.length, s.result.arity)
  | .callIndirect type 0 =>
    (scope.declared? type).map fun s => (s.params.length + 1, s.result.arity)
  | _ => none

/-- The results of an operator, given the operands it took off the stack, topmost first. -/
def act {h : Host} {τ : Type} (scope : Scope) : Operator → List Value → Run h τ (List Value)
  | .const value, [] => return [value]
  | .localGet index, [] => do return [← Run.getLocal index]
  | .localSet index, [v] => do
    Run.setLocal index v
    return []
  | .localTee index, [v] => do
    Run.setLocal index v
    return [v]
  | .globalGet index, [] => do return [← Run.perform (.globalGet index)]
  | .globalSet index, [v] => do
    let _ ← Run.perform (.globalSet index v)
    return []
  | .unary op, [v] => do return [← Run.ofExcept (h.unary op v)]
  | .binary op, [r, l] => do return [← Run.ofExcept (h.binary op l r)]
  | .load shape m, [a] => do
    return [← Run.perform (.load ⟨m.offset, shape.bytes, shape.signed, shape.atomic⟩ shape.ty a)]
  | .store shape m, [v, a] => do
    let _ ← Run.perform
      (.update (.store ⟨m.offset, shape.bytes, shape.signed, shape.atomic⟩ a v))
    return []
  | .memorySize _, [] => do return [← Run.perform .memorySize]
  | .memoryGrow _, [v] => do return [← Run.perform (.update (.grow v))]
  | .memoryCopy _ _, [l, s, t] => do
    let _ ← Run.perform (.update (.copy t s l))
    return []
  | .memoryFill _, [l, v, t] => do
    let _ ← Run.perform (.update (.fill t v l))
    return []
  | .nop, [] => return []
  | .call function, args => do
    match scope.callee? function with
    | some s =>
      return (s.result.keep (← Run.perform (.call (.function function) args.reverse))).toList
    | none => throw .stuck
  | .callIndirect type _, index :: args => do
    match scope.declared? type with
    | some s =>
      return (s.result.keep (← Run.perform
        (.call (.tableEntry index s.result) args.reverse))).toList
    | none => throw .stuck
  | .drop, [_] => return []
  | .select, [c, e, t] | .typedSelect _, [c, e, t] => return [if c.holds then t else e]
  | _, _ => throw .stuck

/-- The operators after the `end` that closes the construct whose inside begins here, with `depth`
constructs open in it. -/
def afterEnd : (depth : Nat) → List Operator → List Operator
  | _, [] => []
  | depth, .block _ :: rest | depth, .loop _ :: rest | depth, .ifThen _ :: rest =>
    afterEnd (depth + 1) rest
  | 0, .finish :: rest => rest
  | depth + 1, .finish :: rest => afterEnd depth rest
  | depth, _ :: rest => afterEnd depth rest

/-- The operators of the second arm of the `if` whose inside begins here, with `depth` constructs
open in it, if there is a second arm. -/
def afterElse? : (depth : Nat) → List Operator → Option (List Operator)
  | _, [] => none
  | depth, .block _ :: rest | depth, .loop _ :: rest | depth, .ifThen _ :: rest =>
    afterElse? (depth + 1) rest
  | 0, .finish :: _ => none
  | depth + 1, .finish :: rest => afterElse? depth rest
  | 0, .elseArm :: rest => some rest
  | depth, _ :: rest => afterElse? depth rest

end Operator

/-! ## The machine -/

/-- An open construct: the type of the value that a branch to it carries, where the branch goes on,
and the operands from before the construct was opened. -/
structure Target where
  carries : Ty
  resume : List Operator
  below : List Value

/-- A machine in the course of running a function. -/
structure Machine (h : Host) where
  code : List Operator
  /-- The operands of the innermost open construct, topmost first. -/
  operands : List Value
  /-- The open constructs, innermost first. The last one is the function. -/
  control : List Target
  world : World h

/-- What can be seen of an execution: it goes on, or how it has ended. -/
inductive Outcome where
  | running
  | returned (value : Option Value)
  | trapped (t : Trap)
  | stuck
deriving DecidableEq, Repr

/-- The values that a branch carries, taken from the top of the stack. -/
def Ty.carriedFrom? (ty : Ty) (operands : List Value) : Option (List Value) :=
  if ty = .void then some [] else operands.head?.map ([·])

namespace Machine

variable {h : Host}

/-- The machine at the start of a function. -/
def start (ops : List Operator) (result : Ty) (w : World h) : Machine h :=
  ⟨ops, [], [⟨result, [], []⟩], w⟩

/-- The end of an execution. -/
def halt (outcome : Outcome) (w : World h) : (Outcome × World h) ⊕ Machine h :=
  .inl (outcome, w)

/-- Opens a construct. -/
def enter (m : Machine h) (target : Target) (code : List Operator) : Machine h :=
  { m with code := code, operands := [], control := target :: m.control }

/-- Leaves the innermost construct with its operands and goes on at the given code. -/
def leave (m : Machine h) (code : List Operator) : (Outcome × World h) ⊕ Machine h :=
  match m.control with
  | [] => halt .stuck m.world
  | target :: control =>
    .inr { m with code := code, operands := m.operands ++ target.below, control := control }

/-- Branches to the construct at the given depth. -/
def jump (m : Machine h) (depth : Nat) : (Outcome × World h) ⊕ Machine h :=
  match m.control[depth]? with
  | none => halt .stuck m.world
  | some target =>
    match target.carries.carriedFrom? m.operands with
    | none => halt .stuck m.world
    | some values =>
      .inr { m with
        code := target.resume
        operands := values ++ target.below
        control := m.control.drop (depth + 1) }

/-- Applies an operator that takes and gives operands only. -/
def apply (scope : Scope) (m : Machine h) (op : Operator) : (Outcome × World h) ⊕ Machine h :=
  match op.arity? scope with
  | none => halt .stuck m.world
  | some (taken, _) =>
    if taken ≤ m.operands.length then
      match (op.act scope (m.operands.take taken) : Run h Nat (List Value)) m.world with
      | (.ok results, w) => .inr { m with operands := results ++ m.operands.drop taken, world := w }
      | (.error (.trap t), w) => halt (.trapped t) w
      | (.error _, w) => halt .stuck w
    else halt .stuck m.world

/-- Takes the topmost operand. -/
def pop (m : Machine h) (k : Value → Machine h → (Outcome × World h) ⊕ Machine h) :
    (Outcome × World h) ⊕ Machine h :=
  match m.operands with
  | [] => halt .stuck m.world
  | v :: operands => k v { m with operands := operands }

/-- Executes one operator, the rest of the code being that of the machine. -/
def execute (scope : Scope) (m : Machine h) (op : Operator) : (Outcome × World h) ⊕ Machine h :=
  match op with
  | .block type =>
    match scope.constructTy? type with
    | none => halt .stuck m.world
    | some ty => .inr (m.enter ⟨ty, Operator.afterEnd 0 m.code, m.operands⟩ m.code)
  | .loop type => .inr (m.enter ⟨.void, .loop type :: m.code, m.operands⟩ m.code)
  | .ifThen type =>
    match scope.constructTy? type with
    | none => halt .stuck m.world
    | some ty => m.pop fun c m =>
      let target : Target := ⟨ty, Operator.afterEnd 0 m.code, m.operands⟩
      if c.holds then .inr (m.enter target m.code)
      else
        match Operator.afterElse? 0 m.code with
        | some code => .inr (m.enter target code)
        | none => .inr { m with code := target.resume }
  | .elseArm => m.leave ((m.control.head?.map (·.resume)).getD [])
  | .finish => m.leave m.code
  | .br depth => m.jump depth
  | .brIf depth => m.pop fun c m => if c.holds then m.jump depth else .inr m
  | .brTable depths fallback => m.pop fun c m => m.jump (depths.getD c.asIndex fallback)
  | .ret => m.jump (m.control.length - 1)
  | .unreachable => halt (.trapped .unreachable) m.world
  | op => m.apply scope op

/-- One step: the execution ends when there is no code left. -/
def step (scope : Scope) (m : Machine h) : (Outcome × World h) ⊕ Machine h :=
  match m.code with
  | [] =>
    if m.control.isEmpty then halt (.returned m.operands.head?) m.world else halt .stuck m.world
  | op :: rest => execute scope { m with code := rest } op

end Machine

/-! ## Observations -/

/-- What can be observed of an execution: its outcome, its effects, latest first, and the store. -/
structure Observation (h : Host) where
  outcome : Outcome
  trace : List Effect
  store : Store h.Memory

namespace Observation

variable {h : Host}

/-- An observation is refined by a later one of the same execution: one that is still going on has
done a part of its effects, and one that has ended does not change any more. -/
def RefinedBy (o o' : Observation h) : Prop :=
  if o.outcome = .running then o.trace <:+ o'.trace else o = o'

/-- Two families of growing observations tell of the same execution, finite or not. -/
def Agree (f g : Nat → Observation h) : Prop :=
  (∀ n, ∃ k, (f n).RefinedBy (g k)) ∧ ∀ k, ∃ n, (g k).RefinedBy (f n)

end Observation

/-- What is observed of a machine after at most `k` steps. -/
def Machine.observe {h : Host} (scope : Scope) : (k : Nat) → Machine h → Observation h
  | 0, m => ⟨.running, m.world.trace, m.world.store⟩
  | k + 1, m =>
    match m.step scope with
    | .inl (outcome, w) => ⟨outcome, w.trace, w.store⟩
    | .inr m' => observe scope k m'

/-- The outcome of the body of a function with the given result. -/
def Exit.outcome (result : Ty) : Except (Exit Label) (Option Value) → Outcome
  | .ok value => .returned (if result = .void then none else value)
  | .error (.ret value) => .returned value
  | .error (.trap t) => .trapped t
  | .error .exhausted => .running
  | .error (.jump _ _) | .error .stuck => .stuck

/-- What is observed of the body of a function with at most `bound` restarts of each loop. -/
def Expr.observe {h : Host} (resolve : NameId → Nat) (body : Expr) (result : Ty) (w : World h)
    (bound : Nat) : Observation h :=
  let (x, w') := eval h resolve bound body w
  ⟨Exit.outcome result x, w'.trace, w'.store⟩

end WasmLift
