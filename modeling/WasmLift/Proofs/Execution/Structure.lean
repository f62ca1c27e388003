import WasmLift.Proofs.Execution.Machine

/-!
# Structured instructions and validity

A body is the flat form of nested instructions. Validity is a property of the nested form: every
construct leaves exactly its results behind, every operator finds its operands in its own construct,
and branches go to open constructs with the operands they carry. Operand types are not looked at, so
every body that passes validation is valid here. What follows an unconditional transfer of control
is free, as long as it nests.
-/

namespace WasmLift

/-- The operator neither opens nor closes a construct. -/
def Operator.isPlain : Operator → Bool
  | .block _ | .loop _ | .ifThen _ | .elseArm | .finish => false
  | _ => true

/-- A nested instruction. -/
inductive Instr where
  | plain (op : { op : Operator // op.isPlain = true })
  | block (type : BlockType) (body : List Instr)
  | loop (type : BlockType) (body : List Instr)
  | ifThen (type : BlockType) (body : List Instr)
  | ifElse (type : BlockType) (body other : List Instr)

namespace Instr

mutual

/-- The flat form of an instruction. -/
def flatten : Instr → List Operator
  | .plain op => [op.1]
  | .block type body => .block type :: (flattenAll body ++ [.finish])
  | .loop type body => .loop type :: (flattenAll body ++ [.finish])
  | .ifThen type body => .ifThen type :: (flattenAll body ++ [.finish])
  | .ifElse type body other =>
    .ifThen type :: (flattenAll body ++ .elseArm :: (flattenAll other ++ [.finish]))
termination_by structural i => i

/-- The flat form of instructions. -/
def flattenAll : List Instr → List Operator
  | [] => []
  | i :: rest => flatten i ++ flattenAll rest
termination_by structural is => is

end

/-! ## Validity -/

/-- The locals and globals an operator names exist, and it accesses the one memory. -/
def Admits (scope : Scope) (locals : List Ty) : Operator → Prop
  | .localGet index | .localSet index | .localTee index =>
    ∃ ty, locals[index]? = some ty ∧ ty ≠ .void
  | .globalGet index | .globalSet index => ∃ ty, scope.globalTypes[index]? = some ty ∧ ty ≠ .void
  | .load shape m => m.memory = 0 ∧ shape.ty ≠ .void
  | .store _ m => m.memory = 0
  | _ => True

/-- The instructions are valid inside constructs to which branches carry values of the types
`labels`, innermost first, and turn a stack of height `before` into one of height `after`. -/
inductive Valid (scope : Scope) (locals : List Ty) :
    (labels : List Ty) → List Instr → (before after : Nat) → Prop where
  | nil {labels : List Ty} {k : Nat} : Valid scope locals labels [] k k
  /-- An operator that takes and gives operands only. -/
  | operator {labels : List Ty} {op : { op : Operator // op.isPlain = true }} {rest : List Instr}
      {taken given k k' : Nat} (ha : op.1.arity? scope = some (taken, given))
      (hs : Admits scope locals op.1) (hr : Valid scope locals labels rest (given + k) k') :
      Valid scope locals labels (.plain op :: rest) (taken + k) k'
  | unreachable {labels : List Ty} {rest : List Instr} {k k' : Nat} :
      Valid scope locals labels (.plain ⟨.unreachable, rfl⟩ :: rest) k k'
  | br {labels : List Ty} {depth : Nat} {ty : Ty} {rest : List Instr} {k k' : Nat}
      (ht : labels[depth]? = some ty) :
      Valid scope locals labels (.plain ⟨.br depth, rfl⟩ :: rest) (ty.arity + k) k'
  | brIf {labels : List Ty} {depth : Nat} {ty : Ty} {rest : List Instr} {k k' : Nat}
      (ht : labels[depth]? = some ty) (hr : Valid scope locals labels rest (ty.arity + k) k') :
      Valid scope locals labels (.plain ⟨.brIf depth, rfl⟩ :: rest) (1 + (ty.arity + k)) k'
  | brTable {labels : List Ty} {depths : List Nat} {fallback : Nat} {ty : Ty} {rest : List Instr}
      {k k' : Nat} (hf : labels[fallback]? = some ty)
      (hd : ∀ depth ∈ depths, ∃ ty', labels[depth]? = some ty' ∧ ty'.arity = ty.arity) :
      Valid scope locals labels (.plain ⟨.brTable depths fallback, rfl⟩ :: rest)
        (1 + (ty.arity + k)) k'
  | ret {labels : List Ty} {ty : Ty} {rest : List Instr} {k k' : Nat}
      (ht : labels.getLast? = some ty) :
      Valid scope locals labels (.plain ⟨.ret, rfl⟩ :: rest) (ty.arity + k) k'
  | block {labels : List Ty} {type : BlockType} {ty : Ty} {body rest : List Instr} {k k' : Nat}
      (ht : scope.constructTy? type = some ty)
      (hb : Valid scope locals (ty :: labels) body 0 ty.arity)
      (hr : Valid scope locals labels rest (ty.arity + k) k') :
      Valid scope locals labels (.block type body :: rest) k k'
  | loop {labels : List Ty} {type : BlockType} {ty : Ty} {body rest : List Instr} {k k' : Nat}
      (ht : scope.constructTy? type = some ty)
      (hb : Valid scope locals (.void :: labels) body 0 ty.arity)
      (hr : Valid scope locals labels rest (ty.arity + k) k') :
      Valid scope locals labels (.loop type body :: rest) k k'
  | ifThen {labels : List Ty} {type : BlockType} {body rest : List Instr} {k k' : Nat}
      (ht : scope.constructTy? type = some .void)
      (hb : Valid scope locals (.void :: labels) body 0 0)
      (hr : Valid scope locals labels rest k k') :
      Valid scope locals labels (.ifThen type body :: rest) (1 + k) k'
  | ifElse {labels : List Ty} {type : BlockType} {ty : Ty} {body other rest : List Instr}
      {k k' : Nat} (ht : scope.constructTy? type = some ty)
      (hb : Valid scope locals (ty :: labels) body 0 ty.arity)
      (ho : Valid scope locals (ty :: labels) other 0 ty.arity)
      (hr : Valid scope locals labels rest (ty.arity + k) k') :
      Valid scope locals labels (.ifElse type body other :: rest) (1 + k) k'

/-- The operators are a valid function body, with the given parameters and locals and the given
result. -/
def ValidBody (scope : Scope) (locals : List Ty) (result : Ty) (ops : List Operator) : Prop :=
  ∃ body, ops = flattenAll body ++ [.finish] ∧ Valid scope locals [result] body 0 result.arity

/-! ## Running structured instructions -/

open Run

section
variable {h : Host}

/-- Branches to the construct at the given depth, with what it carries. -/
def branch (labels : List Ty) (depth : Nat) (stack : List Value) : Run h Nat (List Value) :=
  match labels[depth]?.bind (·.carriedFrom? stack) with
  | some values => throw (.jump depth values.head?)
  | none => throw .stuck

/-- Leaves a block by a branch to it; branches to outer constructs go on. -/
def leaving (x : Run h Nat (List Value)) : Run h Nat (List Value) :=
  x.onJump fun depth value =>
    match depth with
    | 0 => pure value.toList
    | depth + 1 => throw (.jump depth value)

/-- Restarts a loop at a branch to it, at most `k` times. -/
def restarting (x : Run h Nat (List Value)) : (k : Nat) → Run h Nat (List Value)
  | 0 => x.onJump fun depth value =>
      match depth with
      | 0 => throw .exhausted
      | depth + 1 => throw (.jump depth value)
  | k + 1 => x.onJump fun depth value =>
      match depth with
      | 0 => restarting x k
      | depth + 1 => throw (.jump depth value)

/-- Runs an operator that neither opens nor closes a construct. -/
def execPlain (scope : Scope) (labels : List Ty) (op : Operator) (stack : List Value) :
    Run h Nat (List Value) :=
  match op, stack with
  | .br depth, stack => branch labels depth stack
  | .brIf depth, c :: stack => if c.holds then branch labels depth stack else pure stack
  | .brTable depths fallback, c :: stack => branch labels (depths.getD c.asIndex fallback) stack
  | .ret, stack => branch labels (labels.length - 1) stack
  | .unreachable, _ => throw (.trap .unreachable)
  | op, stack =>
    match op.arity? scope with
    | some (taken, _) =>
      if taken ≤ stack.length then do
        let results ← op.act scope (stack.take taken)
        return results ++ stack.drop taken
      else throw .stuck
    | none => throw .stuck

variable (h)

mutual

/-- Runs an instruction on the operands of its construct. -/
def exec (scope : Scope) (bound : Nat) : Instr → (labels : List Ty) → List Value →
    Run h Nat (List Value)
  | .plain op, labels, stack => execPlain scope labels op.1 stack
  | .block type body, labels, stack =>
    match scope.constructTy? type with
    | none => throw .stuck
    | some ty => do
      let results ← leaving (execAll scope bound body (ty :: labels) [])
      return results ++ stack
  | .loop _ body, labels, stack => do
    let results ← restarting (execAll scope bound body (.void :: labels) []) bound
    return results ++ stack
  | .ifThen type body, labels, stack =>
    match scope.constructTy? type, stack with
    | some ty, c :: stack => do
      let results ← leaving (if c.holds then execAll scope bound body (ty :: labels) [] else pure [])
      return results ++ stack
    | _, _ => throw .stuck
  | .ifElse type body other, labels, stack =>
    match scope.constructTy? type, stack with
    | some ty, c :: stack => do
      let results ← leaving
        (if c.holds then execAll scope bound body (ty :: labels) []
          else execAll scope bound other (ty :: labels) [])
      return results ++ stack
    | _, _ => throw .stuck
termination_by structural i => i

/-- Runs instructions in order. -/
def execAll (scope : Scope) (bound : Nat) : List Instr → (labels : List Ty) → List Value →
    Run h Nat (List Value)
  | [], _, stack => return stack
  | i :: rest, labels, stack => exec scope bound i labels stack >>= execAll scope bound rest labels
termination_by structural is => is

end

end

/-- The outcome of the instructions of a function. A branch to the function itself is a return. -/
def outcome : Except (Exit Nat) (List Value) → Outcome
  | .ok stack => .returned stack.head?
  | .error (.jump 0 value) => .returned value
  | .error (.trap t) => .trapped t
  | .error .exhausted => .running
  | .error (.jump _ _) | .error (.ret _) | .error .stuck => .stuck

/-- What is observed of the instructions of a function with at most `bound` restarts of each
loop. -/
def observe {h : Host} (scope : Scope) (body : List Instr) (result : Ty) (w : World h)
    (bound : Nat) : Observation h :=
  let (x, w') := execAll h scope bound body [result] [] w
  ⟨outcome x, w'.trace, w'.store⟩

end Instr

end WasmLift
