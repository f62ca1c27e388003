import WasmLift.Expr.Basic

/-!
# Executions and their surroundings

What an execution of a function does and what it can be told apart by. The surroundings of a
function, a `Host`, say what numeric operators compute, how the memory answers, and what called
functions do to globals and memory. The state of an execution, a `World`, holds the locals, the
globals and the memory, and the trace of everything that was asked of the surroundings. A `Run` is
an execution step that may leave its place by an `Exit`: a jump, a return or a trap.
-/

namespace WasmLift

/-! ## Effects -/

/-- Why an execution is aborted. -/
inductive Trap where
  | unreachable
  /-- A failed operation, such as a division by zero, an access out of bounds, or a trap inside a
  called function. -/
  | failed (reason : String)
deriving DecidableEq, Repr

/-- What is called: a function, or what the function table holds at an index, which has to have the
given result. -/
inductive Callee where
  | function (index : Nat)
  | tableEntry (index : Value) (result : Ty)
deriving DecidableEq, Repr

/-- A change of the memory. -/
inductive MemoryUpdate where
  | store (arg : MemArg) (address value : Value)
  | grow (delta : Value)
  | copy (target source length : Value)
  | fill (target value length : Value)
deriving DecidableEq, Repr

/-- Something that a function asks of its surroundings. -/
inductive Effect where
  | globalGet (index : Nat)
  | globalSet (index : Nat) (value : Value)
  | load (arg : MemArg) (ty : Ty) (address : Value)
  | memorySize
  | update (u : MemoryUpdate)
  | call (callee : Callee) (args : List Value)
deriving DecidableEq, Repr

/-- What outlives a function: the globals and the memory. -/
structure Store (μ : Type) where
  globals : Nat → Value
  memory : μ

/-- The surroundings of a function. Nothing is assumed of them: whatever they do, they do it the
same way each time. An answer that nobody uses is still given. -/
structure Host where
  /-- The states of the memory. -/
  Memory : Type
  unary : UnOp → Value → Except Trap Value
  binary : BinOp → Value → Value → Except Trap Value
  load : MemArg → Ty → Value → Memory → Except Trap Value
  memorySize : Memory → Value
  update : MemoryUpdate → Memory → Except Trap Value × Memory
  call : Callee → List Value → Store Memory → Except Trap Value × Store Memory

/-- The answer to an effect, and the store after it. -/
def Host.perform (h : Host) : Effect → Store h.Memory → Except Trap Value × Store h.Memory
  | .globalGet index, s => (.ok (s.globals index), s)
  | .globalSet index value, s =>
    (.ok value, { s with globals := fun i => if i = index then value else s.globals i })
  | .load arg ty address, s => (h.load arg ty address s.memory, s)
  | .memorySize, s => (.ok (h.memorySize s.memory), s)
  | .update u, s =>
    let (answer, memory) := h.update u s.memory
    (answer, { s with memory := memory })
  | .call callee args, s => h.call callee args s

/-- The state of an execution. -/
structure World (h : Host) where
  locals : Nat → Value
  store : Store h.Memory
  /-- The effects so far, latest first. -/
  trace : List Effect

/-- The world with a local assigned. -/
def World.setLocal {h : Host} (w : World h) (index : Nat) (value : Value) : World h :=
  { w with locals := fun i => if i = index then value else w.locals i }

/-! ## Runs -/

/-- How a run can end other than by reaching its end. -/
inductive Exit (τ : Type) where
  /-- A branch, with the value it carries. -/
  | jump (target : τ) (value : Option Value)
  | ret (value : Option Value)
  | trap (t : Trap)
  /-- The bound on the restarts of a loop was reached. -/
  | exhausted
  /-- There is no way to go on, for want of an operand or of a target. -/
  | stuck
deriving DecidableEq, Repr

/-- An execution step whose branches name targets of type `τ`. -/
abbrev Run (h : Host) (τ : Type) := ExceptT (Exit τ) (StateM (World h))

namespace Run

variable {h : Host} {τ τ' α β : Type}

/-- The outcome of an operation that may trap. -/
def ofExcept (x : Except Trap α) : Run h τ α :=
  match x with
  | .ok a => pure a
  | .error t => throw (.trap t)

/-- Asks something of the surroundings. -/
def perform (e : Effect) : Run h τ Value := fun w =>
  let answer := h.perform e w.store
  ofExcept answer.1 { w with store := answer.2, trace := e :: w.trace }

/-- Reads a local. -/
def getLocal (index : Nat) : Run h τ Value := fun w =>
  (.ok (w.locals index), w)

/-- Assigns a local. -/
def setLocal (index : Nat) (value : Value) : Run h τ Unit := fun w =>
  (.ok (), w.setLocal index value)

/-- A value that has to be there. -/
def demand : Option Value → Run h τ Value
  | some v => pure v
  | none => throw .stuck

/-- Handles the branches that leave a run. -/
def onJump (x : Run h τ α) (handle : τ → Option Value → Run h τ' α) : Run h τ' α := fun w =>
  match x w with
  | (.ok a, w') => (.ok a, w')
  | (.error (.jump target value), w') => handle target value w'
  | (.error (.ret value), w') => (.error (.ret value), w')
  | (.error (.trap t), w') => (.error (.trap t), w')
  | (.error .exhausted, w') => (.error .exhausted, w')
  | (.error .stuck, w') => (.error .stuck, w')

/-! ### Runs at a world -/

@[simp] theorem pure_apply (a : α) (w : World h) : (pure a : Run h τ α) w = (.ok a, w) := rfl

@[simp] theorem throw_apply (e : Exit τ) (w : World h) :
    (throw e : Run h τ α) w = (.error e, w) := rfl

theorem bind_apply (x : Run h τ α) (f : α → Run h τ β) (w : World h) :
    (x >>= f) w =
      match x w with
      | (.ok a, w') => f a w'
      | (.error e, w') => (.error e, w') := by
  show ExceptT.bindCont f (x w).1 (x w).2 = _
  rcases x w with ⟨_ | _, _⟩ <;> rfl

theorem bind_apply_ok {x : Run h τ α} {w w' : World h} {a : α} (hx : x w = (.ok a, w'))
    (f : α → Run h τ β) : (x >>= f) w = f a w' := by
  rw [bind_apply, hx]

theorem bind_apply_error {x : Run h τ α} {w w' : World h} {e : Exit τ} (hx : x w = (.error e, w'))
    (f : α → Run h τ β) : (x >>= f) w = (.error e, w') := by
  rw [bind_apply, hx]

@[simp] theorem map_apply (f : α → β) (x : Run h τ α) (w : World h) :
    (f <$> x) w = ((x w).1.map f, (x w).2) := by
  rw [map_eq_pure_bind, bind_apply]
  rcases x w with ⟨_ | _, _⟩ <;> rfl

end Run

/-! ## Values as conditions and indices -/

/-- The value as a condition: anything but zero holds. -/
def Value.holds : Value → Bool
  | .i32 word => word != 0
  | .i64 word => word != 0
  | .f32 bits => bits != 0
  | .f64 bits => bits != 0

/-- The value as an index, read without a sign. -/
def Value.asIndex : Value → Nat
  | .i32 word => word.toNat
  | .i64 word => word.toNat
  | .f32 bits => bits.toNat
  | .f64 bits => bits.toNat

/-- The value of a node of the given type: a statement has none. -/
def Ty.keep (ty : Ty) (v : Value) : Option Value :=
  if ty = .void then none else some v

/-- How many values a type stands for. -/
def Ty.arity (ty : Ty) : Nat :=
  if ty = .void then 0 else 1

end WasmLift
