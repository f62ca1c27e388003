import WasmLift.Program.Expand
import WasmLift.Proofs.Outcomes

/-!
# Bodies by positions

The target of a branch is the frame at a position counted from the outermost one, and the target of
a call is the name at the index of a function whose type has been found. Here both are looked up
directly, with no outcome at all where there is nothing at the position (`Indexed`). Bodies that are
rebuilt that way always have an outcome, and it is the one they should have
(`Program.expandBodyAt_eq`).
-/

namespace WasmLift

/-- An outcome that is missing where something is looked up beyond the end of a list. -/
abbrev Indexed (ε : Type) := ExceptT ε Option

namespace Indexed

variable {ε ε' α β : Type}

/-- What is at a position of a list. -/
def look (xs : List α) (i : Nat) : Indexed ε α :=
  ExceptT.lift xs[i]?

/-- An outcome that is there. -/
def known (x : Except ε α) : Indexed ε α :=
  ExceptT.mk (some x)

/-- What is at a position is known when it is looked up. -/
theorem look_eq {xs : List α} {i : Nat} {a : α} (h : xs[i]? = some a) :
    (look xs i : Indexed ε α) = known (.ok a) := by
  rw [look, h]
  rfl

/-- A known value is passed on. -/
theorem known_ok_bind (a : α) (f : α → Indexed ε β) : known (.ok a) >>= f = f a :=
  rfl

/-- Two steps in a row have an outcome if the first has and the second has after it. -/
theorem known_bind {x : Except ε α} {f : α → Indexed ε β} {g : α → Except ε β}
    (h : ∀ a, x = .ok a → f a = known (g a)) : known x >>= f = known (x >>= g) := by
  cases x with
  | error e => rfl
  | ok a => exact h a rfl

/-- A known outcome has a known error. -/
theorem adapt_known (g : ε → ε') (x : Except ε α) :
    ExceptT.adapt g (known x) = known (x.mapError g) := by
  cases x <;> rfl

end Indexed

open Indexed

namespace Builder

/-- A step of a reconstruction that looks things up. -/
abbrev BuildAt := StateT Builder (Indexed Cause)

variable {α β : Type}

/-- A step that looks nothing up. -/
def sure (x : Build α) : BuildAt α :=
  fun b => known (x b)

/-- Two steps with an outcome have one together. -/
theorem sure_bind (x : Build α) (f : α → Build β) :
    sure (x >>= f) = sure x >>= fun a => sure (f a) := by
  funext b
  show known (x b >>= fun r => f r.1 r.2) = known (x b) >>= fun r => known (f r.1 r.2)
  exact (known_bind fun _ _ => rfl).symm

/-- A value is an outcome. -/
theorem sure_pure (a : α) : sure (pure a) = pure a :=
  rfl

/-- A choice of steps with an outcome has one. -/
theorem sure_ite (c : Prop) [Decidable c] (x y : Build α) :
    sure (if c then x else y) = if c then sure x else sure y :=
  apply_ite ..

/-- The frame that a branch of the given depth refers to, looked up by its position from the
outermost one. -/
def frameFromEnd (depth : Nat) : BuildAt Frame := do
  let frames := (← get).frames
  if frames.length ≤ depth then sure (malformed (.branchDepth depth frames.length))
  else StateT.lift (look frames.reverse (frames.length - 1 - depth))

/-- An unconditional branch. -/
def branchAt (depth : Nat) : BuildAt Unit := do
  let frame ← frameFromEnd depth
  let value ← sure (takeCarried frame.branchTy "br")
  if ← sure (isOutermost depth) then sure (push (.ret value))
  else
    sure (markUsed depth)
    sure (push (.br frame.label none value))

/-- A conditional branch. -/
def branchIfAt (depth : Nat) : BuildAt Unit := do
  let frame ← frameFromEnd depth
  let condition ← sure (takeValue "br_if condition")
  let value ← sure (takeCarried frame.branchTy "br_if")
  if (← sure (isOutermost depth)) && value.isNone then
    sure (push (.ite condition (.ret none) none .void))
  else
    sure (markUsed depth)
    sure (push (.br frame.label (some condition) value))

/-- The labels of the frames at the given depths, each of which is marked. -/
def targetLabelsAt : List Nat → BuildAt (List Label)
  | [] => return []
  | depth :: rest => do
    let frame ← frameFromEnd depth
    sure (markUsed depth)
    return frame.label :: (← targetLabelsAt rest)

/-- A branch table. -/
def branchTableAt (depths : List Nat) (fallback : Nat) : BuildAt Unit := do
  let condition ← sure (takeValue "br_table index")
  let labels ← targetLabelsAt depths
  let frame ← frameFromEnd fallback
  sure (markUsed fallback)
  let value ← sure (takeCarried frame.branchTy "br_table")
  sure (push (.switch labels (some frame.label) condition value))

/-- A call of a known function. Its name is looked up once its type has been found. -/
def callAt (scope : Scope) (function : Nat) : BuildAt Unit := do
  match scope.funcTypes[function]? with
  | none => sure (malformed (.unknownCallee function))
  | some type =>
    let signature ← sure (Signature.ofFuncType type)
    let target ← StateT.lift (look scope.funcNames function)
    let args ← sure (takeValues "call arguments" signature.params.length [])
    sure (push (.call target args signature.result))

/-- Rebuilds one live operator. -/
def rebuildLiveAt (scope : Scope) (op : Operator) : BuildAt Unit :=
  match op with
  | .br depth => branchAt depth
  | .brIf depth => branchIfAt depth
  | .brTable depths fallback => branchTableAt depths fallback
  | .call function => callAt scope function
  | op => sure (rebuildLive scope op)

/-- Rebuilds one operator, unless it is dead. -/
def rebuildAt (scope : Scope) (op : Operator) : BuildAt Unit := do
  if (← get).isDead then
    if ← sure (passOver op) then rebuildLiveAt scope op
  else rebuildLiveAt scope op

/-- Rebuilds operators in order. -/
def rebuildAllAt (scope : Scope) : List Operator → BuildAt Unit
  | [] => return
  | op :: rest => do
    rebuildAt scope op
    rebuildAllAt scope rest

/-! ## Branches -/

/-- A branch that does not go beyond the outermost frame finds its frame. -/
theorem frameFromEnd_eq (depth : Nat) : frameFromEnd depth = sure (frameAt depth) := by
  funext b
  show (if b.frames.length ≤ depth then sure (malformed (.branchDepth depth b.frames.length))
    else StateT.lift (look b.frames.reverse (b.frames.length - 1 - depth))) b =
      known (frameAt depth b)
  have hget {f : Builder → Build Frame} : (get >>= f : Build Frame) b = f b b := rfl
  rw [frameAt, hget]
  by_cases hdepth : b.frames.length ≤ depth
  · rw [if_pos hdepth, List.getElem?_eq_none hdepth]
    rfl
  · -- Frames are kept innermost first, so the position from the outermost one is that of the
    -- reverse.
    have hframe : b.frames[depth]? = some b.frames[depth] := by simp
    have hreverse : b.frames.reverse[b.frames.length - 1 - depth]? = some b.frames[depth] := by
      rw [List.getElem?_reverse (by omega), ← hframe]
      congr 1
      omega
    rw [if_neg hdepth, look_eq hreverse, hframe]
    rfl

/-- A branch by position is the branch. -/
theorem branchAt_eq (depth : Nat) : branchAt depth = sure (branch depth) := by
  simp only [branchAt, branch, frameFromEnd_eq, sure_bind, sure_ite]

/-- A conditional branch by position is the conditional branch. -/
theorem branchIfAt_eq (depth : Nat) : branchIfAt depth = sure (branchIf depth) := by
  simp only [branchIfAt, branchIf, frameFromEnd_eq, sure_bind, sure_ite]

/-- The labels by position are the labels. -/
theorem targetLabelsAt_eq (depths : List Nat) :
    targetLabelsAt depths = sure (targetLabels depths) := by
  induction depths with
  | nil => rfl
  | cons depth rest ih =>
    simp only [targetLabelsAt, targetLabels, frameFromEnd_eq, ih, sure_bind, sure_pure]

/-- A branch table by position is the branch table. -/
theorem branchTableAt_eq (depths : List Nat) (fallback : Nat) :
    branchTableAt depths fallback = sure (branchTable depths fallback) := by
  simp only [branchTableAt, branchTable, frameFromEnd_eq, targetLabelsAt_eq, sure_bind]

/-! ## Calls -/

section
variable {scope : Scope} (hscope : scope.funcTypes.length ≤ scope.funcNames.length)
include hscope

/-- A function that has a type has a name. -/
theorem callAt_eq (function : Nat) :
    callAt scope function = sure (callFunction scope function) := by
  unfold callAt callFunction
  cases htype : scope.funcTypes[function]? with
  | none => rfl
  | some type =>
    have hlt : function < scope.funcTypes.length := (List.getElem?_eq_some_iff.1 htype).1
    have hname : scope.funcNames[function]? = some scope.funcNames[function] :=
      List.getElem?_eq_getElem (by omega)
    simp only [hname, look_eq hname, sure_bind]
    rfl

/-- By position a live operator is rebuilt the same. -/
theorem rebuildLiveAt_eq (op : Operator) :
    rebuildLiveAt scope op = sure (rebuildLive scope op) := by
  unfold rebuildLiveAt
  split
  · exact branchAt_eq _
  · exact branchIfAt_eq _
  · exact branchTableAt_eq _ _
  · exact callAt_eq hscope _
  · rfl

/-- By position an operator is rebuilt the same. -/
theorem rebuildAt_eq (op : Operator) : rebuildAt scope op = sure (rebuild scope op) := by
  simp only [rebuildAt, rebuild, rebuildLiveAt_eq hscope, sure_bind, sure_ite]
  rfl

/-- By position operators are rebuilt the same. -/
theorem rebuildAllAt_eq (ops : List Operator) :
    rebuildAllAt scope ops = sure (rebuildAll scope ops) := by
  induction ops with
  | nil => rfl
  | cons op rest ih => simp only [rebuildAllAt, rebuildAll, rebuildAt_eq hscope, ih, sure_bind]

end

end Builder

/-- The tree of a body and its locals. -/
def Expr.ofOperatorsAt (scope : Scope) (params locals : List Ty) (result : Ty)
    (ops : List Operator) : Indexed Cause (List Ty × Expr) := do
  let ((), b) ← (Builder.rebuildAllAt scope ops).run (.start (params ++ locals) result)
  match b.body with
  | some body => return (b.locals.drop params.length, body)
  | none => throw (.malformed .neverEnds)

/-- The locals and the body of a defined function. -/
def Program.expandBodyAt (scope : Scope) (code : FunctionCode) (signature : Signature) :
    Indexed Error (List Ty × Expr) := do
  let locals ← known (orFail (code.locals.mapM Ty.ofValType))
  match Binary.bodyOperators? code.body with
  | none => throw (.unreadable .operator)
  | some ops =>
    ExceptT.adapt Error.ofCause
      (Expr.ofOperatorsAt scope signature.params locals signature.result ops)

/-- By position a body is rebuilt the same, if every function whose type is known has a name. -/
theorem Expr.ofOperatorsAt_eq {scope : Scope}
    (hscope : scope.funcTypes.length ≤ scope.funcNames.length) (params locals : List Ty)
    (result : Ty) (ops : List Operator) :
    ofOperatorsAt scope params locals result ops =
      known (ofOperators scope params locals result ops) := by
  rw [ofOperatorsAt, ofOperators, Builder.rebuildAllAt_eq hscope]
  refine known_bind fun r hr => ?_
  obtain ⟨⟨⟩, b⟩ := r
  dsimp only
  cases b.body <;> rfl

/-- Every branch and every call of a body finds its target. -/
theorem Program.expandBodyAt_eq {scope : Scope}
    (hscope : scope.funcTypes.length ≤ scope.funcNames.length) (code : FunctionCode)
    (signature : Signature) :
    expandBodyAt scope code signature = known (expandBody scope code signature) := by
  refine known_bind fun locals hlocals => ?_
  cases Binary.bodyOperators? code.body with
  | none => rfl
  | some ops =>
    dsimp only
    rw [Expr.ofOperatorsAt_eq hscope, adapt_known]
    rfl

end WasmLift
