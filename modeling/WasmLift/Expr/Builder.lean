import WasmLift.Error
import WasmLift.Expr.Basic
import WasmLift.Wasm.Operator

/-!
# Building expression trees

A body is a flat run of operators on an operand stack. It is rebuilt as a tree by keeping, for each
open construct, a frame with the nodes emitted in it. Values and statements share that list: an
operand is the latest node with a value, and if statements were emitted after it, it is first stored
into a new scratch local, so that they still run after it. Code after an unconditional jump is
skipped up to the end of its construct.
-/

namespace WasmLift

/-- The signature of a function in expression types, with at most one result. -/
structure Signature where
  params : List Ty
  result : Ty
deriving DecidableEq, Repr

/-- The expression type of a value type, if it has one. -/
def Ty.ofValType (type : ValType) : Except Cause Ty :=
  match Ty.ofValType? type with
  | some ty => .ok ty
  | none => .error (.unsupportedType type)

/-- The signature of a function type. -/
def Signature.ofFuncType (type : FuncType) : Except Cause Signature := do
  let params ← type.params.mapM Ty.ofValType
  match type.results with
  | [] => return ⟨params, .void⟩
  | [result] => return ⟨params, ← Ty.ofValType result⟩
  | _ => throw (.unsupported .multiValue)

/-- What the body of a function can refer to. -/
structure Scope where
  /-- The declared function types. -/
  types : List FuncType
  /-- The types of all functions. -/
  funcTypes : List FuncType
  /-- The names of all functions. -/
  funcNames : List NameId
  /-- The types of all globals. -/
  globalTypes : List Ty

/-- What a frame was opened for. An `if` keeps its condition until it is closed, and its first arm
once the second is open. -/
inductive FrameKind where
  | function
  | block
  | loop
  | ifThen (condition : Expr)
  | ifElse (condition : Expr) (thenArm : List Expr) (thenDead : Bool)
deriving Repr

/-- An open construct. -/
structure Frame where
  kind : FrameKind
  label : Label
  result : Ty
  /-- The nodes emitted in the construct, latest first. -/
  emitted : List Expr := []
  /-- The rest of the construct is never reached. -/
  unreachable : Bool := false
  /-- Some branch names the label. -/
  labelUsed : Bool := false
deriving Repr

/-- The type of the value that a branch to the frame carries: none if it restarts a loop. -/
def Frame.branchTy (f : Frame) : Ty :=
  match f.kind with
  | .loop => .void
  | _ => f.result

/-- The label, if some branch names it. -/
def Frame.usedLabel (f : Frame) : Option Label :=
  if f.labelUsed then some f.label else none

/-- The state of a reconstruction. -/
structure Builder where
  /-- The types of parameters, declared locals and scratch locals, in this order. -/
  locals : List Ty
  /-- The open constructs, innermost first. -/
  frames : List Frame
  freshLabel : Nat := 1
  /-- How many constructs are open in code that is skipped. -/
  deadConstructs : Nat := 0
  /-- The finished body, once the function's own frame is closed. -/
  body : Option Expr := none
deriving Repr

/-- A step of a reconstruction. -/
abbrev Build := StateT Builder (Except Cause)

namespace Builder

/-- The start of a body, with the function's own frame open. -/
def start (locals : List Ty) (result : Ty) : Builder :=
  { locals := locals, frames := [{ kind := .function, label := ⟨0⟩, result := result }] }

/-- The innermost frame is never reached any more. -/
def isDead (b : Builder) : Bool :=
  match b.frames with
  | [] => false
  | f :: _ => f.unreachable

/-- Stops at a malformed body. -/
def malformed {α : Type} (what : Malformed) : Build α :=
  throw (.malformed what)

/-- The innermost frame. -/
def top : Build Frame := do
  match (← get).frames with
  | [] => malformed .afterEnd
  | f :: _ => return f

/-- Changes the innermost frame. -/
def modifyTop (g : Frame → Frame) : Build Unit := do
  match (← get).frames with
  | [] => malformed .afterEnd
  | f :: rest => modify ({ · with frames := g f :: rest })

/-- Emits nodes into the innermost frame, in order, without looking at what they are. -/
def append (nodes : List Expr) : Build Unit :=
  modifyTop fun f => { f with emitted := nodes.reverse ++ f.emitted }

/-- Emits a node into the innermost frame, the rest of which is dead after a terminator. -/
def push (e : Expr) : Build Unit :=
  modifyTop fun f =>
    { f with emitted := e :: f.emitted, unreachable := f.unreachable || e.isTerminator }

/-- Marks the innermost frame as dead if the condition holds. -/
def markDead (dead : Bool) : Build Unit :=
  modifyTop fun f => { f with unreachable := f.unreachable || dead }

/-- Splits emitted nodes, latest first, at the latest value: the statements after it, the value, and
what is before it. -/
def splitValue : List Expr → Option (List Expr × Expr × List Expr)
  | [] => none
  | e :: rest =>
    if e.isValue then some ([], e, rest)
    else
      match splitValue rest with
      | none => none
      | some (later, value, earlier) => some (e :: later, value, earlier)

/-- Takes the latest value of the innermost frame. If statements were emitted after it, it is stored
into a new scratch local where it stands, and the local is read instead. -/
def takeValue (consumer : String) : Build Expr := do
  let frame ← top
  match splitValue frame.emitted with
  | none => malformed (.stackUnderflow consumer)
  | some ([], value, earlier) =>
    modifyTop ({ · with emitted := earlier })
    return value
  | some (later, value, earlier) =>
    let index := (← get).locals.length
    modify fun b => { b with locals := b.locals ++ [value.ty] }
    modifyTop ({ · with emitted := later ++ .localSet index value false .void :: earlier })
    return .localGet index value.ty

/-- Takes `n` values; the deepest comes first. -/
def takeValues (consumer : String) : (n : Nat) → (taken : List Expr) → Build (List Expr)
  | 0, taken => return taken
  | n + 1, taken => do
    let value ← takeValue consumer
    takeValues consumer n (value :: taken)

/-- Takes the value that a branch carries, if it carries one. -/
def takeCarried (ty : Ty) (consumer : String) : Build (Option Expr) :=
  if ty = .void then return none
  else return some (← takeValue consumer)

/-- Opens a construct with a new label. -/
def openFrame (kind : FrameKind) (result : Ty) : Build Unit :=
  modify fun b =>
    { b with
      frames := { kind := kind, label := ⟨b.freshLabel⟩, result := result } :: b.frames
      freshLabel := b.freshLabel + 1 }

/-- The frame that a branch of the given depth refers to. -/
def frameAt (depth : Nat) : Build Frame := do
  let frames := (← get).frames
  match frames[depth]? with
  | some frame => return frame
  | none => malformed (.branchDepth depth frames.length)

/-- The depth is that of the outermost frame. -/
def isOutermost (depth : Nat) : Build Bool := do
  return (← get).frames.length == depth + 1

/-- Records that some branch names the label of the frame at this depth. -/
def markUsed (depth : Nat) : Build Unit :=
  modify fun b => { b with frames := b.frames.modify depth ({ · with labelUsed := true }) }

/-- Moves the result of the innermost frame behind the statements emitted after it. -/
def resultLast : Build Unit := do
  let frame ← top
  if frame.result ≠ .void && !frame.unreachable then
    push (← takeValue "block result")

/-- The type of a structured construct. Parameters are not supported. -/
def blockTy (scope : Scope) : BlockType → Build Ty
  | .empty => return .void
  | .value type => Ty.ofValType type
  | .declared index => do
    match scope.types[index]? with
    | none => throw (.dangling (.blockType index))
    | some type =>
      if !type.params.isEmpty then throw (.unsupported .blockParameters)
      return (← Signature.ofFuncType type).result

/-- Emits a conditional, inside a labeled block if a branch leaves it. -/
def appendConditional (label : Option Label) (ty : Ty) (node : Expr) : Build Unit :=
  match label with
  | some _ => append [.block label [node] ty]
  | none => append [node]

/-- Folds a finished construct into the one around it, or into the body of the function. -/
def fold (frame : Frame) : Build Unit := do
  let nodes := frame.emitted.reverse
  let label := frame.usedLabel
  match frame.kind with
  | .function =>
    let body :=
      match label with
      | some _ => .block label nodes frame.result
      | none => .sequence nodes frame.result
    modify ({ · with body := some body })
  | .block =>
    match label with
    | some _ => append [.block label nodes frame.result]
    | none => append nodes
    markDead (frame.unreachable && !frame.labelUsed)
  | .loop =>
    append [.loop label (.sequence nodes frame.result) frame.result]
    markDead frame.unreachable
  | .ifThen condition =>
    appendConditional label frame.result
      (.ite condition (.sequence nodes frame.result) none frame.result)
  | .ifElse condition thenArm thenDead =>
    appendConditional label frame.result
      (.ite condition (.sequence thenArm frame.result) (some (.sequence nodes frame.result))
        frame.result)
    markDead (thenDead && frame.unreachable && !frame.labelUsed)

/-- Closes the innermost construct. -/
def close : Build Unit := do
  resultLast
  let frame ← top
  modify fun b => { b with frames := b.frames.tail }
  fold frame

/-- Begins the second arm of an `if`. -/
def beginElse : Build Unit := do
  resultLast
  let frame ← top
  match frame.kind with
  | .ifThen condition =>
    modifyTop fun f =>
      { f with
        kind := .ifElse condition f.emitted.reverse f.unreachable
        emitted := []
        unreachable := false }
  | _ => malformed .strayElse

/-- The type of a local. -/
def localTy (index : Nat) : Build Ty := do
  match (← get).locals[index]? with
  | some ty => return ty
  | none => throw (.dangling (.localIndex index))

/-- The type of a global. -/
def globalTy (scope : Scope) (index : Nat) : Build Ty :=
  match scope.globalTypes[index]? with
  | some ty => return ty
  | none => throw (.dangling (.globalIndex index))

/-- The access of a load or store. -/
def memArg (shape : AccessShape) (operand : MemOperand) : MemArg :=
  ⟨operand.offset, shape.bytes, shape.signed, shape.atomic⟩

/-- An unconditional branch; to the outermost frame it is a return. -/
def branch (depth : Nat) : Build Unit := do
  let frame ← frameAt depth
  let value ← takeCarried frame.branchTy "br"
  if ← isOutermost depth then push (.ret value)
  else
    markUsed depth
    push (.br frame.label none value)

/-- A conditional branch; to the outermost frame, without a value, it is a conditional return. -/
def branchIf (depth : Nat) : Build Unit := do
  let frame ← frameAt depth
  let condition ← takeValue "br_if condition"
  let value ← takeCarried frame.branchTy "br_if"
  if (← isOutermost depth) && value.isNone then push (.ite condition (.ret none) none .void)
  else
    markUsed depth
    push (.br frame.label (some condition) value)

/-- The labels of the frames at the given depths, each of which is marked. -/
def targetLabels : List Nat → Build (List Label)
  | [] => return []
  | depth :: rest => do
    let frame ← frameAt depth
    markUsed depth
    return frame.label :: (← targetLabels rest)

/-- A branch table. -/
def branchTable (depths : List Nat) (fallback : Nat) : Build Unit := do
  let condition ← takeValue "br_table index"
  let labels ← targetLabels depths
  let frame ← frameAt fallback
  markUsed fallback
  let value ← takeCarried frame.branchTy "br_table"
  push (.switch labels (some frame.label) condition value)

/-- The result type of the outermost frame. -/
def outermostResult : Build Ty := do
  return ((← get).frames.getLast?.map (·.result)).getD .void

/-- A call of a known function. -/
def callFunction (scope : Scope) (function : Nat) : Build Unit := do
  match scope.funcTypes[function]?, scope.funcNames[function]? with
  | some type, some target =>
    let signature ← Signature.ofFuncType type
    let args ← takeValues "call arguments" signature.params.length []
    push (.call target args signature.result)
  | _, _ => malformed (.unknownCallee function)

/-- A call through the function table. -/
def callTable (scope : Scope) (type table : Nat) : Build Unit := do
  if table ≠ 0 then throw (.unsupported (.indirectTable table))
  match scope.types[type]? with
  | none => malformed (.unknownIndirectType type)
  | some type =>
    let signature ← Signature.ofFuncType type
    let target ← takeValue "call_indirect table index"
    let args ← takeValues "call_indirect arguments" signature.params.length []
    push (.callIndirect target args signature.result)

/-- The choice between two values. -/
def choose : Build Unit := do
  let condition ← takeValue "select condition"
  let ifFalse ← takeValue "select"
  let ifTrue ← takeValue "select"
  push (.select condition ifTrue ifFalse ifTrue.ty)

/-- Rebuilds one live operator. -/
def rebuildLive (scope : Scope) (op : Operator) : Build Unit := do
  match op with
  | .const value => push (.const value)
  | .localGet index => push (.localGet index (← localTy index))
  | .localSet index =>
    let _ ← localTy index
    push (.localSet index (← takeValue "local.set") false .void)
  | .localTee index =>
    let ty ← localTy index
    push (.localSet index (← takeValue "local.set") true ty)
  | .globalGet index => push (.globalGet index (← globalTy scope index))
  | .globalSet index =>
    let _ ← globalTy scope index
    push (.globalSet index (← takeValue "global.set"))
  | .unary op => push (.unary op (← takeValue "unary operation"))
  | .binary op =>
    let right ← takeValue "binary operation"
    let left ← takeValue "binary operation"
    push (.binary op left right)
  | .load shape operand => push (.load (← takeValue "load") (memArg shape operand) shape.ty)
  | .store shape operand =>
    let value ← takeValue "store"
    let address ← takeValue "store"
    push (.store address value (memArg shape operand))
  | .memorySize 0 => push .memorySize
  | .memoryGrow 0 => push (.memoryGrow (← takeValue "memory.grow"))
  | .memoryCopy 0 0 =>
    let length ← takeValue "memory.copy"
    let source ← takeValue "memory.copy"
    let target ← takeValue "memory.copy"
    push (.memoryCopy target source length)
  | .memoryFill 0 =>
    let length ← takeValue "memory.fill"
    let value ← takeValue "memory.fill"
    let target ← takeValue "memory.fill"
    push (.memoryFill target value length)
  | .nop => return
  | .unreachable => push .unreachable
  | .block type => openFrame .block (← blockTy scope type)
  | .loop type => openFrame .loop (← blockTy scope type)
  | .ifThen type =>
    let result ← blockTy scope type
    openFrame (.ifThen (← takeValue "if condition")) result
  | .elseArm => beginElse
  | .finish => close
  | .br depth => branch depth
  | .brIf depth => branchIf depth
  | .brTable depths fallback => branchTable depths fallback
  | .ret => push (.ret (← takeCarried (← outermostResult) "return"))
  | .call function => callFunction scope function
  | .callIndirect type table => callTable scope type table
  | .drop => push (.drop (← takeValue "drop"))
  | .select | .typedSelect _ => choose
  | _ => throw (.unsupported (.operator op))

/-- Steps over an operator in dead code. Says whether it closes the dead stretch, and so has to be
rebuilt after all. -/
def passOver (op : Operator) : Build Bool := do
  let depth := (← get).deadConstructs
  match op with
  | .block _ | .loop _ | .ifThen _ =>
    modify ({ · with deadConstructs := depth + 1 })
    return false
  | .finish =>
    if depth = 0 then return true
    modify ({ · with deadConstructs := depth - 1 })
    return false
  | .elseArm => return depth == 0
  | _ => return false

/-- Rebuilds one operator, unless it is dead. -/
def rebuild (scope : Scope) (op : Operator) : Build Unit := do
  if (← get).isDead then
    if ← passOver op then rebuildLive scope op
  else rebuildLive scope op

/-- Rebuilds operators in order. -/
def rebuildAll (scope : Scope) : List Operator → Build Unit
  | [] => return
  | op :: rest => do
    rebuild scope op
    rebuildAll scope rest

end Builder

/-- The tree of a body and its locals, scratch locals included and parameters not. -/
def Expr.ofOperators (scope : Scope) (params locals : List Ty) (result : Ty)
    (ops : List Operator) : Except Cause (List Ty × Expr) := do
  let ((), b) ← (Builder.rebuildAll scope ops).run (.start (params ++ locals) result)
  match b.body with
  | some body => return (b.locals.drop params.length, body)
  | none => throw (.malformed .neverEnds)

end WasmLift
