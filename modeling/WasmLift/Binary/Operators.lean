import WasmLift.Binary.Uninterpreted

/-!
# Operators in the binary format

An operator is a code of one byte, or a prefix byte and a number, followed by its immediates. A
function body is a run of operators to the end of its bytes; a constant expression is a run of
operators to the first `end`, without nesting.
-/

namespace WasmLift.Binary

open Reader

/-- The conversions whose codes run on from `a7`. -/
def conversionOperators : List UnOp :=
  [UnOp.wrap] ++ UnOp.conversions (.trunc .w32) ++
  [UnOp.extend .signed, UnOp.extend .unsigned] ++
  UnOp.conversions (.trunc .w64) ++ UnOp.conversions (.convert .w32) ++ [UnOp.demote] ++
  UnOp.conversions (.convert .w64) ++
  [UnOp.promote, UnOp.bitsOfFloat .w32, UnOp.bitsOfFloat .w64, UnOp.floatOfBits .w32,
    UnOp.floatOfBits .w64, UnOp.extend8 .w32, UnOp.extend16 .w32, UnOp.extend8 .w64,
    UnOp.extend16 .w64, UnOp.extend32]

/-- The operators without immediates whose codes run on from `45`: tests, comparisons, arithmetic
and conversions. -/
def numericOperators : List Operator :=
  [Operator.unary (.eqz .w32)] ++ IntRel.inOrder.map (Operator.binary ∘ BinOp.intRel .w32) ++
  [Operator.unary (.eqz .w64)] ++ IntRel.inOrder.map (Operator.binary ∘ BinOp.intRel .w64) ++
  FloatRel.inOrder.map (Operator.binary ∘ BinOp.floatRel .w32) ++
  FloatRel.inOrder.map (Operator.binary ∘ BinOp.floatRel .w64) ++
  ([Width.w32, Width.w64].flatMap fun w =>
    IntUnary.inOrder.map (Operator.unary ∘ UnOp.int w) ++
      IntArith.inOrder.map (Operator.binary ∘ BinOp.int w)) ++
  ([Width.w32, Width.w64].flatMap fun w =>
    FloatUnary.inOrder.map (Operator.unary ∘ UnOp.float w) ++
      FloatArith.inOrder.map (Operator.binary ∘ BinOp.float w)) ++
  conversionOperators.map Operator.unary

/-- The loads whose codes run on from `28`. -/
def loadShapes : List AccessShape :=
  [⟨.i32, 4, true, false⟩, ⟨.i64, 8, true, false⟩, ⟨.f32, 4, false, false⟩,
    ⟨.f64, 8, false, false⟩, ⟨.i32, 1, true, false⟩, ⟨.i32, 1, false, false⟩,
    ⟨.i32, 2, true, false⟩, ⟨.i32, 2, false, false⟩, ⟨.i64, 1, true, false⟩,
    ⟨.i64, 1, false, false⟩, ⟨.i64, 2, true, false⟩, ⟨.i64, 2, false, false⟩,
    ⟨.i64, 4, true, false⟩, ⟨.i64, 4, false, false⟩]

/-- The stores whose codes run on from `36`. -/
def storeShapes : List AccessShape :=
  [⟨.i32, 4, false, false⟩, ⟨.i64, 8, false, false⟩, ⟨.f32, 4, false, false⟩,
    ⟨.f64, 8, false, false⟩, ⟨.i32, 1, false, false⟩, ⟨.i32, 2, false, false⟩,
    ⟨.i64, 1, false, false⟩, ⟨.i64, 2, false, false⟩, ⟨.i64, 4, false, false⟩]

/-- The atomic loads whose codes run on from `fe 10`. -/
def atomicLoadShapes : List AccessShape :=
  [⟨.i32, 4, true, true⟩, ⟨.i64, 8, true, true⟩, ⟨.i32, 1, false, true⟩, ⟨.i32, 2, false, true⟩,
    ⟨.i64, 1, false, true⟩, ⟨.i64, 2, false, true⟩, ⟨.i64, 4, false, true⟩]

/-- The atomic stores whose codes run on from `fe 17`. -/
def atomicStoreShapes : List AccessShape :=
  [⟨.i32, 4, false, true⟩, ⟨.i64, 8, false, true⟩, ⟨.i32, 1, false, true⟩, ⟨.i32, 2, false, true⟩,
    ⟨.i64, 1, false, true⟩, ⟨.i64, 2, false, true⟩, ⟨.i64, 4, false, true⟩]

/-- The saturating conversions whose codes run on from `fc 00`. -/
def saturating : List UnOp :=
  UnOp.conversions (.truncSat .w32) ++ UnOp.conversions (.truncSat .w64)

/-- The entry of a table whose codes run on from `first`. -/
def known? {α : Type} (table : List α) (first code : Nat) : Option α :=
  if first ≤ code then table[code - first]? else none

namespace Reader

/-- An operator of one of the forms in a table of codes. -/
def uninterpreted (table : List (Nat × Form)) (code : Nat) : Reader Operator := do
  Form.read (← table.lookup code)

/-- A branch table: the depths and the depth taken beyond the last of them. -/
def brTable : Reader Operator := do
  let depths ← vector 131072 u32
  return .brTable depths (← u32)

/-- The operator after the prefix `fc`. -/
def bulkOperator : Reader Operator := do
  let code ← u32
  if let some op := known? saturating 0 code then return .unary op
  match code with
  | 0x0a => return .memoryCopy (← u32) (← u32)
  | 0x0b => return .memoryFill (← u32)
  | _ => uninterpreted Form.bulk code

/-- The operator after the prefix `fe`. -/
def atomicOperator : Reader Operator := do
  let code ← u32
  if let some shape := known? atomicLoadShapes 0x10 code then return .load shape (← memOperand)
  if let some shape := known? atomicStoreShapes 0x17 code then return .store shape (← memOperand)
  uninterpreted Form.atomic code

/-- The operator with a code of one byte. -/
def plainOperator (code : Nat) : Reader Operator := do
  match code with
  | 0x00 => return .unreachable
  | 0x01 => return .nop
  | 0x02 => return .block (← blockType)
  | 0x03 => return .loop (← blockType)
  | 0x04 => return .ifThen (← blockType)
  | 0x05 => return .elseArm
  | 0x0b => return .finish
  | 0x0c => return .br (← u32)
  | 0x0d => return .brIf (← u32)
  | 0x0e => brTable
  | 0x0f => return .ret
  | 0x10 => return .call (← u32)
  | 0x11 => return .callIndirect (← u32) (← u32)
  | 0x1a => return .drop
  | 0x1b => return .select
  | 0x1c =>
    require ((← u32) = 1)
    return .typedSelect (← valType)
  | 0x20 => return .localGet (← u32)
  | 0x21 => return .localSet (← u32)
  | 0x22 => return .localTee (← u32)
  | 0x23 => return .globalGet (← u32)
  | 0x24 => return .globalSet (← u32)
  | 0x3f => return .memorySize (← u32)
  | 0x40 => return .memoryGrow (← u32)
  | 0x41 => return .const (.i32 (BitVec.ofInt 32 (← s32)))
  | 0x42 => return .const (.i64 (BitVec.ofInt 64 (← s64)))
  | 0x43 => return .const (.f32 (BitVec.ofNat 32 (← littleEndian 4)))
  | 0x44 => return .const (.f64 (BitVec.ofNat 64 (← littleEndian 8)))
  | 0xd2 => return .refFunc (← u32)
  | _ =>
    if let some shape := known? loadShapes 0x28 code then return .load shape (← memOperand)
    if let some shape := known? storeShapes 0x36 code then return .store shape (← memOperand)
    if let some op := known? numericOperators 0x45 code then return op
    uninterpreted Form.plain code

/-- One operator with its immediates. -/
def operator : Reader Operator := do
  match ← byte with
  | 0xfb => uninterpreted Form.aggregate (← u32)
  | 0xfc => bulkOperator
  | 0xfd => uninterpreted Form.vector (← u32)
  | 0xfe => atomicOperator
  | code => plainOperator code

/-- The operators up to the first `end`, it included, at most `fuel` of them. -/
def operatorsToEnd : (fuel : Nat) → Reader (List Operator)
  | 0 => failure
  | fuel + 1 => do
    match ← operator with
    | .finish => return [.finish]
    | op => return op :: (← operatorsToEnd fuel)

/-- A constant expression: its operators, the final `end` included. An operator takes at least one
byte, so the length of the input bounds their number. -/
def constExpr : Reader (List Operator) := fun input =>
  operatorsToEnd input.length input

end Reader

/-- Reads operators to the end of the bytes, at most `fuel` of them, onto those already read. -/
def operatorsFrom : (fuel : Nat) → List UInt8 → List Operator → Option (List Operator)
  | _, [], done => some done.reverse
  | 0, _ :: _, _ => none
  | fuel + 1, input, done => do
    let (op, rest) ← operator input
    operatorsFrom fuel rest (op :: done)

/-- The operators of a function body. An operator takes at least one byte, so the length of the
bytes bounds their number. -/
def bodyOperators? (input : List UInt8) : Option (List Operator) :=
  operatorsFrom input.length input []

end WasmLift.Binary
