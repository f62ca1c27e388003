import WasmLift.Binary.Reader
import WasmLift.Wasm.Type

/-!
# Types in the binary format

Value, reference and block types, the items of the type section, and the types of tables, memories,
globals and tags. Only function types are kept of the type section: the other items are read and
dropped.
-/

namespace WasmLift.Binary

open Reader

namespace Reader

/-- The largest index with which a type can be referred to. -/
def maxTypeIndex : Nat := 0xfffff

/-- An abstract heap type, a leading `65` marking a shared one. -/
def abstractHeap : Reader HeapType := do
  let code ← byte
  let shared := code == 0x65
  let kind ← AbstractHeap.ofCode? (← if shared then byte else pure code)
  return .abstract shared kind

/-- The index of a declared type, where a negative number would be a code. -/
def typeIndex : Reader Nat := do
  let index ← s33
  require (0 ≤ index && index ≤ maxTypeIndex)
  return index.toNat

/-- The heap type of a declared type. -/
def concreteHeap : Reader HeapType := do
  return .concrete (← typeIndex)

/-- A heap type: an index if the number at this place is not negative, an abstract heap type
otherwise. -/
def heapType : Reader HeapType := fun input =>
  match s33 input with
  | none => none
  | some (number, _) =>
    if 0 ≤ number then concreteHeap input else abstractHeap input

/-- A reference type: `63` or `64` and a heap type, or a heap type alone for a reference to it that
may be null. -/
def refType : Reader RefType := do
  match ← peek with
  | 0x63 => let _ ← byte; return ⟨true, ← heapType⟩
  | 0x64 => let _ ← byte; return ⟨false, ← heapType⟩
  | _ => return ⟨true, ← heapType⟩

/-- A value type: whatever is not the code of a number or vector type is a reference type. -/
def valType : Reader ValType := do
  match ← peek with
  | 0x7f => let _ ← byte; return .i32
  | 0x7e => let _ ← byte; return .i64
  | 0x7d => let _ ← byte; return .f32
  | 0x7c => let _ ← byte; return .f64
  | 0x7b => let _ ← byte; return .v128
  | _ => return .ref (← refType)

/-- The type of a structured construct. A first byte that is a negative number by itself is `40` or
begins a value type; anything else is the index of a function type. -/
def blockType : Reader BlockType := do
  let code ← peek
  if code = 0x40 then
    let _ ← byte
    return .empty
  if 0x40 < code && code < 0x80 then return .value (← valType)
  let index ← s33
  require (0 ≤ index)
  return .declared index.toNat

/-- The signature of a function. -/
def funcType : Reader FuncType := do
  let params ← vector 1000 valType
  let results ← vector 1000 valType
  return ⟨params, results⟩

/-- The type of a field: a packed or value type and its mutability. -/
def fieldType : Reader Unit := do
  let code ← peek
  if code = 0x78 || code = 0x77 then
    let _ ← byte
  else
    let _ ← valType
  require ((← byte) ≤ 1)

/-- What a type is made of, given its leading byte; only a function type is kept. -/
def compositeInner (code : Nat) : Reader (Option FuncType) := do
  match code with
  | 0x60 => return some (← funcType)
  | 0x5f => let _ ← vector 10000 fieldType; return none
  | 0x5e => fieldType; return none
  | 0x5d => let _ ← typeIndex; return none
  | _ => failure

/-- A composite type, a leading `65` marking a shared one. -/
def compositeType (code : Nat) : Reader (Option FuncType) := do
  if code = 0x65 then compositeInner (← byte) else compositeInner code

/-- A type with its supertype, if it names one. -/
def subType : Reader (Option FuncType) := do
  let code ← byte
  if code = 0x50 || code = 0x4f then
    let supertypes ← vector 1 u32
    require (supertypes.all (· ≤ maxTypeIndex))
    compositeType (← byte)
  else
    compositeType code

/-- An item of the type section: the function types of a group of types. -/
def recGroup : Reader (List FuncType) := do
  if (← peek) = 0x4e then
    let _ ← byte
    return (← vector 1000000 subType).filterMap id
  return (← subType).toList

/-- A size limit, of 32 or 64 bits. -/
def limit (wide : Bool) : Reader Nat :=
  if wide then u64 else u32

/-- The type of a table. -/
def tableType : Reader Unit := do
  let _ ← refType
  let flags ← byte
  require (flags < 8)
  let wide := flags.testBit 2
  let _ ← limit wide
  if flags.testBit 0 then
    let _ ← limit wide

/-- The type of a memory. -/
def memoryType : Reader Unit := do
  let flags ← byte
  require (flags < 16)
  let wide := flags.testBit 2
  let _ ← limit wide
  if flags.testBit 0 then
    let _ ← limit wide
  if flags.testBit 3 then
    let _ ← u32

/-- The type of a global, and whether it is mutable. -/
def globalType : Reader (ValType × Bool) := do
  let type ← valType
  let flags ← byte
  require (flags < 4)
  return (type, flags.testBit 0)

/-- The type of a tag. -/
def tagType : Reader Unit := do
  require ((← byte) = 0)
  let _ ← u32

end Reader

end WasmLift.Binary
