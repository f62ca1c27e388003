import WasmLift.Binary.Types
import WasmLift.Wasm.Operator

/-!
# Operators that take no part in reconstruction

References, tables, aggregates, vectors, exceptions, continuations and most atomic accesses are only
stepped over, and reported when one of them is reached. So each is known by its code, its name and
the immediates that follow it.
-/

namespace WasmLift.Binary

open Reader

/-- An immediate of an operator. -/
inductive Immediate where
  /-- An index, with the name of the field it is reported as. -/
  | index (field : String)
  /-- The operand of a memory access with the given natural alignment. -/
  | memory (maxAlign : Nat)
  /-- The number of one of `count` lanes. -/
  | lane (count : Nat)
  /-- Sixteen lane numbers, each below 32. -/
  | shuffle
  /-- Sixteen bytes. -/
  | vector
  | heapType
  | blockType
  /-- The two reference types of a cast, after the depth of its branch. -/
  | cast
  /-- The handlers of an exception. -/
  | tryTable
  /-- The handlers of a suspended continuation. -/
  | resumeTable
  /-- The memory order of an access. -/
  | ordering
  /-- A byte that has to be zero and is not reported. -/
  | zeroByte
deriving DecidableEq, Repr

/-- The name of an operator and what follows its code. -/
abbrev Form := String × List Immediate

namespace Reader

/-- The operand of a memory access. Bit 6 of the flags announces a memory index. -/
def memOperand : Reader MemOperand := do
  let flags ← u32
  let indexed := flags.testBit 6
  let memory ← if indexed then u32 else pure 0
  let align := if indexed then flags - 64 else flags
  require (align < 64)
  let offset ← u64
  return ⟨align, offset, memory⟩

/-- The number of one of `count` lanes. -/
def laneIndex (count : Nat) : Reader Nat := do
  let lane ← byte
  require (lane < count)
  return lane

/-- One handler of an exception, as it is reported. -/
def catchClause : Reader String := do
  match ← byte with
  | 0 => return reportFields "One" [("tag", toString (← u32)), ("label", toString (← u32))]
  | 1 => return reportFields "OneRef" [("tag", toString (← u32)), ("label", toString (← u32))]
  | 2 => return reportFields "All" [("label", toString (← u32))]
  | 3 => return reportFields "AllRef" [("label", toString (← u32))]
  | _ => failure

/-- One handler of a suspended continuation, as it is reported. -/
def resumeClause : Reader String := do
  match ← byte with
  | 0 => return reportFields "OnLabel" [("tag", toString (← u32)), ("label", toString (← u32))]
  | 1 => return reportFields "OnSwitch" [("tag", toString (← u32))]
  | _ => failure

end Reader

/-- Reads an immediate and gives the fields it is reported as. -/
def Immediate.read : Immediate → Reader (List (String × String))
  | .index field => do return [(field, toString (← u32))]
  | .memory maxAlign => do return [("memarg", (← memOperand).report maxAlign)]
  | .lane count => do return [("lane", toString (← laneIndex count))]
  | .shuffle => do
    let lanes ← repeated (laneIndex 32) 16
    return [("lanes", reportList (lanes.map toString))]
  | .vector => do
    let content ← bytes 16
    return [("value", s!"V128({reportList (content.map toString)})")]
  | .heapType => do return [("hty", (← Reader.heapType).report)]
  | .blockType => do return [("blockty", (← Reader.blockType).report)]
  | .cast => do
    let flags ← byte
    require (flags < 4)
    let depth ← u32
    let source ← Reader.heapType
    let target ← Reader.heapType
    return [("relative_depth", toString depth),
      ("from_ref_type", RefType.name ⟨flags.testBit 0, source⟩),
      ("to_ref_type", RefType.name ⟨flags.testBit 1, target⟩)]
  | .tryTable => do
    let type ← Reader.blockType
    let catches ← Reader.vector 10000 catchClause
    return [("try_table", reportFields "TryTable"
      [("ty", type.report), ("catches", reportList catches)])]
  | .resumeTable => do
    let handlers ← Reader.vector 10000 resumeClause
    return [("resume_table", reportFields "ResumeTable" [("handlers", reportList handlers)])]
  | .ordering => do
    match ← u32 with
    | 0 => return [("ordering", "SeqCst")]
    | 1 => return [("ordering", "AcqRel")]
    | _ => failure
  | .zeroByte => do
    require ((← byte) = 0)
    return []

/-- Reads the immediates of a form. -/
def Form.read (form : Form) : Reader Operator := do
  let fields ← form.2.mapM Immediate.read
  return .other form.1 fields.flatten

namespace Form

/-- The forms with a code of one byte. -/
def plain : List (Nat × Form) :=
  [(0x06, "Try", [.blockType]),
    (0x07, "Catch", [.index "tag_index"]),
    (0x08, "Throw", [.index "tag_index"]),
    (0x09, "Rethrow", [.index "relative_depth"]),
    (0x0a, "ThrowRef", []),
    (0x12, "ReturnCall", [.index "function_index"]),
    (0x13, "ReturnCallIndirect", [.index "type_index", .index "table_index"]),
    (0x14, "CallRef", [.index "type_index"]),
    (0x15, "ReturnCallRef", [.index "type_index"]),
    (0x18, "Delegate", [.index "relative_depth"]),
    (0x19, "CatchAll", []),
    (0x1f, "TryTable", [.tryTable]),
    (0x25, "TableGet", [.index "table"]),
    (0x26, "TableSet", [.index "table"]),
    (0xd0, "RefNull", [.heapType]),
    (0xd1, "RefIsNull", []),
    (0xd3, "RefEq", []),
    (0xd4, "RefAsNonNull", []),
    (0xd5, "BrOnNull", [.index "relative_depth"]),
    (0xd6, "BrOnNonNull", [.index "relative_depth"]),
    (0xe0, "ContNew", [.index "cont_type_index"]),
    (0xe1, "ContBind", [.index "argument_index", .index "result_index"]),
    (0xe2, "Suspend", [.index "tag_index"]),
    (0xe3, "Resume", [.index "cont_type_index", .resumeTable]),
    (0xe4, "ResumeThrow", [.index "cont_type_index", .index "tag_index", .resumeTable]),
    (0xe5, "Switch", [.index "cont_type_index", .index "tag_index"])]

/-- The forms after `fb`: structures, arrays, casts and small integers as references. -/
def aggregate : List (Nat × Form) :=
  [(0x00, "StructNew", [.index "struct_type_index"]),
    (0x01, "StructNewDefault", [.index "struct_type_index"]),
    (0x02, "StructGet", [.index "struct_type_index", .index "field_index"]),
    (0x03, "StructGetS", [.index "struct_type_index", .index "field_index"]),
    (0x04, "StructGetU", [.index "struct_type_index", .index "field_index"]),
    (0x05, "StructSet", [.index "struct_type_index", .index "field_index"]),
    (0x06, "ArrayNew", [.index "array_type_index"]),
    (0x07, "ArrayNewDefault", [.index "array_type_index"]),
    (0x08, "ArrayNewFixed", [.index "array_type_index", .index "array_size"]),
    (0x09, "ArrayNewData", [.index "array_type_index", .index "array_data_index"]),
    (0x0a, "ArrayNewElem", [.index "array_type_index", .index "array_elem_index"]),
    (0x0b, "ArrayGet", [.index "array_type_index"]),
    (0x0c, "ArrayGetS", [.index "array_type_index"]),
    (0x0d, "ArrayGetU", [.index "array_type_index"]),
    (0x0e, "ArraySet", [.index "array_type_index"]),
    (0x0f, "ArrayLen", []),
    (0x10, "ArrayFill", [.index "array_type_index"]),
    (0x11, "ArrayCopy", [.index "array_type_index_dst", .index "array_type_index_src"]),
    (0x12, "ArrayInitData", [.index "array_type_index", .index "array_data_index"]),
    (0x13, "ArrayInitElem", [.index "array_type_index", .index "array_elem_index"]),
    (0x14, "RefTestNonNull", [.heapType]),
    (0x15, "RefTestNullable", [.heapType]),
    (0x16, "RefCastNonNull", [.heapType]),
    (0x17, "RefCastNullable", [.heapType]),
    (0x18, "BrOnCast", [.cast]),
    (0x19, "BrOnCastFail", [.cast]),
    (0x1a, "AnyConvertExtern", []),
    (0x1b, "ExternConvertAny", []),
    (0x1c, "RefI31", []),
    (0x1d, "I31GetS", []),
    (0x1e, "I31GetU", [])]

/-- The forms after `fc`: segments, tables and wide arithmetic. -/
def bulk : List (Nat × Form) :=
  [(0x08, "MemoryInit", [.index "data_index", .index "mem"]),
    (0x09, "DataDrop", [.index "data_index"]),
    (0x0c, "TableInit", [.index "elem_index", .index "table"]),
    (0x0d, "ElemDrop", [.index "elem_index"]),
    (0x0e, "TableCopy", [.index "dst_table", .index "src_table"]),
    (0x0f, "TableGrow", [.index "table"]),
    (0x10, "TableSize", [.index "table"]),
    (0x11, "TableFill", [.index "table"]),
    (0x12, "MemoryDiscard", [.index "mem"]),
    (0x13, "I64Add128", []),
    (0x14, "I64Sub128", []),
    (0x15, "I64MulWideS", []),
    (0x16, "I64MulWideU", [])]

/-- Consecutive codes, from `first`, of operators of one name stem without immediates. -/
def series (first : Nat) (stem : String) (names : List String) : List (Nat × Form) :=
  (List.range' first names.length).zipWith (fun code name => (code, stem ++ name, [])) names

/-- The comparisons of integer lanes in the order of their codes. -/
def laneComparisons : List String :=
  ["Eq", "Ne", "LtS", "LtU", "GtS", "GtU", "LeS", "LeU", "GeS", "GeU"]

/-- The comparisons of floating-point lanes in the order of their codes. -/
def laneFloatComparisons : List String :=
  ["Eq", "Ne", "Lt", "Gt", "Le", "Ge"]

/-- The arithmetic of floating-point lanes in the order of their codes. -/
def laneFloatArithmetic : List String :=
  ["Add", "Sub", "Mul", "Div", "Min", "Max", "PMin", "PMax"]

/-- The forms after `fd` that have immediates. -/
def vectorAccess : List (Nat × Form) :=
  [(0x00, "V128Load", [.memory 4]),
    (0x01, "V128Load8x8S", [.memory 3]),
    (0x02, "V128Load8x8U", [.memory 3]),
    (0x03, "V128Load16x4S", [.memory 3]),
    (0x04, "V128Load16x4U", [.memory 3]),
    (0x05, "V128Load32x2S", [.memory 3]),
    (0x06, "V128Load32x2U", [.memory 3]),
    (0x07, "V128Load8Splat", [.memory 0]),
    (0x08, "V128Load16Splat", [.memory 1]),
    (0x09, "V128Load32Splat", [.memory 2]),
    (0x0a, "V128Load64Splat", [.memory 3]),
    (0x0b, "V128Store", [.memory 4]),
    (0x0c, "V128Const", [.vector]),
    (0x0d, "I8x16Shuffle", [.shuffle]),
    (0x15, "I8x16ExtractLaneS", [.lane 16]),
    (0x16, "I8x16ExtractLaneU", [.lane 16]),
    (0x17, "I8x16ReplaceLane", [.lane 16]),
    (0x18, "I16x8ExtractLaneS", [.lane 8]),
    (0x19, "I16x8ExtractLaneU", [.lane 8]),
    (0x1a, "I16x8ReplaceLane", [.lane 8]),
    (0x1b, "I32x4ExtractLane", [.lane 4]),
    (0x1c, "I32x4ReplaceLane", [.lane 4]),
    (0x1d, "I64x2ExtractLane", [.lane 2]),
    (0x1e, "I64x2ReplaceLane", [.lane 2]),
    (0x1f, "F32x4ExtractLane", [.lane 4]),
    (0x20, "F32x4ReplaceLane", [.lane 4]),
    (0x21, "F64x2ExtractLane", [.lane 2]),
    (0x22, "F64x2ReplaceLane", [.lane 2]),
    (0x54, "V128Load8Lane", [.memory 0, .lane 16]),
    (0x55, "V128Load16Lane", [.memory 1, .lane 8]),
    (0x56, "V128Load32Lane", [.memory 2, .lane 4]),
    (0x57, "V128Load64Lane", [.memory 3, .lane 2]),
    (0x58, "V128Store8Lane", [.memory 0, .lane 16]),
    (0x59, "V128Store16Lane", [.memory 1, .lane 8]),
    (0x5a, "V128Store32Lane", [.memory 2, .lane 4]),
    (0x5b, "V128Store64Lane", [.memory 3, .lane 2]),
    (0x5c, "V128Load32Zero", [.memory 2]),
    (0x5d, "V128Load64Zero", [.memory 3])]

/-- The forms after `fd` without immediates, up to the lanes of 8 bits. -/
def vectorNarrow : List (Nat × Form) :=
  series 0x0e "" ["I8x16Swizzle", "I8x16Splat", "I16x8Splat", "I32x4Splat", "I64x2Splat",
    "F32x4Splat", "F64x2Splat"] ++
  series 0x23 "I8x16" laneComparisons ++
  series 0x2d "I16x8" laneComparisons ++
  series 0x37 "I32x4" laneComparisons ++
  series 0x41 "F32x4" laneFloatComparisons ++
  series 0x47 "F64x2" laneFloatComparisons ++
  series 0x4d "V128" ["Not", "And", "AndNot", "Or", "Xor", "Bitselect", "AnyTrue"] ++
  series 0x5e "" ["F32x4DemoteF64x2Zero", "F64x2PromoteLowF32x4"] ++
  series 0x60 "I8x16" ["Abs", "Neg", "Popcnt", "AllTrue", "Bitmask", "NarrowI16x8S",
    "NarrowI16x8U"] ++
  series 0x67 "F32x4" ["Ceil", "Floor", "Trunc", "Nearest"] ++
  series 0x6b "I8x16" ["Shl", "ShrS", "ShrU", "Add", "AddSatS", "AddSatU", "Sub", "SubSatS",
    "SubSatU"] ++
  series 0x74 "F64x2" ["Ceil", "Floor"] ++
  series 0x76 "I8x16" ["MinS", "MinU", "MaxS", "MaxU"] ++
  series 0x7a "" ["F64x2Trunc", "I8x16AvgrU", "I16x8ExtAddPairwiseI8x16S",
    "I16x8ExtAddPairwiseI8x16U", "I32x4ExtAddPairwiseI16x8S", "I32x4ExtAddPairwiseI16x8U"]

/-- The forms after `fd` without immediates, on wider lanes. -/
def vectorWide : List (Nat × Form) :=
  series 0x80 "I16x8" ["Abs", "Neg", "Q15MulrSatS", "AllTrue", "Bitmask", "NarrowI32x4S",
    "NarrowI32x4U", "ExtendLowI8x16S", "ExtendHighI8x16S", "ExtendLowI8x16U",
    "ExtendHighI8x16U", "Shl", "ShrS", "ShrU", "Add", "AddSatS", "AddSatU", "Sub", "SubSatS",
    "SubSatU"] ++
  series 0x94 "" ["F64x2Nearest"] ++
  series 0x95 "I16x8" ["Mul", "MinS", "MinU", "MaxS", "MaxU"] ++
  series 0x9b "I16x8" ["AvgrU", "ExtMulLowI8x16S", "ExtMulHighI8x16S", "ExtMulLowI8x16U",
    "ExtMulHighI8x16U"] ++
  series 0xa0 "I32x4" ["Abs", "Neg"] ++
  series 0xa3 "I32x4" ["AllTrue", "Bitmask"] ++
  series 0xa7 "I32x4" ["ExtendLowI16x8S", "ExtendHighI16x8S", "ExtendLowI16x8U",
    "ExtendHighI16x8U", "Shl", "ShrS", "ShrU", "Add"] ++
  series 0xb1 "I32x4" ["Sub"] ++
  series 0xb5 "I32x4" ["Mul", "MinS", "MinU", "MaxS", "MaxU", "DotI16x8S"] ++
  series 0xbc "I32x4" ["ExtMulLowI16x8S", "ExtMulHighI16x8S", "ExtMulLowI16x8U",
    "ExtMulHighI16x8U"] ++
  series 0xc0 "I64x2" ["Abs", "Neg"] ++
  series 0xc3 "I64x2" ["AllTrue", "Bitmask"] ++
  series 0xc7 "I64x2" ["ExtendLowI32x4S", "ExtendHighI32x4S", "ExtendLowI32x4U",
    "ExtendHighI32x4U", "Shl", "ShrS", "ShrU", "Add"] ++
  series 0xd1 "I64x2" ["Sub"] ++
  series 0xd5 "I64x2" ["Mul", "Eq", "Ne", "LtS", "GtS", "LeS", "GeS", "ExtMulLowI32x4S",
    "ExtMulHighI32x4S", "ExtMulLowI32x4U", "ExtMulHighI32x4U"] ++
  series 0xe0 "F32x4" ["Abs", "Neg"] ++
  series 0xe3 "F32x4" ("Sqrt" :: laneFloatArithmetic) ++
  series 0xec "F64x2" ["Abs", "Neg"] ++
  series 0xef "F64x2" ("Sqrt" :: laneFloatArithmetic) ++
  series 0xf8 "" ["I32x4TruncSatF32x4S", "I32x4TruncSatF32x4U", "F32x4ConvertI32x4S",
    "F32x4ConvertI32x4U", "I32x4TruncSatF64x2SZero", "I32x4TruncSatF64x2UZero",
    "F64x2ConvertLowI32x4S", "F64x2ConvertLowI32x4U", "I8x16RelaxedSwizzle",
    "I32x4RelaxedTruncF32x4S", "I32x4RelaxedTruncF32x4U", "I32x4RelaxedTruncF64x2SZero",
    "I32x4RelaxedTruncF64x2UZero", "F32x4RelaxedMadd", "F32x4RelaxedNmadd", "F64x2RelaxedMadd",
    "F64x2RelaxedNmadd", "I8x16RelaxedLaneselect", "I16x8RelaxedLaneselect",
    "I32x4RelaxedLaneselect", "I64x2RelaxedLaneselect", "F32x4RelaxedMin", "F32x4RelaxedMax",
    "F64x2RelaxedMin", "F64x2RelaxedMax", "I16x8RelaxedQ15mulrS", "I16x8RelaxedDotI8x16I7x16S",
    "I32x4RelaxedDotI8x16I7x16AddS"]

/-- The forms after `fd`: vectors. -/
def vector : List (Nat × Form) :=
  vectorAccess ++ vectorNarrow ++ vectorWide

/-- The seven accesses of an atomic update, from its first code. -/
def atomicUpdate (first : Nat) (name : String) : List (Nat × Form) :=
  [(first, "I32AtomicRmw" ++ name, [.memory 2]),
    (first + 1, "I64AtomicRmw" ++ name, [.memory 3]),
    (first + 2, "I32AtomicRmw8" ++ name ++ "U", [.memory 0]),
    (first + 3, "I32AtomicRmw16" ++ name ++ "U", [.memory 1]),
    (first + 4, "I64AtomicRmw8" ++ name ++ "U", [.memory 0]),
    (first + 5, "I64AtomicRmw16" ++ name ++ "U", [.memory 1]),
    (first + 6, "I64AtomicRmw32" ++ name ++ "U", [.memory 2])]

/-- Consecutive codes, from `first`, of ordered accesses of one stem with the same indices. -/
def orderedSeries (first : Nat) (stem : String) (names : List String) (indices : List String) :
    List (Nat × Form) :=
  (List.range' first names.length).zipWith
    (fun code name => (code, stem ++ "Atomic" ++ name, .ordering :: indices.map .index)) names

/-- The atomic updates in the order of their codes. -/
def updates : List String :=
  ["RmwAdd", "RmwSub", "RmwAnd", "RmwOr", "RmwXor", "RmwXchg", "RmwCmpxchg"]

/-- The forms after `fe`: waiting, fences, atomic updates, and accesses to shared objects. -/
def atomic : List (Nat × Form) :=
  [(0x00, "MemoryAtomicNotify", [.memory 2]),
    (0x01, "MemoryAtomicWait32", [.memory 2]),
    (0x02, "MemoryAtomicWait64", [.memory 3]),
    (0x03, "AtomicFence", [.zeroByte])] ++
  atomicUpdate 0x1e "Add" ++ atomicUpdate 0x25 "Sub" ++ atomicUpdate 0x2c "And" ++
  atomicUpdate 0x33 "Or" ++ atomicUpdate 0x3a "Xor" ++ atomicUpdate 0x41 "Xchg" ++
  atomicUpdate 0x48 "Cmpxchg" ++
  orderedSeries 0x4f "Global" (["Get", "Set"] ++ updates) ["global_index"] ++
  orderedSeries 0x58 "Table" ["Get", "Set", "RmwXchg", "RmwCmpxchg"] ["table_index"] ++
  orderedSeries 0x5c "Struct" (["Get", "GetS", "GetU", "Set"] ++ updates)
    ["struct_type_index", "field_index"] ++
  orderedSeries 0x67 "Array" (["Get", "GetS", "GetU", "Set"] ++ updates) ["array_type_index"] ++
  [(0x72, "RefI31Shared", [])]

end Form

end WasmLift.Binary
