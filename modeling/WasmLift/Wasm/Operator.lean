import WasmLift.Wasm.Numeric
import WasmLift.Wasm.Value

/-!
# Operators

The operators of a function body or a constant expression, in the order they are read. Those that
take part in reconstruction have constructors of their own; every other one is kept as the name and
the immediates it is reported with. `Operator.report` is that text, for any operator.
-/

namespace WasmLift

/-- The immediates of a memory access: alignment exponent, static offset and memory index. -/
structure MemOperand where
  align : Nat
  offset : Nat
  memory : Nat
deriving DecidableEq, Repr

/-- The shape of a load or store: the type on the stack, the bytes touched in memory, whether a
narrow load extends the sign, and whether the access is atomic. Stores never extend. -/
structure AccessShape where
  ty : Ty
  bytes : Nat
  signed : Bool
  atomic : Bool
deriving DecidableEq, Repr

/-- One operator. -/
inductive Operator where
  | const (value : Value)
  | localGet (index : Nat)
  | localSet (index : Nat)
  | localTee (index : Nat)
  | globalGet (index : Nat)
  | globalSet (index : Nat)
  | unary (op : UnOp)
  | binary (op : BinOp)
  | load (shape : AccessShape) (operand : MemOperand)
  | store (shape : AccessShape) (operand : MemOperand)
  | memorySize (memory : Nat)
  | memoryGrow (memory : Nat)
  | memoryCopy (target source : Nat)
  | memoryFill (memory : Nat)
  | nop
  | unreachable
  | block (type : BlockType)
  | loop (type : BlockType)
  | ifThen (type : BlockType)
  | elseArm
  | finish
  | br (depth : Nat)
  | brIf (depth : Nat)
  | brTable (depths : List Nat) (fallback : Nat)
  | ret
  | call (function : Nat)
  | callIndirect (type table : Nat)
  | drop
  | select
  | typedSelect (type : ValType)
  | refFunc (function : Nat)
  /-- An operator that takes no part in reconstruction: its name and its immediates, each with the
  text it is reported with. -/
  | other (name : String) (immediates : List (String × String))
deriving DecidableEq, Repr

namespace AccessShape

/-- The exponent of the natural alignment of the access. -/
def maxAlign (s : AccessShape) : Nat :=
  match s.bytes with
  | 1 => 0
  | 2 => 1
  | 4 => 2
  | _ => 3

/-- The type with which the name of the access begins. -/
def typeName (s : AccessShape) : String :=
  match s.ty with
  | .i32 => "I32"
  | .i64 => "I64"
  | .f32 => "F32"
  | .f64 => "F64"
  | .void => ""

/-- The width with which the name of a narrow access ends. -/
def widthName (s : AccessShape) : String :=
  if s.bytes < s.ty.byteSize then toString (8 * s.bytes) else ""

/-- The name of the access as a load. -/
def loadName (s : AccessShape) : String :=
  let sign :=
    if s.bytes < s.ty.byteSize then (if s.signed then "S" else "U") else ""
  s.typeName ++ (if s.atomic then "Atomic" else "") ++ "Load" ++ s.widthName ++ sign

/-- The name of the access as a store. -/
def storeName (s : AccessShape) : String :=
  s.typeName ++ (if s.atomic then "Atomic" else "") ++ "Store" ++ s.widthName

end AccessShape

/-- A name followed by its fields between braces; a name alone if it has none. -/
def reportFields (name : String) : List (String × String) → String
  | [] => name
  | fields =>
    name ++ " \x7b " ++ String.intercalate ", " (fields.map fun f => f.1 ++ ": " ++ f.2) ++ " \x7d"

/-- Texts between square brackets. -/
def reportList (items : List String) : String :=
  "[" ++ String.intercalate ", " items ++ "]"

/-- A heap type as an operator reports it. -/
def HeapType.report : HeapType → String
  | .abstract shared kind =>
    reportFields "Abstract" [("shared", toString shared), ("ty", kind.reportName)]
  | .concrete index => s!"Concrete(Module({index}))"

/-- A block type as an operator reports it. -/
def BlockType.report : BlockType → String
  | .empty => "Empty"
  | .value type => s!"Type({type.reportName})"
  | .declared index => s!"FuncType({index})"

/-- The immediates of a memory access as an operator reports them. -/
def MemOperand.report (m : MemOperand) (maxAlign : Nat) : String :=
  reportFields "MemArg"
    [("align", toString m.align), ("max_align", toString maxAlign), ("offset", toString m.offset),
      ("memory", toString m.memory)]

namespace Operator

/-- The name and the immediates an operator is reported with. -/
def fields : Operator → String × List (String × String)
  | .const (.i32 word) => ("I32Const", [("value", toString word.toInt)])
  | .const (.i64 word) => ("I64Const", [("value", toString word.toInt)])
  | .const (.f32 bits) => ("F32Const", [("value", s!"Ieee32({bits.toNat})")])
  | .const (.f64 bits) => ("F64Const", [("value", s!"Ieee64({bits.toNat})")])
  | .localGet index => ("LocalGet", [("local_index", toString index)])
  | .localSet index => ("LocalSet", [("local_index", toString index)])
  | .localTee index => ("LocalTee", [("local_index", toString index)])
  | .globalGet index => ("GlobalGet", [("global_index", toString index)])
  | .globalSet index => ("GlobalSet", [("global_index", toString index)])
  | .unary op => (op.name, [])
  | .binary op => (op.name, [])
  | .load shape operand => (shape.loadName, [("memarg", operand.report shape.maxAlign)])
  | .store shape operand => (shape.storeName, [("memarg", operand.report shape.maxAlign)])
  | .memorySize memory => ("MemorySize", [("mem", toString memory)])
  | .memoryGrow memory => ("MemoryGrow", [("mem", toString memory)])
  | .memoryCopy target source =>
    ("MemoryCopy", [("dst_mem", toString target), ("src_mem", toString source)])
  | .memoryFill memory => ("MemoryFill", [("mem", toString memory)])
  | .nop => ("Nop", [])
  | .unreachable => ("Unreachable", [])
  | .block type => ("Block", [("blockty", type.report)])
  | .loop type => ("Loop", [("blockty", type.report)])
  | .ifThen type => ("If", [("blockty", type.report)])
  | .elseArm => ("Else", [])
  | .finish => ("End", [])
  | .br depth => ("Br", [("relative_depth", toString depth)])
  | .brIf depth => ("BrIf", [("relative_depth", toString depth)])
  | .brTable depths fallback =>
    ("BrTable", [("targets", reportFields "BrTable"
      [("count", toString depths.length), ("default", toString fallback),
        ("targets", reportList (depths.map toString))])])
  | .ret => ("Return", [])
  | .call function => ("Call", [("function_index", toString function)])
  | .callIndirect type table =>
    ("CallIndirect", [("type_index", toString type), ("table_index", toString table)])
  | .drop => ("Drop", [])
  | .select => ("Select", [])
  | .typedSelect type => ("TypedSelect", [("ty", type.reportName)])
  | .refFunc function => ("RefFunc", [("function_index", toString function)])
  | .other name immediates => (name, immediates)

/-- The text an operator is reported with. -/
def report (op : Operator) : String :=
  reportFields op.fields.1 op.fields.2

end Operator

end WasmLift
