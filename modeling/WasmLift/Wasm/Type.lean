/-!
# Types

The value types of the binary format, and the five types an expression can have: the four number
types and `void` for a statement. Reference and vector types are read but have no counterpart among
the latter.
-/

namespace WasmLift

/-- The heap types that are not declared by the module. -/
inductive AbstractHeap where
  | func | external | any | bottom | noExternal | noFunc | eq | struct | array | i31 | exn | noExn
  | cont | noCont
deriving DecidableEq, Repr

/-- What a reference points to. -/
inductive HeapType where
  | abstract (shared : Bool) (kind : AbstractHeap)
  /-- A type declared by the module. -/
  | concrete (index : Nat)
deriving DecidableEq, Repr

/-- A reference type. -/
structure RefType where
  nullable : Bool
  heap : HeapType
deriving DecidableEq, Repr

/-- The value types of the binary format. -/
inductive ValType where
  | i32 | i64 | f32 | f64 | v128
  | ref (type : RefType)
deriving DecidableEq, Repr

/-- The signature of a function. -/
structure FuncType where
  params : List ValType
  results : List ValType
deriving DecidableEq, Repr

/-- The type of a structured construct: nothing, one value, or a declared signature. -/
inductive BlockType where
  | empty
  | value (type : ValType)
  | declared (index : Nat)
deriving DecidableEq, Repr

/-- The type of an expression. -/
inductive Ty where
  | i32 | i64 | f32 | f64 | void
deriving DecidableEq, Repr, Inhabited

namespace AbstractHeap

/-- All abstract heap types with their codes in the binary format. -/
def codes : List (Nat × AbstractHeap) :=
  [(0x70, .func), (0x6f, .external), (0x6e, .any), (0x71, .bottom), (0x72, .noExternal),
    (0x73, .noFunc), (0x6d, .eq), (0x6b, .struct), (0x6a, .array), (0x6c, .i31), (0x69, .exn),
    (0x74, .noExn), (0x68, .cont), (0x75, .noCont)]

/-- The abstract heap type with the given code. -/
def ofCode? (code : Nat) : Option AbstractHeap :=
  codes.lookup code

/-- The keyword of the text format. -/
def keyword : AbstractHeap → String
  | .func => "func"
  | .external => "extern"
  | .any => "any"
  | .bottom => "none"
  | .noExternal => "noextern"
  | .noFunc => "nofunc"
  | .eq => "eq"
  | .struct => "struct"
  | .array => "array"
  | .i31 => "i31"
  | .exn => "exn"
  | .noExn => "noexn"
  | .cont => "cont"
  | .noCont => "nocont"

/-- The name used when an operator is reported. -/
def reportName : AbstractHeap → String
  | .func => "Func"
  | .external => "Extern"
  | .any => "Any"
  | .bottom => "None"
  | .noExternal => "NoExtern"
  | .noFunc => "NoFunc"
  | .eq => "Eq"
  | .struct => "Struct"
  | .array => "Array"
  | .i31 => "I31"
  | .exn => "Exn"
  | .noExn => "NoExn"
  | .cont => "Cont"
  | .noCont => "NoCont"

/-- The one-word name of the nullable reference to this heap type. -/
def nullableName : AbstractHeap → String
  | .bottom => "nullref"
  | .noExternal => "nullexternref"
  | .noFunc => "nullfuncref"
  | .noExn => "nullexnref"
  | .noCont => "nullcontref"
  | kind => kind.keyword ++ "ref"

end AbstractHeap

/-- A heap type as it is written inside a reference type. -/
def HeapType.keyword : HeapType → String
  | .abstract false kind => kind.keyword
  | .abstract true kind => s!"(shared {kind.keyword})"
  | .concrete index => s!"(module {index})"

/-- A reference type as it is written: one word for a nullable reference to an abstract heap type,
marked if it is shared. -/
def RefType.name (r : RefType) : String :=
  match r with
  | ⟨true, .abstract false kind⟩ => kind.nullableName
  | ⟨true, .abstract true kind⟩ => s!"(shared {kind.nullableName})"
  | ⟨true, heap⟩ => s!"(ref null {heap.keyword})"
  | ⟨false, heap⟩ => s!"(ref {heap.keyword})"

/-- A value type as it is written. -/
def ValType.name : ValType → String
  | .i32 => "i32"
  | .i64 => "i64"
  | .f32 => "f32"
  | .f64 => "f64"
  | .v128 => "v128"
  | .ref r => r.name

/-- The name of a value type used when it is reported. -/
def ValType.reportName : ValType → String
  | .i32 => "I32"
  | .i64 => "I64"
  | .f32 => "F32"
  | .f64 => "F64"
  | .v128 => "V128"
  | .ref r => s!"Ref({r.name})"

namespace Ty

/-- The type as it is written. -/
def name : Ty → String
  | .i32 => "i32"
  | .i64 => "i64"
  | .f32 => "f32"
  | .f64 => "f64"
  | .void => "void"

/-- The two integer types. -/
def isInteger : Ty → Bool
  | .i32 | .i64 => true
  | _ => false

/-- The natural width of an access in bytes, zero for `void`. -/
def byteSize : Ty → Nat
  | .i32 | .f32 => 4
  | .i64 | .f64 => 8
  | .void => 0

/-- The number type a value type is; reference and vector types are none. -/
def ofValType? : ValType → Option Ty
  | .i32 => some .i32
  | .i64 => some .i64
  | .f32 => some .f32
  | .f64 => some .f64
  | .v128 | .ref _ => none

end Ty

end WasmLift
