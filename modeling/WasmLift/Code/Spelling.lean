import WasmLift.Text.Escape
import WasmLift.Wasm.Numeric
import WasmLift.Wasm.Value

/-!
# C spelling

How types, numbers, variables and operators are spelled in the pseudocode.
-/

namespace WasmLift.Spelling

open Decimal (Exceptional Magnitude)

/-- The type of a variable; an integer in memory is named after the bytes it takes. -/
def typeName (ty : Ty) (bytes : Option Nat) : String :=
  match ty.isInteger, bytes with
  | true, some 1 => "char"
  | true, some 2 => "short"
  | true, some 4 => "int"
  | true, some 8 => "long"
  | _, _ =>
    match ty with
    | .i32 => "int"
    | .i64 => "long"
    | .f32 => "float"
    | .f64 => "double"
    | .void => "void"

/-- How floating-point words without digits are spelled. -/
def exceptional : Exceptional := ⟨"NAN", "INFINITY"⟩

/-- A floating-point number: the shortest digits that read back, without an exponent and always with
a fraction. -/
def float (u : Decimal.Unpacked) : String :=
  u.text exceptional fun m => m.positional?.map Decimal.withFraction

/-- A constant: integers are signed hexadecimal numbers. -/
def number : Value → String
  | .i32 word => Text.hexInt word.toInt
  | .i64 word => Text.hexInt word.toInt
  | .f32 bits => float (Decimal.Format.single.unpack bits.toNat)
  | .f64 bits => float (Decimal.Format.double.unpack bits.toNat)

/-- The name of a global: a made-up one loses its dollar sign. -/
def globalName (name : String) : String :=
  if "global$".toList.isPrefixOf name.toList then
    "global" ++ String.ofList (name.toList.drop 7)
  else name

/-- The name of a parameter. -/
def paramName (index : Nat) : String :=
  s!"param{index}"

/-- The name of a local. -/
def localName (index : Nat) : String :=
  s!"local{index}"

/-- The name of a stack slot: its offset as a 64-bit hexadecimal word. -/
def slotName (offset : Int) : String :=
  "local_" ++ String.ofList (Text.hexWord offset)

/-- How an operator with two operands is spelled. -/
inductive BinaryForm where
  /-- A symbol between the operands. -/
  | infixed (symbol : String)
  /-- A symbol between the operands, each read without a sign. -/
  | unsigned (symbol : String)
  /-- A function of both operands. -/
  | call (name : String)
deriving DecidableEq, Repr

/-- How an operator with one operand is spelled. -/
inductive UnaryForm where
  /-- A symbol before the operand. -/
  | prefixed (symbol : String)
  /-- A function of the operand. -/
  | call (name : String)
  /-- Casts of the operand, the outermost first. -/
  | cast (types : List String)
deriving DecidableEq, Repr

/-- An operator that depends on how its operands are read. -/
def bySign (symbol : String) : Signedness → BinaryForm
  | .signed => .infixed symbol
  | .unsigned => .unsigned symbol

/-- The spelling of integer arithmetic. -/
def intArith : IntArith → BinaryForm
  | .add => .infixed "+"
  | .sub => .infixed "-"
  | .mul => .infixed "*"
  | .div s => bySign "/" s
  | .rem s => bySign "%" s
  | .and => .infixed "&"
  | .or => .infixed "|"
  | .xor => .infixed "^"
  | .shl => .infixed "<<"
  | .shr s => bySign ">>" s
  | .rotl => .call "__rotl"
  | .rotr => .call "__rotr"

/-- The spelling of integer comparisons. -/
def intRel : IntRel → BinaryForm
  | .eq => .infixed "=="
  | .ne => .infixed "!="
  | .lt s => bySign "<" s
  | .gt s => bySign ">" s
  | .le s => bySign "<=" s
  | .ge s => bySign ">=" s

/-- The spelling of floating-point arithmetic. -/
def floatArith : FloatArith → BinaryForm
  | .add => .infixed "+"
  | .sub => .infixed "-"
  | .mul => .infixed "*"
  | .div => .infixed "/"
  | .min => .call "fmin"
  | .max => .call "fmax"
  | .copysign => .call "copysign"

/-- The spelling of floating-point comparisons. -/
def floatRel : FloatRel → BinaryForm
  | .eq => .infixed "=="
  | .ne => .infixed "!="
  | .lt => .infixed "<"
  | .gt => .infixed ">"
  | .le => .infixed "<="
  | .ge => .infixed ">="

/-- The spelling of an operator with two operands. -/
def binaryForm : BinOp → BinaryForm
  | .int _ op => intArith op
  | .intRel _ op => intRel op
  | .float _ op => floatArith op
  | .floatRel _ op => floatRel op

/-- The integer type of a width. -/
def intType : Width → String
  | .w32 => "int"
  | .w64 => "long"

/-- The unsigned integer type of a width. -/
def unsignedType : Width → String
  | .w32 => "unsigned int"
  | .w64 => "unsigned long"

/-- The floating-point type of a width. -/
def floatType : Width → String
  | .w32 => "float"
  | .w64 => "double"

/-- The integer type of a width, read with or without a sign. -/
def signType (w : Width) : Signedness → String
  | .signed => intType w
  | .unsigned => unsignedType w

/-- The saturating conversion to an integer type. -/
def saturatingName : Width → Signedness → String
  | .w32, .signed => "__trunc_sat_int"
  | .w32, .unsigned => "__trunc_sat_uint"
  | .w64, .signed => "__trunc_sat_long"
  | .w64, .unsigned => "__trunc_sat_ulong"

/-- The spelling of floating-point functions. -/
def floatUnary : FloatUnary → UnaryForm
  | .abs => .call "fabs"
  | .neg => .prefixed "-"
  | .ceil => .call "ceil"
  | .floor => .call "floor"
  | .trunc => .call "trunc"
  | .nearest => .call "nearbyint"
  | .sqrt => .call "sqrt"

/-- The spelling of an operator with one operand. -/
def unaryForm : UnOp → UnaryForm
  | .int _ .clz => .call "__clz"
  | .int _ .ctz => .call "__ctz"
  | .int _ .popcnt => .call "__popcnt"
  | .eqz _ => .prefixed "!"
  | .float _ op => floatUnary op
  | .wrap => .cast ["int"]
  | .extend .signed => .cast ["long"]
  | .extend .unsigned => .cast ["long", "unsigned int"]
  | .extend8 w => .cast [intType w, "char"]
  | .extend16 w => .cast [intType w, "short"]
  | .extend32 => .cast ["long", "int"]
  | .trunc target _ s => .cast [signType target s]
  | .truncSat target _ s => .call (saturatingName target s)
  | .convert target _ .signed => .cast [floatType target]
  | .convert target source .unsigned => .cast [floatType target, unsignedType source]
  | .demote => .cast ["float"]
  | .promote => .cast ["double"]
  | .bitsOfFloat w => .call ("__bits_" ++ intType w)
  | .floatOfBits w => .call ("__bits_" ++ floatType w)

/-- The type to which the operands of an unsigned operator are cast. -/
def unsignedOperand : BinOp → String
  | .int w (.div .unsigned) | .int w (.rem .unsigned) | .int w (.shr .unsigned)
  | .intRel w (.lt .unsigned) | .intRel w (.gt .unsigned) | .intRel w (.le .unsigned)
  | .intRel w (.ge .unsigned) => unsignedType w
  | _ => "unsigned int"

/-- Casts, one after the other. -/
def casts (types : List String) : String :=
  String.intercalate " " (types.map fun t => s!"({t})")

/-- An operator applied to the texts of its operands. -/
def applyBinary (op : BinOp) (left right : String) : String :=
  match binaryForm op with
  | .infixed symbol => s!"{left} {symbol} {right}"
  | .unsigned symbol =>
    let ty := unsignedOperand op
    s!"({ty}) {left} {symbol} ({ty}) {right}"
  | .call name => s!"{name}({left}, {right})"

/-- An operator applied to the text of its operand. -/
def applyUnary (op : UnOp) (value : String) : String :=
  match unaryForm op with
  | .prefixed symbol => symbol ++ value
  | .call name => s!"{name}({value})"
  | .cast types => s!"{casts types} {value}"

/-- The type of the memory that an access touches. -/
def accessType (ty : Ty) (bytes : Nat) (signed atomic : Bool) : String :=
  (if atomic then "_Atomic " else "") ++
    (if ty.isInteger && !signed && bytes < ty.byteSize then "unsigned " else "") ++
    typeName ty (some bytes)

end WasmLift.Spelling
