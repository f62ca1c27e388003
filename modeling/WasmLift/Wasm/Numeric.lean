import WasmLift.Wasm.Type

/-!
# Numeric operators

The operators on numbers, by the family they belong to: arithmetic and comparisons on integers and
on floating-point numbers of either width, tests, and conversions between the number types. Each
has a result type and the name it is reported with.
-/

namespace WasmLift

/-- The width of a number type in bits. -/
inductive Width where
  | w32 | w64
deriving DecidableEq, Repr

/-- How the bits of an integer are read. -/
inductive Signedness where
  | signed | unsigned
deriving DecidableEq, Repr

/-- Integer arithmetic. -/
inductive IntArith where
  | add | sub | mul
  | div (s : Signedness) | rem (s : Signedness)
  | and | or | xor | shl
  | shr (s : Signedness)
  | rotl | rotr
deriving DecidableEq, Repr

/-- Integer comparisons. -/
inductive IntRel where
  | eq | ne
  | lt (s : Signedness) | gt (s : Signedness) | le (s : Signedness) | ge (s : Signedness)
deriving DecidableEq, Repr

/-- Floating-point arithmetic. -/
inductive FloatArith where
  | add | sub | mul | div | min | max | copysign
deriving DecidableEq, Repr

/-- Floating-point comparisons. -/
inductive FloatRel where
  | eq | ne | lt | gt | le | ge
deriving DecidableEq, Repr

/-- Operators with two operands. -/
inductive BinOp where
  | int (w : Width) (op : IntArith)
  | intRel (w : Width) (op : IntRel)
  | float (w : Width) (op : FloatArith)
  | floatRel (w : Width) (op : FloatRel)
deriving DecidableEq, Repr

/-- Bit counts. -/
inductive IntUnary where
  | clz | ctz | popcnt
deriving DecidableEq, Repr

/-- Floating-point functions of one argument. -/
inductive FloatUnary where
  | abs | neg | ceil | floor | trunc | nearest | sqrt
deriving DecidableEq, Repr

/-- Operators with one operand. -/
inductive UnOp where
  | int (w : Width) (op : IntUnary)
  /-- The test for zero. -/
  | eqz (w : Width)
  | float (w : Width) (op : FloatUnary)
  /-- The low half of a 64-bit integer. -/
  | wrap
  /-- A 32-bit integer as a 64-bit one. -/
  | extend (s : Signedness)
  /-- The sign extension of the low 8 bits. -/
  | extend8 (w : Width)
  /-- The sign extension of the low 16 bits. -/
  | extend16 (w : Width)
  /-- The sign extension of the low 32 bits of a 64-bit integer. -/
  | extend32
  /-- Floating point to integer, trapping outside the target's range. -/
  | trunc (target source : Width) (s : Signedness)
  /-- Floating point to integer, clamped to the target's range. -/
  | truncSat (target source : Width) (s : Signedness)
  /-- Integer to floating point. -/
  | convert (target source : Width) (s : Signedness)
  | demote
  | promote
  /-- The bits of a floating-point number as an integer. -/
  | bitsOfFloat (w : Width)
  /-- An integer as the bits of a floating-point number. -/
  | floatOfBits (w : Width)
deriving DecidableEq, Repr

namespace Width

/-- The integer type of this width. -/
def intTy : Width → Ty
  | .w32 => .i32
  | .w64 => .i64

/-- The floating-point type of this width. -/
def floatTy : Width → Ty
  | .w32 => .f32
  | .w64 => .f64

/-- The width as it is written in an operator's name. -/
def digits : Width → String
  | .w32 => "32"
  | .w64 => "64"

end Width

/-- The letter that ends the name of an operator that reads its operands this way. -/
def Signedness.letter : Signedness → String
  | .signed => "S"
  | .unsigned => "U"

/-- The part of an operator's name that follows the type. -/
def IntArith.name : IntArith → String
  | .add => "Add"
  | .sub => "Sub"
  | .mul => "Mul"
  | .div s => "Div" ++ s.letter
  | .rem s => "Rem" ++ s.letter
  | .and => "And"
  | .or => "Or"
  | .xor => "Xor"
  | .shl => "Shl"
  | .shr s => "Shr" ++ s.letter
  | .rotl => "Rotl"
  | .rotr => "Rotr"

/-- The part of an operator's name that follows the type. -/
def IntRel.name : IntRel → String
  | .eq => "Eq"
  | .ne => "Ne"
  | .lt s => "Lt" ++ s.letter
  | .gt s => "Gt" ++ s.letter
  | .le s => "Le" ++ s.letter
  | .ge s => "Ge" ++ s.letter

/-- The part of an operator's name that follows the type. -/
def FloatArith.name : FloatArith → String
  | .add => "Add"
  | .sub => "Sub"
  | .mul => "Mul"
  | .div => "Div"
  | .min => "Min"
  | .max => "Max"
  | .copysign => "Copysign"

/-- The part of an operator's name that follows the type. -/
def FloatRel.name : FloatRel → String
  | .eq => "Eq"
  | .ne => "Ne"
  | .lt => "Lt"
  | .gt => "Gt"
  | .le => "Le"
  | .ge => "Ge"

/-- The part of an operator's name that follows the type. -/
def IntUnary.name : IntUnary → String
  | .clz => "Clz"
  | .ctz => "Ctz"
  | .popcnt => "Popcnt"

/-- The part of an operator's name that follows the type. -/
def FloatUnary.name : FloatUnary → String
  | .abs => "Abs"
  | .neg => "Neg"
  | .ceil => "Ceil"
  | .floor => "Floor"
  | .trunc => "Trunc"
  | .nearest => "Nearest"
  | .sqrt => "Sqrt"

namespace IntArith

/-- Integer arithmetic in the order of the binary format. -/
def inOrder : List IntArith :=
  [.add, .sub, .mul, .div .signed, .div .unsigned, .rem .signed, .rem .unsigned, .and, .or, .xor,
    .shl, .shr .signed, .shr .unsigned, .rotl, .rotr]

end IntArith

namespace IntRel

/-- Integer comparisons in the order of the binary format. -/
def inOrder : List IntRel :=
  [.eq, .ne, .lt .signed, .lt .unsigned, .gt .signed, .gt .unsigned, .le .signed, .le .unsigned,
    .ge .signed, .ge .unsigned]

end IntRel

namespace FloatArith

/-- Floating-point arithmetic in the order of the binary format. -/
def inOrder : List FloatArith :=
  [.add, .sub, .mul, .div, .min, .max, .copysign]

end FloatArith

namespace FloatRel

/-- Floating-point comparisons in the order of the binary format. -/
def inOrder : List FloatRel :=
  [.eq, .ne, .lt, .gt, .le, .ge]

end FloatRel

namespace IntUnary

/-- Bit counts in the order of the binary format. -/
def inOrder : List IntUnary :=
  [.clz, .ctz, .popcnt]

end IntUnary

namespace FloatUnary

/-- Floating-point functions in the order of the binary format. -/
def inOrder : List FloatUnary :=
  [.abs, .neg, .ceil, .floor, .trunc, .nearest, .sqrt]

end FloatUnary

namespace BinOp

/-- The type of the result: comparisons give an `i32`. -/
def resultTy : BinOp → Ty
  | .int w _ => w.intTy
  | .float w _ => w.floatTy
  | .intRel _ _ | .floatRel _ _ => .i32

/-- Integer addition of either width. -/
def isAdd : BinOp → Bool
  | .int _ .add => true
  | _ => false

/-- Integer subtraction of either width. -/
def isSub : BinOp → Bool
  | .int _ .sub => true
  | _ => false

/-- The name the operator is reported with. -/
def name : BinOp → String
  | .int w op => "I" ++ w.digits ++ op.name
  | .intRel w op => "I" ++ w.digits ++ op.name
  | .float w op => "F" ++ w.digits ++ op.name
  | .floatRel w op => "F" ++ w.digits ++ op.name

/-- Every operator with two operands. -/
def all : List BinOp :=
  [.w32, .w64].flatMap fun w =>
    IntArith.inOrder.map (.int w) ++ IntRel.inOrder.map (.intRel w) ++
      FloatArith.inOrder.map (.float w) ++ FloatRel.inOrder.map (.floatRel w)

/-- The operator with the given name. -/
def ofName? (name : String) : Option BinOp :=
  all.find? fun op => op.name == name

end BinOp

namespace UnOp

/-- The type of the result. -/
def resultTy : UnOp → Ty
  | .int w _ => w.intTy
  | .eqz _ => .i32
  | .float w _ => w.floatTy
  | .wrap => .i32
  | .extend _ => .i64
  | .extend8 w | .extend16 w => w.intTy
  | .extend32 => .i64
  | .trunc target _ _ | .truncSat target _ _ => target.intTy
  | .convert target _ _ => target.floatTy
  | .demote => .f32
  | .promote => .f64
  | .bitsOfFloat w => w.intTy
  | .floatOfBits w => w.floatTy

/-- The name the operator is reported with. -/
def name : UnOp → String
  | .int w op => "I" ++ w.digits ++ op.name
  | .eqz w => "I" ++ w.digits ++ "Eqz"
  | .float w op => "F" ++ w.digits ++ op.name
  | .wrap => "I32WrapI64"
  | .extend s => "I64ExtendI32" ++ s.letter
  | .extend8 w => "I" ++ w.digits ++ "Extend8S"
  | .extend16 w => "I" ++ w.digits ++ "Extend16S"
  | .extend32 => "I64Extend32S"
  | .trunc target source s => "I" ++ target.digits ++ "TruncF" ++ source.digits ++ s.letter
  | .truncSat target source s => "I" ++ target.digits ++ "TruncSatF" ++ source.digits ++ s.letter
  | .convert target source s => "F" ++ target.digits ++ "ConvertI" ++ source.digits ++ s.letter
  | .demote => "F32DemoteF64"
  | .promote => "F64PromoteF32"
  | .bitsOfFloat w => "I" ++ w.digits ++ "ReinterpretF" ++ w.digits
  | .floatOfBits w => "F" ++ w.digits ++ "ReinterpretI" ++ w.digits

/-- A conversion from either width, read signed and unsigned, in the order of the binary format. -/
def conversions (op : Width → Signedness → UnOp) : List UnOp :=
  [op .w32 .signed, op .w32 .unsigned, op .w64 .signed, op .w64 .unsigned]

/-- Every operator with one operand. -/
def all : List UnOp :=
  ([Width.w32, Width.w64].flatMap fun w =>
    IntUnary.inOrder.map (int w) ++ [eqz w] ++ FloatUnary.inOrder.map (float w) ++
      [extend8 w, extend16 w, bitsOfFloat w, floatOfBits w] ++
      conversions (trunc w) ++ conversions (truncSat w) ++ conversions (convert w)) ++
    [wrap, extend .signed, extend .unsigned, extend32, demote, promote]

/-- The operator with the given name. -/
def ofName? (name : String) : Option UnOp :=
  all.find? fun op => op.name == name

end UnOp

end WasmLift
