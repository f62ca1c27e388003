import WasmLift.Expr.Basic
import WasmLift.Module.Basic

/-!
# Programs

A module after reconstruction: every function has a name and, unless it is imported, a body in the
form of a tree.
-/

namespace WasmLift

/-- What a function is. -/
inductive FunctionKind where
  | imported (moduleName base : String)
  /-- A defined function: its locals, parameters not among them, and its body. -/
  | defined (locals : List Ty) (body : Expr)
deriving Repr

/-- A function. -/
structure Function where
  name : NameId
  params : List Ty
  result : Ty
  kind : FunctionKind
  /-- The first name under which the function is exported. -/
  exportName : Option String
deriving Repr

/-- A global. An imported one has no initial value. -/
structure Global where
  name : String
  ty : Ty
  isMutable : Bool
  init : Option Expr
deriving Repr

/-- A segment of the function table. -/
structure TableSegment where
  offset : Expr
  entries : List NameId
deriving Repr

/-- A program. -/
structure Program where
  functions : List Function
  globals : List Global
  tables : List TableSegment
  segments : List DataSegment
  names : NameTable
deriving Repr

namespace Function

/-- The function is imported. -/
def isImported (f : Function) : Bool :=
  match f.kind with
  | .imported _ _ => true
  | .defined _ _ => false

/-- The body of a defined function. -/
def body? (f : Function) : Option Expr :=
  match f.kind with
  | .imported _ _ => none
  | .defined _ body => some body

/-- The locals of a defined function. -/
def locals (f : Function) : List Ty :=
  match f.kind with
  | .imported _ _ => []
  | .defined locals _ => locals

/-- The type of a parameter or local. -/
def localTy? (f : Function) (index : Nat) : Option Ty :=
  (f.params ++ f.locals)[index]?

/-- The function as the bearer of its name. -/
def bearer (f : Function) : Bearer :=
  match f.kind with
  | .imported _ base => ⟨f.name, some base⟩
  | .defined _ _ => ⟨f.name, none⟩

end Function

namespace Program

/-- The name under which a function is shown. -/
def functionName (p : Program) (f : Function) : String :=
  (p.names.get f.name).name

/-- The index of a function. -/
def functionIndex (p : Program) (f : Function) : Nat :=
  (p.names.get f.name).index

/-- Some segment of the function table holds the function with this index. -/
def isInTable (p : Program) (index : Nat) : Bool :=
  p.tables.any fun t => t.entries.any fun id => (p.names.get id).index == index

end Program

end WasmLift
