import WasmLift.Wasm.Init

/-!
# Modules

A module as it is read: types, imports, code, globals, segments, exports and names. Imported
functions and globals come before the defined ones in their index spaces.
-/

namespace WasmLift

/-- What an import brings in. Tables, memories and tags are not kept. -/
inductive ImportKind where
  | function (type : Nat)
  | global (type : ValType) (isMutable : Bool)
deriving DecidableEq, Repr

/-- An import: where it comes from and what it is. -/
structure Import where
  moduleName : String
  name : String
  kind : ImportKind
deriving DecidableEq, Repr

/-- A defined function: the index of its type, its locals one by one, and the bytes of its
operators. -/
structure FunctionCode where
  type : Nat
  locals : List ValType
  body : List UInt8
deriving DecidableEq, Repr

/-- A defined global. -/
structure GlobalDefinition where
  type : ValType
  isMutable : Bool
  init : Init
deriving DecidableEq, Repr

/-- A segment that fills the function table from an offset onwards. -/
structure ElementSegment where
  offset : Init
  functions : List Nat
deriving DecidableEq, Repr

/-- A segment that fills the memory from an address onwards. -/
structure DataSegment where
  offset : Nat
  bytes : List UInt8
deriving DecidableEq, Repr

/-- What an export makes visible. -/
inductive ExportKind where
  | function | table | memory | global | tag
deriving DecidableEq, Repr

/-- An export. -/
structure Export where
  name : String
  kind : ExportKind
  index : Nat
deriving DecidableEq, Repr

/-- Names by index, in ascending order of the indices. -/
abbrev NameMap := List (Nat × String)

namespace NameMap

/-- Gives an index a name, in place of any it had. -/
def insert (index : Nat) (name : String) : NameMap → NameMap
  | [] => [(index, name)]
  | (i, n) :: rest =>
    if index < i then (index, name) :: (i, n) :: rest
    else if index = i then (index, name) :: rest
    else (i, n) :: insert index name rest

/-- The name of an index. -/
def get? (names : NameMap) (index : Nat) : Option String :=
  names.lookup index

end NameMap

/-- A module. -/
structure Module where
  /-- The function types among the declared types, in order. -/
  types : List FuncType := []
  imports : List Import := []
  functions : List FunctionCode := []
  globals : List GlobalDefinition := []
  elements : List ElementSegment := []
  segments : List DataSegment := []
  exports : List Export := []
  functionNames : NameMap := []
  globalNames : NameMap := []
deriving Repr

namespace Module

/-- The type indices of the imported functions. -/
def importedFunctions (m : Module) : List Nat :=
  m.imports.filterMap fun i =>
    match i.kind with
    | .function type => some type
    | .global _ _ => none

/-- The types of the imported globals, and whether each is mutable. -/
def importedGlobals (m : Module) : List (ValType × Bool) :=
  m.imports.filterMap fun i =>
    match i.kind with
    | .function _ => none
    | .global type isMutable => some (type, isMutable)

/-- The type indices of all functions, in the order of the function index space. -/
def functionTypes (m : Module) : List Nat :=
  m.importedFunctions ++ m.functions.map (·.type)

/-- The types of all globals, in the order of the global index space. -/
def globalTypes (m : Module) : List ValType :=
  m.importedGlobals.map (·.1) ++ m.globals.map (·.type)

/-- The signature of a function. -/
def funcType? (m : Module) (index : Nat) : Option FuncType := do
  let type ← m.functionTypes[index]?
  m.types[type]?

/-- The type of a global. -/
def globalType? (m : Module) (index : Nat) : Option ValType :=
  m.globalTypes[index]?

end Module

end WasmLift
