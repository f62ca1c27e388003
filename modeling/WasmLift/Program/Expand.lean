import WasmLift.Binary.Operators
import WasmLift.Expr.Builder
import WasmLift.Log
import WasmLift.Names.Function
import WasmLift.Program.Basic

/-!
# From modules to programs

Names are collected, the types of functions and globals are looked up, bodies are rebuilt as trees
one by one, and at last the names are bound to the functions.
-/

namespace WasmLift

namespace Program

/-- The tree of an initial value. -/
def initExpr (globalTypes : List Ty) : Init → Expr
  | .value v => .const v
  | .globalGet index => .globalGet index (globalTypes.getD index .i32)

/-- The types of all functions. -/
def funcTypes (m : Module) : Except Error (List FuncType) :=
  (List.range m.functionTypes.length).mapM fun index =>
    match m.funcType? index with
    | some type => .ok type
    | none => .error (.ofCause (.dangling (.functionType index)))

/-- Turns a cause into an error without steps. -/
def orFail {α : Type} (x : Except Cause α) : Except Error α :=
  x.mapError Error.ofCause

/-- The name of the first function export of an index. -/
def exportName? (m : Module) (index : Nat) : Option String :=
  (m.exports.find? fun e => e.kind == .function && e.index == index).map (·.name)

/-- The imported functions, from the given index on, with their types and names. -/
def importFunctions (m : Module) : (index : Nat) → List (Import × FuncType × NameId) →
    Except Error (List Function)
  | _, [] => .ok []
  | index, (entry, type, name) :: rest => do
    let signature ← orFail (Signature.ofFuncType type)
    let function : Function :=
      ⟨name, signature.params, signature.result, .imported entry.moduleName entry.name,
        exportName? m index⟩
    return function :: (← importFunctions m (index + 1) rest)

/-- The locals and the body of a defined function. All its operators are read before any is
rebuilt. -/
def expandBody (scope : Scope) (code : FunctionCode) (signature : Signature) :
    Except Error (List Ty × Expr) := do
  let locals ← orFail (code.locals.mapM Ty.ofValType)
  match Binary.bodyOperators? code.body with
  | none => throw (.unreadable .operator)
  | some ops => orFail (Expr.ofOperators scope signature.params locals signature.result ops)

/-- The defined functions, from the given index on, with their types and names. -/
def defineFunctions (m : Module) (scope : Scope) : (index : Nat) →
    List (FunctionCode × FuncType × NameId × String) → Except Error (List Function)
  | _, [] => .ok []
  | index, (code, type, name, raw) :: rest => do
    let signature ← orFail (Signature.ofFuncType type)
    let (locals, body) ←
      (expandBody scope code signature).mapError (Error.within (.expandingFunction raw))
    let function : Function :=
      ⟨name, signature.params, signature.result, .defined locals body, exportName? m index⟩
    return function :: (← defineFunctions m scope (index + 1) rest)

/-- The segments of the function table. Their entries are collected by name. -/
def tableSegments (raws : List String) (globalTypes : List Ty) : List ElementSegment → NamePool →
    Except Error (List TableSegment × NamePool)
  | [], pool => .ok ([], pool)
  | segment :: rest, pool => do
    let names ← segment.functions.mapM fun index =>
      match raws[index]? with
      | some raw => .ok raw
      | none => .error (Error.ofCause (.dangling (.elementFunction index)))
    let (entries, pool) := pool.internAll names
    let (tables, pool) ← tableSegments raws globalTypes rest pool
    return (⟨initExpr globalTypes segment.offset, entries⟩ :: tables, pool)

/-- The name of a global: what the name section calls it, or a made-up one. -/
def globalName (m : Module) (index : Nat) (fallback : String) : String :=
  (m.globalNames.get? index).getD fallback

/-- The globals, the imported ones first. -/
def globalsOf (m : Module) (globalTypes : List Ty) : List Global :=
  let imported := m.importedGlobals.zipIdx.map fun ((_, isMutable), index) =>
    { name := globalName m index s!"gimport${index}", ty := globalTypes.getD index .void,
      isMutable := isMutable, init := none }
  let defined := m.globals.zipIdx.map fun (g, i) =>
    let index := m.importedGlobals.length + i
    { name := globalName m index s!"global${index}", ty := globalTypes.getD index .void,
      isMutable := g.isMutable, init := some (initExpr globalTypes g.init) }
  imported ++ defined

/-- The imports that bring in functions. -/
def functionImports (m : Module) : List Import :=
  m.imports.filter fun i =>
    match i.kind with
    | .function _ => true
    | .global _ _ => false

/-- The program of a module, without a word to the log. -/
def ofModule? (m : Module) : Except Error Program := do
  let raws := Names.ofModule m
  let (ids, pool) := NamePool.internAll {} raws
  let types ← funcTypes m
  let globalTypes ← orFail (m.globalTypes.mapM Ty.ofValType)
  let scope : Scope := ⟨m.types, types, ids, globalTypes⟩
  let importCount := m.importedFunctions.length
  let imported ← importFunctions m 0 ((functionImports m).zip (types.zip ids))
  let defined ← defineFunctions m scope importCount
    (m.functions.zip ((types.drop importCount).zip
      ((ids.drop importCount).zip (raws.drop importCount))))
  let (tables, pool) ← tableSegments raws globalTypes m.elements pool
  let functions := imported ++ defined
  let names ← (orFail (pool.resolve (functions.map Function.bearer))).mapError
    (Error.within .resolvingNames)
  return ⟨functions, globalsOf m globalTypes, tables, m.segments, names⟩

/-- The program of a module. -/
def ofModule (m : Module) : Logged Program := do
  let p ← Logged.ofExcept (ofModule? m)
  Logged.emit (.expanded p.functions.length m.importedFunctions.length p.globals.length
    p.tables.length p.segments.length)
  return p

end Program

end WasmLift
