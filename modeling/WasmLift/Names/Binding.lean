import WasmLift.Error
import WasmLift.Names.Display

/-!
# Binding names to functions

Names are collected first, each getting an identity, and bound to function indices once all
functions are known. An import that still has a made-up name is then renamed after what it imports,
if that is a bare identifier and nobody else uses the new name. No two functions may share a name,
before or after that.
-/

namespace WasmLift

/-- The identity of a collected name. -/
structure NameId where
  slot : Nat
deriving DecidableEq, Repr

/-- A shown name and the function that bears it. -/
structure Identifier where
  name : String
  index : Nat
deriving DecidableEq, Repr

/-- The bearer of a name: its identity and, for an import, the name under which it is imported. -/
structure Bearer where
  name : NameId
  imported : Option String
deriving DecidableEq, Repr

/-- The internal names collected so far; the identity of each is its position. -/
structure NamePool where
  raws : List String := []
deriving DecidableEq, Repr

/-- The identifiers of a pool's names, in order. -/
abbrev NameTable := List Identifier

namespace NameTable

/-- The identifier of a name. -/
def get (table : NameTable) (id : NameId) : Identifier :=
  table.getD id.slot ⟨"", 0⟩

end NameTable

namespace NamePool

/-- Collects an internal name. The same name always has the same identity. -/
def intern (pool : NamePool) (raw : String) : NameId × NamePool :=
  match pool.raws.findIdx? (· == raw) with
  | some slot => (⟨slot⟩, pool)
  | none => (⟨pool.raws.length⟩, ⟨pool.raws ++ [raw]⟩)

/-- Collects names in order. -/
def internAll (pool : NamePool) : List String → List NameId × NamePool
  | [] => ([], pool)
  | raw :: rest =>
    let (id, pool) := pool.intern raw
    let (ids, pool) := pool.internAll rest
    (id :: ids, pool)

/-- The shown forms of the collected names. -/
def displayNames (pool : NamePool) : List String :=
  pool.raws.map Names.displayForm

/-- Extends a map from shown names to function indices by the bearers from `index` onwards. A name
that is already in the map is an error. -/
def claim (names : List String) : (index : Nat) → List Bearer → List (String × Nat) →
    Except Cause (List (String × Nat))
  | _, [], map => .ok map
  | index, bearer :: rest, map =>
    let name := names.getD bearer.name.slot ""
    match map.lookup name with
    | some first => .error (.duplicateName name first index)
    | none => claim names (index + 1) rest (map ++ [(name, index)])

/-- The name under which a function goes that is shown as `name`: an import with a made-up name
takes that of what it imports, if it is a bare identifier and not taken. -/
def rename? (bearers : List Bearer) (taken : List String) (name : String) (index : Nat) :
    Option String := do
  guard ("fimport$".toList.isPrefixOf name.toList)
  let bearer ← bearers[index]?
  let base ← bearer.imported
  let renamed := "fimport_" ++ base
  guard (Names.isBareIdentifier base && !taken.contains renamed)
  return renamed

/-- Binds names to function indices, renaming imports on the way. -/
def bind (bearers : List Bearer) (map : List (String × Nat)) :
    (names taken : List String) → Except Cause NameTable
  | [], _ => .ok []
  | name :: rest, taken =>
    match map.lookup name with
    | none => .error (.unresolvedName name)
    | some index =>
      match rename? bearers taken name index with
      | some renamed => do
        return ⟨renamed, index⟩ :: (← bind bearers map rest (renamed :: taken))
      | none => do return ⟨name, index⟩ :: (← bind bearers map rest taken)

/-- The identifiers of the collected names, given the functions that bear them. -/
def resolve (pool : NamePool) (bearers : List Bearer) : Except Cause NameTable := do
  let names := pool.displayNames
  let map ← claim names 0 bearers []
  let table ← bind bearers map names (map.map (·.1))
  let _ ← claim (table.map (·.name)) 0 bearers []
  return table

end NamePool

end WasmLift
