import WasmLift.Module.Basic
import WasmLift.Names.Display

/-!
# Internal names of functions

A function is called what the name section calls it; an import without a name gets a made-up one and
a defined function its index. Names are made distinct in their shown form, by appending the index
and, if need be, a counter.
-/

namespace WasmLift.Names

/-- The candidates for a function's name, in the order they are tried. -/
def candidate (name : String) (index : Nat) : Nat → String
  | 0 => name
  | 1 => s!"{name}.{index}"
  | n + 2 => s!"{name}.{index}.{n + 1}"

/-- The first candidate from the `n`-th on whose shown form has not been seen, among the next
`fuel`. -/
def firstUnseen (seen : List String) (name : String) (index : Nat) :
    (fuel n : Nat) → String
  | 0, n => candidate name index n
  | fuel + 1, n =>
    if seen.contains (displayForm (candidate name index n)) then
      firstUnseen seen name index fuel (n + 1)
    else candidate name index n

/-- The first candidate whose shown form has not been seen. The candidates have distinct shown
forms, so one of the first `seen.length + 1` of them is new. -/
def uniqueName (seen : List String) (name : String) (index : Nat) : String :=
  firstUnseen seen name index seen.length 0

/-- Makes names distinct in their shown forms, the first of them being that of function `index`. -/
def distinct : (index : Nat) → (names seen : List String) → List String
  | _, [], _ => []
  | index, name :: rest, seen =>
    let unique := uniqueName seen name index
    unique :: distinct (index + 1) rest (displayForm unique :: seen)

/-- What a function is called before names are made distinct. -/
def givenName (m : Module) (index : Nat) : String :=
  match m.functionNames.get? index with
  | some name => name
  | none => if index < m.importedFunctions.length then s!"fimport${index}" else toString index

/-- The internal names of all functions, in the order of the function index space. -/
def ofModule (m : Module) : List String :=
  distinct 0 ((List.range m.functionTypes.length).map (givenName m)) []

end WasmLift.Names
