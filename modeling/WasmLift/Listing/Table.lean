import WasmLift.Error
import WasmLift.Program.Basic
import WasmLift.Text.Layout

/-!
# Function tables in the listing

Each segment of the function table is an array, filled up with `NULL` to the segment's offset.
-/

namespace WasmLift

namespace Listing

/-- The position of a segment's first entry, which has to be a constant that is not negative. -/
def tableOffset? (segment : TableSegment) : Option Nat :=
  match segment.offset with
  | .const value => value.asInteger?.bind Int.toNat?
  | _ => none

/-- The line of a function: its name, its index and its signature. -/
def tableLine (identifier : Identifier) (f : Function) : String :=
  let params := Text.commaList (f.params.map Ty.name)
  s!"{identifier.name}, // $func{identifier.index} {f.result.name} ({params})"

/-- The entry that a name stands for. -/
def tableEntry (p : Program) (id : NameId) : Except Cause String :=
  let identifier := p.names.get id
  match p.functions[identifier.index]? with
  | none => .error (.unresolvedName identifier.name)
  | some f => .ok (tableLine identifier f)

/-- The entries of a segment, those before its offset included. -/
def tableEntries (p : Program) (number : Nat) (segment : TableSegment) :
    Except Cause (List String) :=
  match tableOffset? segment with
  | none => .error (.tableOffset number)
  | some offset => do
    let entries ← segment.entries.mapM (tableEntry p)
    return List.replicate offset "NULL," ++ entries

/-- The heading of a segment; the first one has no number. -/
def tableTitle (number : Nat) : String :=
  if number = 0 then "// Function table" else s!"// Function table (segment {number})"

/-- A segment with the given number and lines. -/
def tableBlock (number : Nat) (lines : List String) : String :=
  s!"\n{tableTitle number}\n(*__function_table[{lines.length}])() = \x7b\n" ++
    String.join (lines.map fun line => "  " ++ line ++ "\n") ++ "\x7d;"

/-- A segment of the function table. -/
def tableText (p : Program) (number : Nat) (segment : TableSegment) : Except Cause String := do
  let lines ← tableEntries p number segment
  return tableBlock number lines

/-- The segments from the given number on. -/
def tableTexts (p : Program) : (number : Nat) → List TableSegment → Except Cause (List String)
  | _, [] => .ok []
  | number, segment :: rest => do
    let text ← tableText p number segment
    return text :: (← tableTexts p (number + 1) rest)

end Listing

end WasmLift
