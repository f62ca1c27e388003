import WasmLift.Error
import WasmLift.Program.Compression

/-!
# The log

What a run reports besides its result, in the order in which it happens. A run that fails keeps
what it has reported before.
-/

namespace WasmLift

/-- The weight of a log entry. -/
inductive Severity where
  | debug | info | warn
deriving DecidableEq, Repr

/-- Something worth reporting. -/
inductive Event where
  /-- A name section could not be read to its end. -/
  | malformedNames
  | expanded (functions imported globals tables segments : Nat)
  /-- Several globals look like the stack pointer; the first one is taken. -/
  | severalStackPointers (count : Nat) (name : String) (index : Nat)
  | backend (name : String)
  | classified (function : Nat) (compression : Compression)
  | adjustmentKept (statement : Nat)
  /-- An access begins inside a stack slot and ends outside it. -/
  | straddles (bytes offset slot : Nat)
  /-- An access begins outside every stack slot and ends inside one. -/
  | runsInto (bytes offset slot : Nat)
  | frame (function : String) (size : Int) (slots locals : Nat)
  | emitted (functions total tables : Nat)
deriving DecidableEq, Repr

namespace Event

/-- The weight of an event. -/
def severity : Event → Severity
  | .malformedNames | .severalStackPointers .. | .straddles .. | .runsInto .. => .warn
  | .backend _ | .emitted .. => .info
  | .expanded .. | .classified .. | .adjustmentKept _ | .frame .. => .debug

/-- The wording of an event. -/
def message : Event → String
  | .malformedNames => "ignoring malformed name section"
  | .expanded functions imported globals tables segments =>
    s!"expanded {functions} functions ({imported} imported), {globals} globals, " ++
      s!"{tables} table segments, {segments} data segments"
  | .severalStackPointers count name index =>
    s!"{count} globals look like a stack pointer; using {name} ({index})"
  | .backend name => s!"Backend: {name}"
  | .classified function compression =>
    s!"function {function} classified as O[{compression.level}] ({compression.report})"
  | .adjustmentKept statement => s!"stack adjustment at statement {statement} left as is"
  | .straddles bytes offset slot =>
    s!"access of {bytes} bytes at frame offset {Text.hexNat offset} straddles local_" ++
      String.ofList (Text.hexDigits slot)
  | .runsInto bytes offset slot =>
    s!"access of {bytes} bytes at frame offset {Text.hexNat offset} runs into local_" ++
      String.ofList (Text.hexDigits slot)
  | .frame function size slots locals =>
    s!"{function}: frame of {size} bytes, {slots} slots, {locals} plain locals"
  | .emitted functions total tables =>
    s!"Emitted {functions} of {total} functions, {tables} tables"

end Event

/-- A computation that may fail and reports events on its way. -/
abbrev Logged := ExceptT Error (StateM (List Event))

namespace Logged

/-- Reports an event. -/
def emit (e : Event) : Logged Unit :=
  modify (· ++ [e])

/-- The result of a computation that reports nothing. -/
def ofExcept {α : Type} : Except Error α → Logged α
  | .ok a => pure a
  | .error e => throw e

/-- Records the step in which an error happens. -/
def within {α : Type} (step : Step) (x : Logged α) : Logged α :=
  tryCatch x fun e => throw (e.within step)

/-- The result and the events of a run, in order. -/
def start {α : Type} (x : Logged α) : Except Error α × List Event :=
  x.run.run []

end Logged

end WasmLift
