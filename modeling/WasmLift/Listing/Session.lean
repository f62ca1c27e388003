import WasmLift.Listing.Program

/-!
# Sessions

A program can be asked for its toolchain, for the level of a function and for its listing, as often
as one likes and in any order. The toolchain and the levels are worked out and reported when they
are needed for the first time, and remembered for the rest of the session.
-/

namespace WasmLift

/-- What has been worked out about a program. -/
structure Statistics where
  backend : Option Backend := none
  /-- The levels of functions by index, the latest first. -/
  compressions : List (Nat × Compression) := []
deriving Repr

/-- What a session remembers and what it has reported. -/
structure Session where
  statistics : Statistics := {}
  events : List Event := []
deriving Repr

/-- A computation in a session. One that fails leaves behind what it has remembered and reported. -/
abbrev Inquiry := ExceptT Error (StateM Session)

namespace Inquiry

variable {α : Type}

/-- A computation that asks for no statistics. -/
def logged (x : Logged α) : Inquiry α := do
  let s ← get
  let (result, events) := x.run.run s.events
  set { s with events := events }
  match result with
  | .ok a => return a
  | .error e => throw e

/-- Records the step in which an error happens. -/
def within (step : Step) (x : Inquiry α) : Inquiry α :=
  tryCatch x fun e => throw (e.within step)

/-- Changes what is remembered. -/
def remember (f : Statistics → Statistics) : Inquiry Unit :=
  modify fun s => { s with statistics := f s.statistics }

/-- The toolchain behind a program. -/
def backend (p : Program) : Inquiry Backend := do
  match (← get).statistics.backend with
  | some backend => return backend
  | none =>
    logged (Listing.reportBackend p)
    let backend := Backend.detect p.globals
    remember ({ · with backend := some backend })
    return backend

/-- The level of the function at an index. -/
def compression (p : Program) (index : Nat) : Inquiry Compression := do
  match (← get).statistics.compressions.lookup index with
  | some compression => return compression
  | none =>
    let stackPointer := (← backend p).stackPointer?
    let compression := match p.functions[index]? with
      | some f => Compression.classify stackPointer f
      | none => .maximum
    logged (Logged.emit (.classified index compression))
    remember fun known => { known with compressions := (index, compression) :: known.compressions }
    return compression

/-- A function in the given style. -/
def inStyle (p : Program) (memory : MemoryImage) (f : Function) : Listing.Style → Inquiry String
  | .framed frameSize => do
    let stackPointer := (← backend p).stackPointer?
    logged (Listing.framedIn ⟨p, memory, f, stackPointer⟩ frameSize)
  | style => logged (Listing.inStyle p memory f style)

/-- A function in the style that suits the level of the function at its index. -/
def function (p : Program) (memory : MemoryImage) (f : Function) : Inquiry String := do
  let compression ← compression p (p.functionIndex f)
  logged (Listing.reportKept compression)
  inStyle p memory f (.ofCompression compression)

/-- The fragment of the listing that a function is. -/
def fragment (p : Program) (memory : MemoryImage) (f : Function) : Inquiry String := do
  let text ← within (.decompilingFunction (p.functionIndex f) (p.functionName f))
    (function p memory f)
  return "\n" ++ text

/-- The listing of a program. -/
def program (p : Program) (gadgets : Bool) : Inquiry String := do
  let backend ← backend p
  if !backend.isSupported then throw (.ofCause (.unsupportedBackend backend.name))
  logged (Logged.emit (.backend backend.name))
  let memory ←
    logged (Logged.ofExcept ((MemoryImage.ofSegments p.segments).mapError Error.ofCause))
  let listed := Listing.listedFunctions p gadgets
  let fragments ← listed.mapM (fragment p memory)
  let rest ← logged (Logged.ofExcept ((Listing.tail p memory).mapError Error.ofCause))
  logged (Logged.emit (.emitted listed.length p.functions.length p.tables.length))
  return String.join fragments ++ rest

end Inquiry

/-- What a program can be asked. -/
inductive Request where
  | backend
  | compression (index : Nat)
  | listing (gadgets : Bool)
deriving DecidableEq, Repr

/-- What a program answers. -/
inductive Answer where
  | backend (backend : Backend)
  | compression (compression : Compression)
  | listing (text : String)
deriving DecidableEq, Repr

namespace Session

/-- The answer to a request. -/
def answer (p : Program) : Request → Inquiry Answer
  | .backend => return .backend (← Inquiry.backend p)
  | .compression index => return .compression (← Inquiry.compression p index)
  | .listing gadgets => return .listing (← Inquiry.program p gadgets)

/-- The answers to requests, one after the other. A failure is the answer to its own request
only. -/
def answers (p : Program) (requests : List Request) : StateM Session (List (Except Error Answer)) :=
  requests.mapM fun request => (answer p request).run

/-- The answer to a request in a session of its own. -/
def answerAlone (p : Program) (request : Request) : Except Error Answer :=
  ((answer p request).run.run {}).1

end Session

end WasmLift
