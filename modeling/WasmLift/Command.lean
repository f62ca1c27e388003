import WasmLift.Decompile

/-!
# The command line

The arguments `INPUT [-o OUTPUT | --output OUTPUT] [--gadgets]` ask for the listing of a file, to
another file or to the standard output. They are read from left to right; the run that they ask for
is described here and carried out elsewhere.
-/

namespace WasmLift

namespace Command

/-- The run that the arguments ask for. -/
structure Invocation where
  input : String
  output : Option String
  gadgets : Bool
deriving DecidableEq, Repr

/-- Why the arguments ask for no run. -/
inductive Refusal where
  /-- Help or the version was asked for. -/
  | information
  /-- The arguments are not understood. -/
  | usage
deriving DecidableEq, Repr

/-- The exit code of a run that ends with its arguments. -/
def Refusal.exitCode : Refusal → Nat
  | .information => 0
  | .usage => 2

/-- The arguments read so far. -/
structure Arguments where
  input : Option String := none
  output : Option String := none
  gadgets : Bool := false
deriving DecidableEq, Repr

namespace Arguments

/-- Takes the input file, of which there is one. -/
def setInput (a : Arguments) (path : String) : Except Refusal Arguments :=
  if a.input.isSome || path.isEmpty then .error .usage
  else .ok { a with input := some path }

/-- Takes the output file, of which there is at most one. -/
def setOutput (a : Arguments) (path : String) : Except Refusal Arguments :=
  if a.output.isSome || path.isEmpty then .error .usage
  else .ok { a with output := some path }

/-- Takes the mode flag, which is given at most once. -/
def setGadgets (a : Arguments) : Except Refusal Arguments :=
  if a.gadgets then .error .usage else .ok { a with gadgets := true }

/-- Takes arguments that are input files, whatever they look like. -/
def setInputs (a : Arguments) : List String → Except Refusal Arguments
  | [] => .ok a
  | path :: rest => do (← a.setInput path).setInputs rest

/-- The run, if an input file was given. -/
def complete (a : Arguments) : Except Refusal Invocation :=
  match a.input with
  | some input => .ok ⟨input, a.output, a.gadgets⟩
  | none => .error .usage

end Arguments

/-- An argument that begins with a dash and is more than it. -/
def looksLikeOption (arg : String) : Bool :=
  match arg.toList with
  | '-' :: _ :: _ => true
  | _ => false

/-- A value after an equals sign, which may be left out. -/
def attachedValue : List Char → String
  | '=' :: value => String.ofList value
  | value => String.ofList value

/-- Reads arguments from left to right. -/
def readArguments (a : Arguments) : List String → Except Refusal Arguments
  | [] => .ok a
  | arg :: rest =>
    match arg.toList with
    | ['-', '-'] => a.setInputs rest
    | '-' :: '-' :: option =>
      if option = "help".toList || option = "version".toList then .error .information
      else if option = "gadgets".toList then do readArguments (← a.setGadgets) rest
      else if option = "output".toList then
        match rest with
        | value :: rest =>
          if looksLikeOption value then .error .usage
          else do readArguments (← a.setOutput value) rest
        | [] => .error .usage
      else if "output=".toList.isPrefixOf option then do
        readArguments (← a.setOutput (String.ofList (option.drop 7))) rest
      else .error .usage
    | ['-', 'o'] =>
      match rest with
      | value :: rest =>
        if looksLikeOption value then .error .usage
        else do readArguments (← a.setOutput value) rest
      | [] => .error .usage
    | '-' :: 'o' :: value => do readArguments (← a.setOutput (attachedValue value)) rest
    | '-' :: 'h' :: _ | '-' :: 'V' :: _ => .error .information
    | '-' :: _ :: _ => .error .usage
    | _ => do readArguments (← a.setInput arg) rest

/-- The run that the arguments ask for. -/
def read (args : List String) : Except Refusal Invocation := do
  (← readArguments {} args).complete

/-- The first line of a run. -/
def announcement (run : Invocation) : String :=
  s!"diswasm: decompiling {run.input}"

/-- The line after a file was written. -/
def writtenLine (path : String) : String :=
  s!"diswasm: wrote {path}"

/-- The last line of a run that succeeds. -/
def completion : String :=
  "diswasm: decompilation complete"

/-- Why a run fails. -/
inductive Failure where
  | reading (path : String)
  | decompiling (error : Error)
  | writing (path : String)
deriving DecidableEq, Repr

/-- The last line of a run that fails. -/
def Failure.line : Failure → String
  | .reading path => s!"Error: failed to read {path}"
  | .decompiling _ => "Error: decompilation failed"
  | .writing path => s!"Error: failed to write {path}"

/-- The listing that a run asks for, given the content of its input file if that can be read. -/
def listing (run : Invocation) (content : Option (List UInt8)) : Except Failure String :=
  match content with
  | none => .error (.reading run.input)
  | some bytes =>
    match (decompile bytes run.gadgets).start.1 with
    | .ok text => .ok text
    | .error e => .error (.decompiling e)

/-- The files that a run meets: what can be read, and what can be written. -/
structure Files where
  content : String → Option (List UInt8)
  writable : String → Bool

/-- What a run leaves behind: its exit code, what it printed, unless it ended with its arguments,
the lines it reported, and the file it wrote. -/
structure Outcome where
  exitCode : Nat
  printed : Option String
  reported : List String
  written : Option (String × String)
deriving DecidableEq, Repr

/-- What a run that fails leaves behind. -/
def failed (run : Invocation) (failure : Failure) : Outcome :=
  ⟨1, some "", [announcement run, failure.line], none⟩

/-- What a run leaves behind. -/
def perform (files : Files) (run : Invocation) : Outcome :=
  match listing run (files.content run.input) with
  | .error failure => failed run failure
  | .ok text =>
    match run.output with
    | none => ⟨0, some text, [announcement run, completion], none⟩
    | some path =>
      if files.writable path then
        ⟨0, some "", [announcement run, writtenLine path, completion], some (path, text)⟩
      else failed run (.writing path)

/-- What the arguments lead to. -/
def outcome (files : Files) (args : List String) : Outcome :=
  match read args with
  | .error refusal => ⟨refusal.exitCode, none, [], none⟩
  | .ok run => perform files run

end Command

end WasmLift
