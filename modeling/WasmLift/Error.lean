import WasmLift.Text.Hex
import WasmLift.Wasm.Init
import WasmLift.Wasm.Operator

/-!
# Errors

Every error ends the run. An error is a cause and the steps it happened in, outermost first; its
message is the texts of both, in that order. A cause in the binary format itself has no text: the
step in which the bytes could not be read says all that is said.
-/

namespace WasmLift

/-- Why a body or a set of segments is malformed. -/
inductive Malformed where
  /-- An operator takes a value that its construct does not hold. -/
  | stackUnderflow (consumer : String)
  | branchDepth (depth frames : Nat)
  | strayElse
  | afterEnd
  | neverEnds
  | unknownCallee (function : Nat)
  | unknownIndirectType (type : Nat)
  | localIndex (index : Nat)
  /-- A data segment runs past the last address. -/
  | segmentEnd (offset : Nat)
  /-- The data segments lie too far apart. -/
  | segmentSpan (bytes : Nat)
deriving DecidableEq, Repr

/-- A construct that cannot be decompiled. -/
inductive Unsupported where
  | operator (op : Operator)
  | inConstant (op : Operator)
  | inElements (op : Operator)
  | elementTable (table : Nat)
  | dataMemory (memory : Nat)
  | dataOffset (init : Init)
  | multiValue
  | blockParameters
  | indirectTable (table : Nat)
deriving DecidableEq, Repr

/-- An index or name without the thing it should refer to. -/
inductive Dangling where
  /-- A function has code but no declaration. -/
  | codeEntry
  | functionType (function : Nat)
  | blockType (type : Nat)
  | elementFunction (function : Nat)
  | localIndex (index : Nat)
  | globalIndex (index : Nat)
  /-- The declaration of an import is asked of a function that is none. -/
  | notImported (name : String)
deriving DecidableEq, Repr

/-- What went wrong. -/
inductive Cause where
  /-- The bytes are not in the binary format. -/
  | undecodable
  | unsupportedBackend (name : String)
  | unresolvedName (name : String)
  /-- A name is claimed by two functions. -/
  | duplicateName (name : String) (first second : Nat)
  | tableOffset (segment : Nat)
  | unsupported (what : Unsupported)
  | unsupportedType (type : ValType)
  | malformed (what : Malformed)
  | dangling (what : Dangling)
deriving DecidableEq, Repr

/-- A part of the binary format that is read as one step. -/
inductive Part where
  | payload | recGroup | importEntry | functionType | globalEntry | exportEntry | elementSegment
  | dataSegment | localCount | localGroup | operator
deriving DecidableEq, Repr

/-- A step of the run. -/
inductive Step where
  | reading (part : Part)
  | expandingFunction (name : String)
  | resolvingNames
  | decompilingFunction (index : Nat) (name : String)
  | parsing
  | expanding
  | generating
deriving DecidableEq, Repr

/-- A cause and the steps it happened in, outermost first. -/
structure Error where
  steps : List Step
  cause : Cause
deriving DecidableEq, Repr

/-- The wording of a malformed body. -/
def Malformed.message : Malformed → String
  | .stackUnderflow consumer => s!"Stack underflow for {consumer}"
  | .branchDepth depth frames => s!"branch depth {depth} exceeds control stack depth {frames}"
  | .strayElse => "else without matching if"
  | .afterEnd => "operator after the end of the function"
  | .neverEnds => "function body never ends"
  | .unknownCallee function => s!"call to unknown function {function}"
  | .unknownIndirectType type => s!"call_indirect with unknown type {type}"
  | .localIndex index => s!"local index {index} out of range"
  | .segmentEnd offset => s!"data segment at {Text.hexNat offset} ends past the address space"
  | .segmentSpan bytes => s!"data segments span {Text.hexNat bytes} bytes"

/-- The wording of an unsupported construct. -/
def Unsupported.message : Unsupported → String
  | .operator op => op.report
  | .inConstant op => s!"{op.report} in constant expression"
  | .inElements op => s!"{op.report} in element segment"
  | .elementTable table => s!"element segment for table {table}"
  | .dataMemory memory => s!"data segment for memory {memory}"
  | .dataOffset init => s!"data segment offset {init.report}"
  | .multiValue => "multi-value result"
  | .blockParameters => "block with parameters"
  | .indirectTable table => s!"call_indirect through table {table}"

/-- The wording of a missing thing. -/
def Dangling.message : Dangling → String
  | .codeEntry => "code entry without a matching function declaration"
  | .functionType function => s!"function {function} has no type"
  | .blockType type => s!"unknown block type {type}"
  | .elementFunction function => s!"element segment names unknown function {function}"
  | .localIndex index => s!"local index {index} out of range"
  | .globalIndex index => s!"global index {index} out of range"
  | .notImported name => s!"{name} is not imported"

/-- The wording of a cause, if it has one. -/
def Cause.message? : Cause → Option String
  | .undecodable => none
  | .unsupportedBackend name =>
    some s!"Unsupported backend: {name} (expected llvm32 or llvm64)"
  | .unresolvedName name =>
    some s!"Unresolved identifier: {name} does not name any function"
  | .duplicateName name first second =>
    some (s!"Duplicate identifier: {name} ($func{first} and $func{second}) " ++
      "names more than one function")
  | .tableOffset segment => some s!"Non-constant offset in function table segment {segment}"
  | .unsupported what => some s!"Unsupported instruction: {what.message}"
  | .unsupportedType type => some s!"Unsupported value type: {type.reportName}"
  | .malformed what => some s!"Malformed function body: {what.message}"
  | .dangling what => some what.message

/-- The wording of a step in which bytes are read. -/
def Part.message : Part → String
  | .payload => "parsing wasm payload"
  | .recGroup => "reading rec group"
  | .importEntry => "reading import"
  | .functionType => "reading function type index"
  | .globalEntry => "reading global"
  | .exportEntry => "reading export"
  | .elementSegment => "reading element segment"
  | .dataSegment => "reading data segment"
  | .localCount => "getting locals reader"
  | .localGroup => "reading local"
  | .operator => "failed to read operator"

/-- The wording of a step. -/
def Step.message : Step → String
  | .reading part => part.message
  | .expandingFunction name => s!"failed to expand function {name}"
  | .resolvingNames => "failed to resolve function identifiers"
  | .decompilingFunction index name => s!"failed to decompile $func{index} ({name})"
  | .parsing => "failed to parse WebAssembly module"
  | .expanding => "failed to expand module"
  | .generating => "failed to generate pseudocode"

namespace Error

/-- An error with no step recorded yet. -/
def ofCause (cause : Cause) : Error :=
  ⟨[], cause⟩

/-- The error of a part that could not be read. -/
def unreadable (part : Part) : Error :=
  ⟨[.reading part], .undecodable⟩

/-- The error, seen from an enclosing step. -/
def within (step : Step) (e : Error) : Error :=
  { e with steps := step :: e.steps }

/-- The texts of the steps and of the cause, divided by colons. -/
def message (e : Error) : String :=
  String.intercalate ": " (e.steps.map Step.message ++ e.cause.message?.toList)

end Error

end WasmLift
