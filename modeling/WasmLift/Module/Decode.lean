import WasmLift.Binary.Operators
import WasmLift.Log
import WasmLift.Module.Basic

/-!
# Reading a module

A module is a header and a run of sections, each with a code and a size. Sections may come in any
order and repeat; every occurrence adds to the module. Nothing is validated: bytes are only read, in
order, and the first thing that cannot be read ends the run. The one exception is the name section:
where it breaks off, the names read so far are kept and the rest is ignored.
-/

namespace WasmLift

open Binary
open Binary.Reader

/-- The initial value that a constant expression stands for, which is that of its first operator. -/
def Init.ofConstExpr : List Operator → Except Cause Init
  | [] => .error .undecodable
  | .const v :: _ => .ok (.value v)
  | .globalGet index :: _ => .ok (.globalGet index)
  | op :: _ => .error (.unsupported (.inConstant op))

namespace Binary

/-- What an element segment holds: function indices, or constant expressions. -/
inductive ElementItems where
  | functions (indices : List Nat)
  | expressions (items : List (List Operator))

/-- An element segment as it is read. Only an active one has a table and an offset. -/
structure ElementEntry where
  placement : Option (Nat × List Operator)
  items : ElementItems

/-- A data segment as it is read. Only an active one has a memory and an offset. -/
structure DataEntry where
  placement : Option (Nat × List Operator)
  bytes : List UInt8

namespace Reader

/-- A kind of import or export. -/
def exportKind : Reader ExportKind := do
  match ← byte with
  | 0 => return .function
  | 1 => return .table
  | 2 => return .memory
  | 3 => return .global
  | 4 => return .tag
  | _ => failure

/-- An import; tables, memories and tags are read and dropped. -/
def importEntry : Reader (Option Import) := do
  let moduleName ← text
  let name ← text
  match ← exportKind with
  | .function => return some ⟨moduleName, name, .function (← u32)⟩
  | .table => tableType; return none
  | .memory => memoryType; return none
  | .global =>
    let (type, isMutable) ← globalType
    return some ⟨moduleName, name, .global type isMutable⟩
  | .tag => tagType; return none

/-- A defined global: its type, its mutability and its constant expression. -/
def globalEntry : Reader ((ValType × Bool) × List Operator) := do
  let type ← globalType
  return (type, ← constExpr)

/-- An export. -/
def exportEntry : Reader Export := do
  let name ← text
  let kind ← exportKind
  return ⟨name, kind, ← u32⟩

/-- An element segment. Bit 0 of the flags makes it passive, bit 1 then declared and else gives the
table, and bit 2 makes its items expressions. -/
def elementEntry : Reader ElementEntry := do
  let flags ← u32
  require (flags < 8)
  let placement ←
    if flags.testBit 0 then pure none
    else do
      let table ← if flags.testBit 1 then u32 else pure 0
      pure (some (table, ← constExpr))
  let expressions := flags.testBit 2
  if flags % 4 ≠ 0 then
    if expressions then
      let _ ← refType
    else
      match ← exportKind with
      | .function => pure ()
      | _ => failure
  let count ← u32
  if expressions then
    return ⟨placement, .expressions (← repeated constExpr count)⟩
  return ⟨placement, .functions (← repeated u32 count)⟩

/-- A data segment. -/
def dataEntry : Reader DataEntry := do
  let placement ← match ← u32 with
    | 0 => pure (some (0, ← constExpr))
    | 1 => pure none
    | 2 =>
      let memory ← u32
      pure (some (memory, ← constExpr))
    | _ => failure
  return ⟨placement, ← sized⟩

/-- An entry of a name map. -/
def naming : Reader (Nat × String) := do
  let index ← u32
  return (index, ← longText)

/-- A group of locals of one type. -/
def localGroup : Reader (Nat × ValType) := do
  let count ← u32
  return (count, ← valType)

end Reader

end Binary

namespace Module

/-! ## The name section -/

/-- Reads `count` names into a map. Fails at the first that cannot be read, or if bytes are left;
the names read before are kept either way. -/
def readNamings : (count : Nat) → List UInt8 → NameMap → NameMap × Bool
  | 0, rest, names => (names, rest.isEmpty)
  | count + 1, input, names =>
    match naming input with
    | none => (names, false)
    | some ((index, name), rest) => readNamings count rest (names.insert index name)

/-- Reads a subsection that holds a name map. -/
def readNameMap (content : List UInt8) (names : NameMap) : NameMap × Bool :=
  match u32 content with
  | none => (names, false)
  | some (count, rest) => readNamings count rest names

/-- Reads one subsection. The module's own name has to be a single text; of the maps that are not
kept only the count is read; unknown subsections are skipped. -/
def readSubsection (id : Nat) (content : List UInt8) (m : Module) : Module × Bool :=
  if id = 0 then (m, (whole longText content).isSome)
  else if id = 1 then
    let (names, complete) := readNameMap content m.functionNames
    ({ m with functionNames := names }, complete)
  else if id = 7 then
    let (names, complete) := readNameMap content m.globalNames
    ({ m with globalNames := names }, complete)
  else if id ≤ 11 then (m, (u32 content).isSome)
  else (m, true)

/-- The code and the content of a subsection. -/
def subsection : Reader (Nat × List UInt8) := do
  let id ← byte
  require (id < 128)
  return (id, ← sized)

/-- Reads at most `fuel` subsections; says whether all of them could be read. -/
def readSubsections : (fuel : Nat) → List UInt8 → Module → Module × Bool
  | _, [], m => (m, true)
  | 0, _ :: _, m => (m, false)
  | fuel + 1, input, m =>
    match subsection input with
    | none => (m, false)
    | some ((id, content), rest) =>
      match readSubsection id content m with
      | (m, true) => readSubsections fuel rest m
      | (m, false) => (m, false)

/-- Reads a name section; says whether all of it could be read. -/
def readNames (content : List UInt8) (m : Module) : Module × Bool :=
  readSubsections content.length content m

/-! ## Sections -/

/-- A module in the course of being read: the types that the function section has declared wait for
their code. -/
structure Draft where
  result : Module := {}
  declared : List Nat := []

/-- Hands `count` items to `step` one by one; nothing may be left after the last. -/
def readItems {σ α : Type} (part : Part) (item : Reader α) (step : σ → α → Except Cause σ) :
    (count : Nat) → List UInt8 → σ → Except Error σ
  | 0, rest, d => if rest.isEmpty then .ok d else .error (.unreadable part)
  | count + 1, input, d =>
    match item input with
    | none => .error (.unreadable part)
    | some (a, rest) =>
      match step d a with
      | .error cause => .error (.ofCause cause)
      | .ok d => readItems part item step count rest d

/-- Reads a section that is a count and that many items. -/
def readSection {σ α : Type} (part : Part) (item : Reader α) (step : σ → α → Except Cause σ)
    (content : List UInt8) (d : σ) : Except Error σ :=
  match u32 content with
  | none => .error (.unreadable .payload)
  | some (count, rest) => readItems part item step count rest d

/-- Adds the function types of an item of the type section. -/
def addTypes (d : Draft) (types : List FuncType) : Except Cause Draft :=
  .ok { d with result.types := d.result.types ++ types }

/-- Adds an import that is kept. -/
def addImport (d : Draft) (entry : Option Import) : Except Cause Draft :=
  .ok { d with result.imports := d.result.imports ++ entry.toList }

/-- Adds the declaration of a function. -/
def addDeclaration (d : Draft) (type : Nat) : Except Cause Draft :=
  .ok { d with declared := d.declared ++ [type] }

/-- Adds a global. -/
def addGlobal (d : Draft) (entry : (ValType × Bool) × List Operator) : Except Cause Draft := do
  let init ← Init.ofConstExpr entry.2
  return { d with result.globals := d.result.globals ++ [⟨entry.1.1, entry.1.2, init⟩] }

/-- Adds an export. -/
def addExport (d : Draft) (entry : Export) : Except Cause Draft :=
  .ok { d with result.exports := d.result.exports ++ [entry] }

/-- The function an element expression stands for, which is that of its first operator. -/
def elementFunction : List Operator → Except Cause Nat
  | [] => .error .undecodable
  | .refFunc function :: _ => .ok function
  | op :: _ => .error (.unsupported (.inElements op))

/-- The functions of an element segment. -/
def elementFunctions : ElementItems → Except Cause (List Nat)
  | .functions indices => .ok indices
  | .expressions items => items.mapM elementFunction

/-- Adds an element segment. Only an active one of the first table is kept or can be. -/
def addElements (d : Draft) (entry : ElementEntry) : Except Cause Draft :=
  match entry.placement with
  | none => .ok d
  | some (table, offset) => do
    if table ≠ 0 then throw (.unsupported (.elementTable table))
    let offset ← Init.ofConstExpr offset
    let functions ← elementFunctions entry.items
    return { d with result.elements := d.result.elements ++ [⟨offset, functions⟩] }

/-- The address an initial value stands for, read without a sign. -/
def dataAddress : Init → Except Cause Nat
  | .value (.i32 word) => .ok word.toNat
  | .value (.i64 word) => .ok word.toNat
  | init => .error (.unsupported (.dataOffset init))

/-- Adds a data segment. Only an active one of the first memory is kept or can be. -/
def addData (d : Draft) (entry : DataEntry) : Except Cause Draft :=
  match entry.placement with
  | none => .ok d
  | some (memory, offset) => do
    if memory ≠ 0 then throw (.unsupported (.dataMemory memory))
    let address ← dataAddress (← Init.ofConstExpr offset)
    return { d with result.segments := d.result.segments ++ [⟨address, entry.bytes⟩] }

/-- Reads `count` groups of locals onto the locals read before; what follows them is the body. -/
def readLocals : (count : Nat) → List UInt8 → List ValType →
    Except Error (List ValType × List UInt8)
  | 0, rest, locals => .ok (locals, rest)
  | count + 1, input, locals =>
    match localGroup input with
    | none => .error (.unreadable .localGroup)
    | some ((n, type), rest) => readLocals count rest (locals ++ List.replicate n type)

/-- Adds the code of the next declared function. -/
def addCode (d : Draft) (content : List UInt8) : Except Error Draft := do
  let some type := d.declared[d.result.functions.length]?
    | throw (.ofCause (.dangling .codeEntry))
  let some (count, rest) := u32 content | throw (.unreadable .localCount)
  let (locals, body) ← readLocals count rest []
  return { d with result.functions := d.result.functions ++ [⟨type, locals, body⟩] }

/-- Reads `count` code entries; nothing may be left after the last. -/
def readCodeEntries : (count : Nat) → List UInt8 → Draft → Except Error Draft
  | 0, rest, d => if rest.isEmpty then .ok d else .error (.unreadable .payload)
  | count + 1, input, d =>
    match sized input with
    | none => .error (.unreadable .payload)
    | some (content, rest) => do readCodeEntries count rest (← addCode d content)

/-- Reads the code section, of the given size, at the front of the input. Its entries are taken one
by one, so the errors of an entry come before a section that is cut short. -/
def readCode (size : Nat) (input : List UInt8) (d : Draft) : Except Error Draft := do
  let content := input.take size
  let some (count, rest) := u32 content | throw (.unreadable .payload)
  let d ← readCodeEntries count rest d
  if content.length < size then throw (.unreadable .payload)
  return d

/-- Reads a custom section; only the one called `name` is looked into. -/
def readCustom (content : List UInt8) (d : Draft) : Logged Draft :=
  match text content with
  | none => throw (.unreadable .payload)
  | some (name, rest) =>
    if name = "name" then do
      let (result, complete) := readNames rest d.result
      unless complete do Logged.emit .malformedNames
      return { d with result := result }
    else return d

/-- Reads a section that has nothing to keep. -/
def skipSection {α : Type} (r : List UInt8 → Option α) (content : List UInt8) (d : Draft) :
    Except Error Draft :=
  if (r content).isSome then .ok d else .error (.unreadable .payload)

/-- Reads the content of a section other than the code section. Of tables, memories and tags only
the count is read; the start and data-count sections are one number; unknown sections are
skipped. -/
def readSectionContent (id : Nat) (content : List UInt8) (d : Draft) : Logged Draft :=
  match id with
  | 0 => readCustom content d
  | 1 => Logged.ofExcept (readSection .recGroup recGroup addTypes content d)
  | 2 => Logged.ofExcept (readSection .importEntry importEntry addImport content d)
  | 3 => Logged.ofExcept (readSection .functionType u32 addDeclaration content d)
  | 4 | 5 | 13 => Logged.ofExcept (skipSection u32 content d)
  | 6 => Logged.ofExcept (readSection .globalEntry globalEntry addGlobal content d)
  | 7 => Logged.ofExcept (readSection .exportEntry exportEntry addExport content d)
  | 8 | 12 => Logged.ofExcept (skipSection (whole u32) content d)
  | 9 => Logged.ofExcept (readSection .elementSegment elementEntry addElements content d)
  | 11 => Logged.ofExcept (readSection .dataSegment dataEntry addData content d)
  | _ => return d

/-- The code and the size of a section. -/
def sectionHeader : Reader (Nat × Nat) := do
  let id ← byte
  require (id < 128)
  return (id, ← u32)

/-- Reads at most `fuel` sections. -/
def readSections : (fuel : Nat) → List UInt8 → Draft → Logged Draft
  | _, [], d => return d
  | 0, _ :: _, _ => throw (.unreadable .payload)
  | fuel + 1, input, d =>
    match sectionHeader input with
    | none => throw (.unreadable .payload)
    | some ((id, size), rest) => do
      if id = 10 then
        let d ← Logged.ofExcept (readCode size rest d)
        readSections fuel (rest.drop size) d
      else
        match bytes size rest with
        | none => throw (.unreadable .payload)
        | some (content, rest) => do
          let d ← readSectionContent id content d
          readSections fuel rest d

/-- The header: the magic number and a version, the high half of which says that the bytes are a
module. -/
def header : Reader Unit := do
  let magic ← bytes 4
  require (magic = [0x00, 0x61, 0x73, 0x6d])
  let version ← littleEndian 4
  require (version < 0x10000)

/-- The module that the bytes stand for. A section takes at least one byte, so the length of the
bytes bounds their number. -/
def decode (input : List UInt8) : Logged Module :=
  match header input with
  | none => throw (.unreadable .payload)
  | some (_, rest) => do
    let d ← readSections rest.length rest {}
    return d.result

end Module

end WasmLift
