import WasmLift.Code.Direct
import WasmLift.Code.Framed
import WasmLift.Code.Render
import WasmLift.Program.Classify

/-!
# Functions in the listing

An imported function is a declaration. A defined one is a header comment, a line for its export if
it has one, its signature, and a brace scope with declarations and statements.
-/

namespace WasmLift

namespace Listing

/-- A parameter in a signature. -/
def paramText (ty : Ty) (index : Nat) : String :=
  Spelling.typeName ty none ++ " " ++ Spelling.paramName index

/-- The line that tells under which name a function is exported. -/
def exportText (index : Nat) : Option String → String
  | none => ""
  | some name =>
    let key := Text.quote name
    s!"export {key}; // $func{index} is exported to {key}\n"

/-- The header of a defined function, up to its opening brace. -/
def header (p : Program) (f : Function) (level : Int) (kind : String) : String :=
  let index := p.functionIndex f
  let name := p.functionName f
  let params := f.params.zipIdx.map fun (ty, i) => paramText ty i
  s!"// O[{level}] {kind} of $func{index}, known as {name}\n" ++ exportText index f.exportName ++
    s!"{Spelling.typeName f.result none} {name}({Text.commaList params}) "

/-- Texts further in, each ended by a line feed. -/
def indentedLines : List String → String
  | [] => ""
  | s :: rest => Text.indent s ++ "\n" ++ indentedLines rest

/-- A function: its header, its declarations, a blank line if there are any, and its statements. -/
def functionText (head : String) (declarations statements : List String) : String :=
  head ++ "\x7b\n" ++ indentedLines declarations ++
    (if declarations.isEmpty then "" else "\n") ++ indentedLines statements ++ "\x7d\n"

/-- The declaration of a local. -/
def localDeclaration (ty : Ty) (index : Nat) : String :=
  s!"// local index={index}\n{Spelling.typeName ty none} {Spelling.localName index};"

/-- The declaration of a stack slot. -/
def slotDeclaration (s : Slot) : String :=
  s!"// offset={Text.hexNat s.offset}\n" ++
    s!"{Spelling.typeName s.ty (some s.size)} {Spelling.slotName s.offset};"

/-- A function in the plain dialect. -/
def direct (p : Program) (f : Function) (level : Int) : Except Cause String := do
  let statements ← Direct.statements p f
  let declarations := f.locals.zipIdx.map fun (ty, i) => localDeclaration ty (f.params.length + i)
  return functionText (header p f level "Disassembly") declarations
    (Code.statementTexts {} statements)

/-- The surroundings of a function in a program. -/
def surroundings (p : Program) (memory : MemoryImage) (f : Function) : Framed.Surroundings :=
  ⟨p, memory, f, p.stackPointer?⟩

/-- The declarations of an unoptimized function: its slots, then the locals that are printed. -/
def frameDeclarations (f : Function) (st : FrameState) : List String :=
  st.layout.slots.map slotDeclaration ++
    st.plain.map fun index => localDeclaration ((f.localTy? index).getD .i32) index

/-- A function in the dialect of unoptimized ones, given its surroundings. -/
def framedIn (s : Framed.Surroundings) (frameSize : Int) : Logged String := do
  let (result, st) := Framed.statements s
  for event in st.events do
    Logged.emit event
  match result with
  | .error cause => throw (.ofCause cause)
  | .ok statements =>
    let f := s.function
    Logged.emit
      (.frame (s.program.functionName f) frameSize st.layout.slots.length st.plain.length)
    return functionText (header s.program f 0 "Decompilation") (frameDeclarations f st)
      (Code.statementTexts st.layout statements)

/-- A function in the dialect of unoptimized ones. -/
def framed (p : Program) (memory : MemoryImage) (f : Function) (frameSize : Int) :
    Logged String :=
  framedIn (surroundings p memory f) frameSize

/-- The declaration of an imported function. -/
def importDeclaration (p : Program) (f : Function) : Except Cause String :=
  match f.kind with
  | .defined _ _ => .error (.dangling (.notImported (p.functionName f)))
  | .imported moduleName base =>
    let index := p.functionIndex f
    let name := p.functionName f
    let params := Text.commaList (f.params.map (Spelling.typeName · none))
    .ok (s!"// [-1] Imported function $func{index}, known as {name}\n" ++
      s!"import {Spelling.typeName f.result none} {name}({params}) from " ++
      s!"/* module */ {Text.quote moduleName} /* export */ {Text.quote base};")

/-- How a function is listed. -/
inductive Style where
  | imported
  | framed (frameSize : Int)
  | direct (level : Int)
deriving DecidableEq, Repr

/-- The style that suits a compression level. -/
def Style.ofCompression : Compression → Style
  | .imported => .imported
  | .decompressed frameSize => .framed frameSize
  | .minor _ => .direct 1
  | .maximum => .direct 2

/-- Reports what the style that suits a compression level leaves as it is. -/
def reportKept : Compression → Logged Unit
  | .minor statement => Logged.emit (.adjustmentKept statement)
  | _ => return

/-- Reports the compression level of a function and what its style leaves as it is. -/
def reportCompression (index : Nat) (compression : Compression) : Logged Unit := do
  Logged.emit (.classified index compression)
  reportKept compression

/-- A function in the given style. -/
def inStyle (p : Program) (memory : MemoryImage) (f : Function) : Style → Logged String
  | .imported => Logged.ofExcept ((importDeclaration p f).mapError Error.ofCause)
  | .framed frameSize => framed p memory f frameSize
  | .direct level => Logged.ofExcept ((direct p f level).mapError Error.ofCause)

/-- A function in the style that suits the level of the function at its index. -/
def function (p : Program) (memory : MemoryImage) (f : Function) : Logged String := do
  let index := p.functionIndex f
  let compression := p.compression index
  reportCompression index compression
  inStyle p memory f (.ofCompression compression)

end Listing

end WasmLift
