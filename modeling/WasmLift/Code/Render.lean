import WasmLift.Code.Basic
import WasmLift.Code.Spelling
import WasmLift.Text.Layout

/-!
# Printing pseudocode

Structured control flow becomes labeled scopes: a block is a brace scope, a loop is `while (1)` with
a `break` at its end, and a branch is `break` or `continue`, depending on what its label was last
given to. An operand that is not a single term stands in parentheses.
-/

namespace WasmLift

/-- What each label printed so far belongs to, latest first: `true` for a loop. -/
abbrev LabelUses := List (Label × Bool)

/-- A printed node: its text, and the statements it is when the scope around it takes it in. An
unlabeled block is its statements; any other node is one statement, or none. -/
structure Rendered where
  text : String
  lines : List String
deriving DecidableEq, Repr

namespace Rendered

/-- A node that is one statement, if its text is not empty. -/
def ofText (text : String) : Rendered :=
  ⟨text, Text.statement text⟩

end Rendered

namespace Code

/-- The frame base: the address of the slot that begins there, if there is one. -/
def stackBaseText (layout : FrameLayout) : String :=
  match layout.placeAt? 0 with
  | some ⟨0, 0⟩ => "&" ++ Spelling.slotName 0
  | _ => "__stack_base"

/-- An address in the frame: that of the slot there, or the frame base plus a number. -/
def stackAddressText (layout : FrameLayout) (offset : Int) : String :=
  match layout.placeAt? offset with
  | some ⟨start, 0⟩ => "&" ++ Spelling.slotName start
  | some ⟨start, diff⟩ => s!"&{Spelling.slotName start}[{diff}]"
  | none => s!"{stackBaseText layout} + {Text.hexInt offset}"

/-- A slot, or the bytes at a distance into it. -/
def slotText (place : SlotPlace) : String :=
  if place.diff = 0 then Spelling.slotName place.offset
  else s!"*(&{Spelling.slotName place.offset} + {place.diff})"

/-- An address plus a static offset. -/
def addressText (address : String) (offset : Nat) : String :=
  let displacement := Text.hexInt (BitVec.ofNat 64 offset).toInt
  if offset = 0 then address
  else if address = "0x0" then displacement
  else s!"{address} + {displacement}"

/-- The memory at an address. -/
def derefText (address : String) (arg : MemArg) (ty : Ty) : String :=
  let pointee := Spelling.accessType ty arg.bytes arg.signed arg.atomic
  s!"*(({pointee} *) {addressText address arg.offset})"

/-- The operator is spelled as a function. -/
def isBinaryCall (op : BinOp) : Bool :=
  match Spelling.binaryForm op with
  | .call _ => true
  | _ => false

/-- The operator is spelled as a function. -/
def isUnaryCall (op : UnOp) : Bool :=
  match Spelling.unaryForm op with
  | .call _ => true
  | _ => false

/-- The node needs parentheses as an operand. -/
def isCompound (layout : FrameLayout) : Code → Bool
  | .binary op _ _ => !isBinaryCall op
  | .unary op _ => !isUnaryCall op
  | .select _ _ _ | .assign _ _ | .ite _ _ _ _ => true
  | .stackAddress offset => (layout.placeAt? offset).isNone
  | _ => false

/-- The text of a node as an operand. -/
def asOperand (layout : FrameLayout) (node : Code) (text : String) : String :=
  if node.isCompound layout then s!"({text})" else text

/-- A conditional expression. -/
def ternaryText (condition ifTrue ifFalse : String) : String :=
  s!"{condition} ? {ifTrue} : {ifFalse}"

/-- The jump that a label asks for: `continue` if it was last given to a loop. -/
def jumpText (uses : LabelUses) (label : Label) : String :=
  if uses.lookup label = some true then "continue" else "break"

/-- The value that a jump carries. -/
def carriedText : Option String → String
  | none => ""
  | some value => s!"({value})"

/-- The cases of a branch table, from the given number on. -/
def caseTexts (uses : LabelUses) (value : String) : (number : Nat) → List Label → List String
  | _, [] => []
  | number, label :: rest =>
    s!"case {number}: {jumpText uses label}{value} {label.text};" ::
      caseTexts uses value (number + 1) rest

/-- The last case of a branch table. -/
def fallbackTexts (uses : LabelUses) (value : String) : Option Label → List String
  | none => []
  | some label => [s!"default: {jumpText uses label}{value} {label.text};"]

/-- A label before the construct it belongs to. -/
def labelText : Option Label → String
  | none => ""
  | some label => label.text ++ ": "

/-- The jump out of a loop. -/
def leaveText : Option Label → String
  | none => "break;"
  | some label => s!"break {label.text};"

/-- Control never goes on after the last statement of a loop body. -/
def endsInTerminator : Code → Bool
  | .block none children => (children.getLast?.map isTerminator).getD false
  | node => node.isTerminator

/-- Both arms of a conditional with a value fit into an expression. -/
def isTernary (ifTrue : Code) (ifFalse : Option Code) (isValue : Bool) : Bool :=
  isValue && ifTrue.isExpression && (ifFalse.map isExpression).getD false

/-- Records what a label belongs to. -/
def recordLabel (label : Option Label) (isLoop : Bool) : StateM LabelUses Unit :=
  match label with
  | none => pure ()
  | some label => modify ((label, isLoop) :: ·)

mutual

/-- Prints a node. -/
def render (layout : FrameLayout) : Code → StateM LabelUses Rendered
  | .param index => return .ofText (Spelling.paramName index)
  | .localVar index => return .ofText (Spelling.localName index)
  | .globalVar name => return .ofText name
  | .slot place => return .ofText (slotText place)
  | .stackBase => return .ofText (stackBaseText layout)
  | .stackAddress offset => return .ofText (stackAddressText layout offset)
  | .stackPointer => return .ofText "__stack_pointer"
  | .deref address arg ty => do
    let a ← render layout address
    return .ofText (derefText (asOperand layout address a.text) arg ty)
  | .assign target value => do
    let t ← render layout target
    let v ← render layout value
    return .ofText s!"{t.text} = {v.text}"
  | .call name args => do
    let texts ← renderArgs layout args
    return .ofText s!"{name}({Text.commaList texts})"
  | .callIndirect target args => do
    let t ← render layout target
    let texts ← renderArgs layout args
    return .ofText s!"__function_table[{t.text}]({Text.commaList texts})"
  | .const value none => return .ofText (Spelling.number value)
  | .const value (some text) => return .ofText s!"{Spelling.number value} /* \"{text}\" */"
  | .unary op value => do
    let v ← render layout value
    let operand := if isUnaryCall op then v.text else asOperand layout value v.text
    return .ofText (Spelling.applyUnary op operand)
  | .binary op left right => do
    let l ← render layout left
    let r ← render layout right
    if isBinaryCall op then return .ofText (Spelling.applyBinary op l.text r.text)
    return .ofText
      (Spelling.applyBinary op (asOperand layout left l.text) (asOperand layout right r.text))
  | .select condition ifTrue ifFalse => do
    let c ← render layout condition
    let t ← render layout ifTrue
    let e ← render layout ifFalse
    return .ofText (ternaryText (asOperand layout condition c.text)
      (asOperand layout ifTrue t.text) (asOperand layout ifFalse e.text))
  | .ret none => return .ofText "return"
  | .ret (some value) => do
    let v ← render layout value
    return .ofText s!"return {v.text}"
  | .nop => return .ofText ""
  | .unreachable => return .ofText "abort(\"unreachable\")"
  | .block label children => do
    recordLabel label false
    let lines ← renderLines layout children
    let text := Text.scope (labelText label ++ "\x7b") lines
    return ⟨text, if label.isNone then lines else Text.statement text⟩
  | .ite condition ifTrue none _ => do
    let c ← render layout condition
    let t ← render layout ifTrue
    return .ofText (Text.scope s!"if ({c.text}) \x7b" t.lines)
  | .ite condition ifTrue (some ifFalse) isValue => do
    let c ← render layout condition
    let t ← render layout ifTrue
    let e ← render layout ifFalse
    if isTernary ifTrue (some ifFalse) isValue then
      return .ofText (ternaryText (asOperand layout condition c.text)
        (asOperand layout ifTrue t.text) (asOperand layout ifFalse e.text))
    return .ofText
      (Text.scope s!"if ({c.text}) \x7b" t.lines ++ " " ++ Text.scope "else \x7b" e.lines)
  | .loop label body => do
    recordLabel label true
    let b ← render layout body
    let leave := if body.endsInTerminator then [] else [leaveText label]
    return .ofText (Text.scope (labelText label ++ "while (1) \x7b") (b.lines ++ leave))
  | .br label condition value => do
    let c ← renderOption layout condition
    let v ← renderOption layout value
    let guardText := (c.map fun text => s!"if ({text}) ").getD ""
    let uses ← get
    return .ofText s!"{guardText}{jumpText uses label}{carriedText v} {label.text}"
  | .switch labels fallback condition value => do
    let v ← renderOption layout value
    let uses ← get
    let cases := caseTexts uses (carriedText v) 0 labels ++
      fallbackTexts uses (carriedText v) fallback
    let c ← render layout condition
    return .ofText (Text.scope s!"switch ({c.text}) \x7b" cases)
  | .memorySize => return .ofText "__get_memory_size()"
  | .memoryGrow delta => do
    let d ← render layout delta
    return .ofText s!"__grow_memory_size({d.text})"
  | .memoryCopy target source length => do
    let t ← render layout target
    let s ← render layout source
    let l ← render layout length
    return .ofText s!"__memory_copy({t.text}, {s.text}, {l.text})"
  | .memoryFill target value length => do
    let t ← render layout target
    let v ← render layout value
    let l ← render layout length
    return .ofText s!"__memory_fill({t.text}, {v.text}, {l.text})"
termination_by structural node => node

/-- Prints the arguments of a call. -/
def renderArgs (layout : FrameLayout) : List Code → StateM LabelUses (List String)
  | [] => return []
  | node :: rest => do
    let r ← render layout node
    let texts ← renderArgs layout rest
    return r.text :: texts
termination_by structural nodes => nodes

/-- Prints the statements of a scope. -/
def renderLines (layout : FrameLayout) : List Code → StateM LabelUses (List String)
  | [] => return []
  | node :: rest => do
    let r ← render layout node
    let lines ← renderLines layout rest
    return Text.statement r.text ++ lines
termination_by structural nodes => nodes

/-- Prints a node that may be missing. -/
def renderOption (layout : FrameLayout) : Option Code → StateM LabelUses (Option String)
  | none => return none
  | some node => do
    let r ← render layout node
    return some r.text
termination_by structural node => node

end

/-- The statements of a function, as texts. -/
def statementTexts (layout : FrameLayout) (statements : List Code) : List String :=
  ((renderLines layout statements).run []).1

end Code

end WasmLift
