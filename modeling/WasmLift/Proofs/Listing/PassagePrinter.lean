import WasmLift.Proofs.Listing.Everywhere
import WasmLift.Proofs.Listing.Passages

/-!
# Printing passages

A second printer writes passages (`Code.passage`). It puts texts together in the same order as the
one that runs and gives statements the same ends, but it never trims, cuts or indents any of them: a
scope is a piece with its statements in it. What the printer writes is what these passages are
printed as (`Code.render_parallel`), as long as no name in the code holds a closing brace or a blank
other than the space, and no text beside a constant breaks its line (`Code.Printable`).
-/

namespace WasmLift

open Text (OneLine Passage Plain Prints PrintsStatement)

/-- A printed node in passages: its text, and the statements it is when the scope around it takes it
in. -/
structure Shown where
  text : Passage
  lines : List Passage

/-- A node that is one statement, if its text is not empty. -/
def Shown.ofText (text : Passage) : Shown :=
  ⟨text, text.statement⟩

namespace Code

/-! ## Printing passages -/

section
variable (layout : FrameLayout) (uses : LabelUses)

/-- An operand, in parentheses if it is not a single term. -/
def operandPassage (node : Code) (text : Passage) : Passage :=
  if node.isCompound layout then "(" ++ text ++ ")" else text

/-- An address plus a static offset. -/
def addressPassage (address : Passage) (offset : Nat) : Passage :=
  let displacement := Text.hexInt (BitVec.ofNat 64 offset).toInt
  if offset = 0 then address
  else if address.text = "0x0" then displacement
  else address ++ " + " ++ displacement

/-- The memory at an address. -/
def derefPassage (address : Passage) (arg : MemArg) (ty : Ty) : Passage :=
  let pointee := Spelling.accessType ty arg.bytes arg.signed arg.atomic
  "*((" ++ pointee ++ " *) " ++ addressPassage address arg.offset ++ ")"

/-- An operator and its two operands. -/
def binaryPassage (op : BinOp) (left right : Passage) : Passage :=
  match Spelling.binaryForm op with
  | .infixed symbol => left ++ " " ++ symbol ++ " " ++ right
  | .unsigned symbol =>
    let ty := Spelling.unsignedOperand op
    "(" ++ ty ++ ") " ++ left ++ " " ++ symbol ++ " (" ++ ty ++ ") " ++ right
  | .call name => name ++ "(" ++ left ++ ", " ++ right ++ ")"

/-- An operator and its operand. -/
def unaryPassage (op : UnOp) (value : Passage) : Passage :=
  match Spelling.unaryForm op with
  | .prefixed symbol => symbol ++ value
  | .call name => name ++ "(" ++ value ++ ")"
  | .cast types => Spelling.casts types ++ " " ++ value

/-- A conditional expression. -/
def ternaryPassage (condition ifTrue ifFalse : Passage) : Passage :=
  condition ++ " ? " ++ ifTrue ++ " : " ++ ifFalse

/-- The arguments of a call. -/
def commaPassage : List Passage → Passage
  | [] => []
  | [p] => p
  | p :: q :: rest => p ++ ", " ++ commaPassage (q :: rest)

/-- The value that a jump carries. -/
def carriedPassage : Option Passage → Passage
  | none => []
  | some value => "(" ++ value ++ ")"

/-- The condition of a jump. -/
def guardPassage : Option Passage → Passage
  | none => []
  | some condition => "if (" ++ condition ++ ") "

/-- The cases of a branch table. -/
def casePassages (value : Passage) : (number : Nat) → List Label → List Passage
  | _, [] => []
  | number, label :: rest =>
    ("case " ++ number.repr ++ ": " ++ jumpText uses label ++ value ++ " " ++ label.text ++ ";") ::
      casePassages value (number + 1) rest

/-- The last case of a branch table. -/
def fallbackPassages (value : Passage) : Option Label → List Passage
  | none => []
  | some label => ["default: " ++ jumpText uses label ++ value ++ " " ++ label.text ++ ";"]

end

mutual

/-- Prints a node as a passage. -/
def passage (layout : FrameLayout) : Code → StateM LabelUses Shown
  | .deref address arg ty => do
    let a ← passage layout address
    return .ofText (derefPassage (operandPassage layout address a.text) arg ty)
  | .assign target value => do
    let t ← passage layout target
    let v ← passage layout value
    return .ofText (t.text ++ " = " ++ v.text)
  | .call name args => do
    let texts ← passageArgs layout args
    return .ofText (name ++ "(" ++ commaPassage texts ++ ")")
  | .callIndirect target args => do
    let t ← passage layout target
    let texts ← passageArgs layout args
    return .ofText ("__function_table[" ++ t.text ++ "](" ++ commaPassage texts ++ ")")
  | .unary op value => do
    let v ← passage layout value
    let operand := if isUnaryCall op then v.text else operandPassage layout value v.text
    return .ofText (unaryPassage op operand)
  | .binary op left right => do
    let l ← passage layout left
    let r ← passage layout right
    if isBinaryCall op then return .ofText (binaryPassage op l.text r.text)
    return .ofText
      (binaryPassage op (operandPassage layout left l.text) (operandPassage layout right r.text))
  | .select condition ifTrue ifFalse => do
    let c ← passage layout condition
    let t ← passage layout ifTrue
    let e ← passage layout ifFalse
    return .ofText (ternaryPassage (operandPassage layout condition c.text)
      (operandPassage layout ifTrue t.text) (operandPassage layout ifFalse e.text))
  | .ret (some value) => do
    let v ← passage layout value
    return .ofText ("return " ++ v.text)
  | .block label children => do
    recordLabel label false
    let lines ← passageLines layout children
    let text := Passage.scope (labelText label) lines
    return ⟨text, if label.isNone then lines else text.statement⟩
  | .ite condition ifTrue none _ => do
    let c ← passage layout condition
    let t ← passage layout ifTrue
    return .ofText (Passage.scope ("if (" ++ c.text ++ ") ") t.lines)
  | .ite condition ifTrue (some ifFalse) isValue => do
    let c ← passage layout condition
    let t ← passage layout ifTrue
    let e ← passage layout ifFalse
    if isTernary ifTrue (some ifFalse) isValue then
      return .ofText (ternaryPassage (operandPassage layout condition c.text)
        (operandPassage layout ifTrue t.text) (operandPassage layout ifFalse e.text))
    return .ofText
      (Passage.scope ("if (" ++ c.text ++ ") ") t.lines ++ " " ++ Passage.scope "else " e.lines)
  | .loop label body => do
    recordLabel label true
    let b ← passage layout body
    let leave : List Passage := if body.endsInTerminator then [] else [leaveText label]
    return .ofText (Passage.scope (labelText label ++ "while (1) ") (b.lines ++ leave))
  | .br label condition value => do
    let c ← passageOption layout condition
    let v ← passageOption layout value
    let uses ← get
    return .ofText
      (guardPassage c ++ jumpText uses label ++ carriedPassage v ++ " " ++ label.text)
  | .switch labels fallback condition value => do
    let v ← passageOption layout value
    let uses ← get
    let cases := casePassages uses (carriedPassage v) 0 labels ++
      fallbackPassages uses (carriedPassage v) fallback
    let c ← passage layout condition
    return .ofText (Passage.scope ("switch (" ++ c.text ++ ") ") cases)
  | .memoryGrow delta => do
    let d ← passage layout delta
    return .ofText ("__grow_memory_size(" ++ d.text ++ ")")
  | .memoryCopy target source length => do
    let t ← passage layout target
    let s ← passage layout source
    let l ← passage layout length
    return .ofText ("__memory_copy(" ++ t.text ++ ", " ++ s.text ++ ", " ++ l.text ++ ")")
  | .memoryFill target value length => do
    let t ← passage layout target
    let v ← passage layout value
    let l ← passage layout length
    return .ofText ("__memory_fill(" ++ t.text ++ ", " ++ v.text ++ ", " ++ l.text ++ ")")
  -- What is left has no children and takes one line.
  | leaf => return .ofText ((render layout leaf).run []).1.text
termination_by structural node => node

/-- Prints the arguments of a call. -/
def passageArgs (layout : FrameLayout) : List Code → StateM LabelUses (List Passage)
  | [] => return []
  | node :: rest => do
    let r ← passage layout node
    let texts ← passageArgs layout rest
    return r.text :: texts
termination_by structural nodes => nodes

/-- Prints the statements of a scope. -/
def passageLines (layout : FrameLayout) : List Code → StateM LabelUses (List Passage)
  | [] => return []
  | node :: rest => do
    let r ← passage layout node
    let lines ← passageLines layout rest
    return r.text.statement ++ lines
termination_by structural nodes => nodes

/-- Prints a node that may be missing. -/
def passageOption (layout : FrameLayout) : Option Code → StateM LabelUses (Option Passage)
  | none => return none
  | some node => do
    let r ← passage layout node
    return some r.text
termination_by structural node => node

end

/-- The statements of a function, as passages. -/
def statementPassages (layout : FrameLayout) (statements : List Code) : List Passage :=
  ((passageLines layout statements).run []).1

/-! ## Agreement of the texts -/

section
variable {layout : FrameLayout} {s t u : String} {p q r : Passage}

open Spelling

/-- A space is printed as itself. -/
theorem prints_space : Prints " " " " :=
  .plain (by decide)

/-- A comma is printed as itself. -/
theorem prints_comma : Prints ", " ", " :=
  .plain (by decide)

/-- Between two fixed texts. -/
theorem prints_between {front back : String} (hfront : Plain front) (h : Prints s p)
    (hback : Plain back) : Prints (front ++ s ++ back) (front ++ p ++ back) :=
  ((Prints.plain hfront).append h).append (.plain hback)

/-- The two printers put the same operands in parentheses. -/
theorem prints_operand {node : Code} (h : Prints s p) :
    Prints (asOperand layout node s) (operandPassage layout node p) := by
  unfold asOperand operandPassage
  split
  · exact prints_between (by decide) h (by decide)
  · exact h

/-- The two printers add the same offset to an address. -/
theorem prints_address {offset : Nat} (h : Prints s p) :
    Prints (addressText s offset) (addressPassage p offset) := by
  have hoffset := Prints.plain (Text.plain_hexInt (BitVec.ofNat 64 offset).toInt)
  unfold addressText addressPassage
  rw [h.text_eq]
  split
  · exact h
  split
  · exact hoffset
  · exact (h.append (.plain (by decide))).append hoffset

/-- The two printers spell the same access to memory. -/
theorem prints_deref {arg : MemArg} {ty : Ty} (h : Prints s p) :
    Prints (derefText s arg ty) (derefPassage p arg ty) := by
  have htype := Prints.plain (plain_accessType ty arg.bytes arg.signed arg.atomic)
  have hopen := prints_between (by decide : Plain "*((") htype (by decide : Plain " *) ")
  exact (hopen.append (prints_address h)).append (.plain (by decide))

/-- The two printers spell the same operator between two operands. -/
theorem prints_binary {op : BinOp} (hs : Prints s p) (ht : Prints t q) :
    Prints (applyBinary op s t) (binaryPassage op p q) := by
  have hword := plain_binaryForm op
  unfold applyBinary binaryPassage
  cases hform : binaryForm op with
  | infixed symbol =>
    rw [hform] at hword
    exact (((hs.append prints_space).append (.plain hword)).append prints_space).append ht
  | unsigned symbol =>
    rw [hform] at hword
    have hopen : Prints "(" "(" := .plain (by decide)
    have hclose : Prints ") " ") " := .plain (by decide)
    have hbetween : Prints " (" " (" := .plain (by decide)
    have htype : Prints (unsignedOperand op) (unsignedOperand op) :=
      .plain (plain_unsignedOperand op)
    have hleft := ((hopen.append htype).append hclose).append hs
    have hsymbol := (hleft.append prints_space).append (.plain hword)
    exact (((hsymbol.append hbetween).append htype).append hclose).append ht
  | call name =>
    rw [hform] at hword
    have hopen : Prints "(" "(" := .plain (by decide)
    exact (((((Prints.plain hword).append hopen).append hs).append prints_comma).append ht).append
      (.plain (by decide))

/-- The two printers spell the same operator on an operand. -/
theorem prints_unary {op : UnOp} (h : Prints s p) :
    Prints (applyUnary op s) (unaryPassage op p) := by
  have hwords := plain_unaryForm op
  unfold applyUnary unaryPassage
  cases hform : unaryForm op with
  | prefixed symbol =>
    rw [hform] at hwords
    exact (Prints.plain (hwords _ (.head _))).append h
  | call name =>
    rw [hform] at hwords
    have hopen : Prints "(" "(" := .plain (by decide)
    exact (((Prints.plain (hwords _ (.head _))).append hopen).append h).append (.plain (by decide))
  | cast types =>
    rw [hform] at hwords
    exact ((Prints.plain (plain_casts hwords)).append prints_space).append h

/-- The two printers spell the same conditional expression. -/
theorem prints_ternary (hs : Prints s p) (ht : Prints t q) (hu : Prints u r) :
    Prints (ternaryText s t u) (ternaryPassage p q r) := by
  have hquestion : Prints " ? " " ? " := .plain (by decide)
  have hcolon : Prints " : " " : " := .plain (by decide)
  exact (((hs.append hquestion).append ht).append hcolon).append hu

/-- The two printers put the same commas between arguments. -/
theorem prints_commaList {texts : List String} {passages : List Passage}
    (h : List.Forall₂ Prints texts passages) :
    Prints (Text.commaList texts) (commaPassage passages) := by
  induction h with
  | nil => exact .plain (by decide)
  | @cons s p texts passages hs hrest ih =>
    cases hrest with
    | nil => simpa [Text.commaList, commaPassage] using hs
    | cons =>
      rw [Text.commaList, String.intercalate_cons_cons]
      exact (hs.append prints_comma).append ih

/-- The two printers put the same parentheses around a value that a jump carries. -/
theorem prints_carried {text : Option String} {passage : Option Passage}
    (h : Option.Rel Prints text passage) : Prints (carriedText text) (carriedPassage passage) := by
  cases h with
  | none => exact .plain (by decide)
  | some h => exact prints_between (by decide) h (by decide)

/-- The two printers put the same condition before a jump. -/
theorem prints_guard {text : Option String} {passage : Option Passage}
    (h : Option.Rel Prints text passage) :
    Prints ((text.map fun text => s!"if ({text}) ").getD "") (guardPassage passage) := by
  cases h with
  | none => exact .plain (by decide)
  | some h => exact prints_between (by decide) h (by decide)

/-- A jump is printed as itself. -/
theorem prints_jump (uses : LabelUses) (label : Label) :
    Prints (jumpText uses label) (jumpText uses label) :=
  .plain (plain_jumpText uses label)

/-- The label in front of a scope is printed as itself. -/
theorem prints_labelText (label : Option Label) : Prints (labelText label) (labelText label) := by
  refine .plain ?_
  cases label with
  | none => decide
  | some label => exact Text.plain_append.2 ⟨plain_labelText label, by decide⟩

/-- A label is printed as itself. -/
theorem prints_label (label : Label) : Prints label.text label.text :=
  .plain (plain_labelText label)

/-- A text with a semicolon behind it is a statement. -/
theorem printsStatement_semicolon (h : Prints s p) : PrintsStatement (s ++ ";") (p ++ ";") :=
  ⟨h.append (.plain (by decide)), p, .sign ';', rfl, rfl⟩

/-- A text whose last character is a semicolon. -/
theorem printsStatement_plain (h : Plain s) (hlast : s.toList.getLast? = some ';') :
    PrintsStatement s s := by
  obtain ⟨init, hinit⟩ := List.getLast?_eq_some_iff.1 hlast
  refine ⟨.plain h, init.map .sign, .sign ';', ?_, rfl⟩
  rw [Passage.ofString, hinit, List.map_append, List.map_singleton]

/-- The jump at the end of a loop. -/
theorem prints_leave (body : Code) (label : Option Label) : List.Forall₂ PrintsStatement
    (if body.endsInTerminator then [] else [leaveText label])
    (if body.endsInTerminator then [] else [Passage.ofString (leaveText label)]) := by
  split
  · exact .nil
  refine .cons ?_ .nil
  cases label with
  | none => exact printsStatement_plain (by decide) (by decide)
  | some label =>
    have hplain := plain_labelText label
    show PrintsStatement ("break " ++ label.text ++ ";") ("break " ++ label.text ++ ";" : String)
    refine printsStatement_plain (by simp +decide [hplain]) ?_
    rw [String.toList_append, List.getLast?_append_of_ne_nil _ (by decide)]
    decide

/-- A constant with a text beside it, which may hold any characters that keep to the line. -/
theorem prints_const {value : Value} {text : String} (h : OneLine text) :
    Prints s!"{number value} /* \"{text}\" */"
      (Passage.ofString s!"{number value} /* \"{text}\" */") where
  toList := (Passage.print_signs _).symm
  fit := by
    have hopen : Plain (number value ++ " /* \"") :=
      Text.plain_append.2 ⟨plain_number value, by decide⟩
    have hclose : Plain "\" */" := by decide
    have hseen : ∃ x ∈ Passage.ofString (number value ++ " /* \""), x.isDark = true :=
      ⟨.sign '"', by simp [Passage.ofString], by decide⟩
    have hfit :=
      (Passage.fit_ofString hopen).enclose h (Passage.fit_ofString hclose) hseen (by decide)
    show Passage.Fit (Passage.ofString (number value ++ " /* \"" ++ text ++ "\" */"))
    simpa [Passage.ofString] using hfit

/-- A head with its brace. -/
theorem append_brace (s t : String) : s ++ (t ++ "\x7b") = s ++ t ++ "\x7b" :=
  (String.append_assoc ..).symm

/-- The two printers write the same cases of a branch table, one statement each. -/
theorem prints_cases (uses : LabelUses) {value : String} {passage : Passage}
    (h : Prints value passage) (labels : List Label) : ∀ number, List.Forall₂ PrintsStatement
      (caseTexts uses value number labels) (casePassages uses passage number labels) := by
  induction labels with
  | nil => exact fun _ => .nil
  | cons label rest ih =>
    intro number
    have hcase : Prints "case " "case " := .plain (by decide)
    have hnumber : Prints number.repr number.repr := .plain (Text.plain_repr number)
    have hcolon : Prints ": " ": " := .plain (by decide)
    have hjump := ((hcase.append hnumber).append hcolon).append (prints_jump uses label)
    have htext := ((hjump.append h).append prints_space).append (prints_label label)
    exact .cons (printsStatement_semicolon htext) (ih (number + 1))

/-- The two printers write the same last case of a branch table. -/
theorem prints_fallback (uses : LabelUses) {value : String} {passage : Passage}
    (h : Prints value passage) (fallback : Option Label) : List.Forall₂ PrintsStatement
      (fallbackTexts uses value fallback) (fallbackPassages uses passage fallback) := by
  cases fallback with
  | none => exact .nil
  | some label =>
    have hdefault : Prints "default: " "default: " := .plain (by decide)
    have hjump := hdefault.append (prints_jump uses label)
    have htext := ((hjump.append h).append prints_space).append (prints_label label)
    exact .cons (printsStatement_semicolon htext) .nil

end

/-! ## Agreement of the printers -/

section
variable {α α' β β' : Type} {R : α → β → Prop} {S : α' → β' → Prop}

/-- The two printers record the same labels, and what they print is related. -/
def Parallel (R : α → β → Prop) (x : StateM LabelUses α) (y : StateM LabelUses β) : Prop :=
  ∀ uses, R (x uses).1 (y uses).1 ∧ (x uses).2 = (y uses).2

/-- Related values are printed without a record. -/
theorem Parallel.pure {a : α} {b : β} (h : R a b) : Parallel R (pure a) (pure b) :=
  fun _ => ⟨h, rfl⟩

/-- A printer is parallel to itself. -/
theorem Parallel.same (x : StateM LabelUses α) : Parallel Eq x x :=
  fun _ => ⟨rfl, rfl⟩

/-- Parallel printers are parallel with parallel ones after them. -/
theorem Parallel.bind {x : StateM LabelUses α} {y : StateM LabelUses β}
    {f : α → StateM LabelUses α'} {g : β → StateM LabelUses β'} (hx : Parallel R x y)
    (hf : ∀ a b, R a b → Parallel S (f a) (g b)) : Parallel S (x >>= f) (y >>= g) := by
  intro uses
  obtain ⟨hresult, huses⟩ := hx uses
  show S (f (x uses).1 (x uses).2).1 (g (y uses).1 (y uses).2).1 ∧
    (f (x uses).1 (x uses).2).2 = (g (y uses).1 (y uses).2).2
  rw [← huses]
  exact hf _ _ hresult (x uses).2

end

/-- The node is printed as the passages. -/
structure ShownAs (r : Rendered) (t : Shown) : Prop where
  text : Prints r.text t.text
  lines : List.Forall₂ PrintsStatement r.lines t.lines

/-- A text that prints a passage is one statement of it. -/
theorem shownAs_ofText {s : String} {p : Passage} (h : Prints s p) :
    ShownAs (.ofText s) (.ofText p) :=
  ⟨h, h.statement⟩

/-- The names in the node. -/
def names : Code → List String
  | .globalVar name | .call name _ => [name]
  | _ => []

/-- The texts beside the node. -/
def comments : Code → List String
  | .const _ text => text.toList
  | _ => []

/-- The names in the node are plain, and the text beside it is on one line. -/
structure Printable (c : Code) : Prop where
  name : ∀ name ∈ c.names, Plain name
  comment : ∀ text ∈ c.comments, OneLine text

section
variable {layout : FrameLayout} {nodes : List Code}

/-- Arguments are printed in parallel if each is. -/
theorem renderArgs_parallel
    (h : ∀ c ∈ nodes, Parallel ShownAs (render layout c) (passage layout c)) :
    Parallel (List.Forall₂ Prints) (renderArgs layout nodes) (passageArgs layout nodes) := by
  induction nodes with
  | nil => exact .pure .nil
  | cons node rest ih =>
    refine (h node (.head _)).bind fun _ _ hr => ?_
    exact (ih fun c hc => h c (.tail _ hc)).bind fun _ _ htexts => .pure (.cons hr.text htexts)

/-- Statements are printed in parallel if each is. -/
theorem renderLines_parallel
    (h : ∀ c ∈ nodes, Parallel ShownAs (render layout c) (passage layout c)) :
    Parallel (List.Forall₂ PrintsStatement) (renderLines layout nodes)
      (passageLines layout nodes) := by
  induction nodes with
  | nil => exact .pure .nil
  | cons node rest ih =>
    refine (h node (.head _)).bind fun _ _ hr => ?_
    refine (ih fun c hc => h c (.tail _ hc)).bind fun _ _ hlines => .pure ?_
    exact List.rel_append hr.text.statement hlines

/-- A node that may be missing is printed in parallel if it is when it is there. -/
theorem renderOption_parallel {node : Option Code}
    (h : ∀ c ∈ node.toList, Parallel ShownAs (render layout c) (passage layout c)) :
    Parallel (Option.Rel Prints) (renderOption layout node) (passageOption layout node) := by
  cases node with
  | none => exact .pure .none
  | some node => exact (h node (by simp)).bind fun _ _ hr => .pure (.some hr.text)

/-- Printing a node and printing its passage. -/
theorem render_parallel {node : Code} (h : node.Every Printable) :
    Parallel ShownAs (render layout node) (passage layout node) := by
  induction h with
  | @node node own _ ih =>
  have plain {s : String} (h : Plain s) : ShownAs (.ofText s) (.ofText (Passage.ofString s)) :=
    shownAs_ofText (.plain h)
  cases node with
  | param => exact .pure (plain (Spelling.plain_paramName _))
  | localVar => exact .pure (plain (Spelling.plain_localName _))
  | globalVar name => exact .pure (plain (own.name name (.head _)))
  | slot place => exact .pure (plain (plain_slotText place))
  | stackBase => exact .pure (plain plain_stackBaseText)
  | stackAddress offset => exact .pure (plain (plain_stackAddressText offset))
  | stackPointer | memorySize | nop | unreachable => exact .pure (plain (by decide))
  | const value text =>
    cases text with
    | none => exact .pure (plain (Spelling.plain_number value))
    | some text => exact .pure (shownAs_ofText (prints_const (own.comment text (.head _))))
  | deref address arg ty =>
    refine (ih address (.head _)).bind fun _ _ ha => .pure ?_
    exact shownAs_ofText (prints_deref (prints_operand ha.text))
  | assign target value =>
    refine (ih target (.head _)).bind fun _ _ ht => ?_
    refine (ih value (.tail _ (.head _))).bind fun _ _ hv => .pure ?_
    exact shownAs_ofText ((ht.text.append (.plain (by decide))).append hv.text)
  | call name args =>
    refine (renderArgs_parallel ih).bind fun _ _ htexts => .pure ?_
    have hopen := (Prints.plain (own.name name (.head _))).append (.plain (by decide : Plain "("))
    exact shownAs_ofText ((hopen.append (prints_commaList htexts)).append (.plain (by decide)))
  | callIndirect target args =>
    refine (ih target (.head _)).bind fun _ _ ht => ?_
    refine (renderArgs_parallel fun c hc => ih c (.tail _ hc)).bind fun _ _ htexts => .pure ?_
    have htarget :=
      prints_between (by decide : Plain "__function_table[") ht.text (by decide : Plain "](")
    exact shownAs_ofText ((htarget.append (prints_commaList htexts)).append (.plain (by decide)))
  | unary op value =>
    refine (ih value (.head _)).bind fun _ _ hv => .pure (shownAs_ofText (prints_unary ?_))
    split
    · exact hv.text
    · exact prints_operand hv.text
  | binary op left right =>
    refine (ih left (.head _)).bind fun _ _ hl => ?_
    refine (ih right (.tail _ (.head _))).bind fun _ _ hr => ?_
    split
    · exact .pure (shownAs_ofText (prints_binary hl.text hr.text))
    · exact .pure (shownAs_ofText (prints_binary (prints_operand hl.text) (prints_operand hr.text)))
  | select condition ifTrue ifFalse =>
    refine (ih condition (.head _)).bind fun _ _ hc => ?_
    refine (ih ifTrue (.tail _ (.head _))).bind fun _ _ ht => ?_
    refine (ih ifFalse (.tail _ (.tail _ (.head _)))).bind fun _ _ he => .pure ?_
    exact shownAs_ofText (prints_ternary (prints_operand hc.text) (prints_operand ht.text)
      (prints_operand he.text))
  | ret value =>
    cases value with
    | none => exact .pure (plain (by decide))
    | some value =>
      refine (ih value (.head _)).bind fun _ _ hv => .pure ?_
      exact shownAs_ofText ((Prints.plain (by decide)).append hv.text)
  | block label children =>
    refine (Parallel.same _).bind fun _ _ _ => ?_
    refine (renderLines_parallel ih).bind fun _ _ hlines => .pure ?_
    have hscope := (prints_labelText label).scope rfl hlines
    refine ⟨hscope, ?_⟩
    cases label with
    | none => exact hlines
    | some label => exact hscope.statement
  | ite condition ifTrue ifFalse isValue =>
    have hhead {s : String} {p : Passage} (h : Prints s p) :=
      prints_between (by decide : Plain "if (") h (by decide : Plain ") ")
    cases ifFalse with
    | none =>
      refine (ih condition (.head _)).bind fun _ _ hc => ?_
      refine (ih ifTrue (.tail _ (.head _))).bind fun _ _ ht => .pure ?_
      exact shownAs_ofText ((hhead hc.text).scope (append_brace _ ") ") ht.lines)
    | some ifFalse =>
      refine (ih condition (.head _)).bind fun _ _ hc => ?_
      refine (ih ifTrue (.tail _ (.head _))).bind fun _ _ ht => ?_
      refine (ih ifFalse (.tail _ (.tail _ (.head _)))).bind fun _ _ he => ?_
      split
      · exact .pure (shownAs_ofText (prints_ternary (prints_operand hc.text)
          (prints_operand ht.text) (prints_operand he.text)))
      · have htrue := (hhead hc.text).scope (append_brace _ ") ") ht.lines
        have hfalse := (Prints.plain (by decide : Plain "else ")).scope rfl he.lines
        exact .pure (shownAs_ofText ((htrue.append prints_space).append hfalse))
  | loop label body =>
    refine (Parallel.same _).bind fun _ _ _ => ?_
    refine (ih body (.head _)).bind fun _ _ hb => .pure ?_
    have hhead := (prints_labelText label).append (.plain (by decide : Plain "while (1) "))
    have hlines := List.rel_append hb.lines (prints_leave body label)
    exact shownAs_ofText (hhead.scope (append_brace (labelText label) "while (1) ") hlines)
  | br label condition value =>
    refine (renderOption_parallel fun c hc => ih c (List.mem_append_left _ hc)).bind
      fun _ _ hc => ?_
    refine (renderOption_parallel fun c hc => ih c (List.mem_append_right _ hc)).bind
      fun _ _ hv => ?_
    refine (Parallel.same _).bind fun uses _ huses => .pure ?_
    subst huses
    have hjump := ((prints_guard hc).append (prints_jump uses label)).append (prints_carried hv)
    exact shownAs_ofText ((hjump.append prints_space).append (prints_label label))
  | switch labels fallback condition value =>
    refine (renderOption_parallel fun c hc => ih c (List.mem_append_left _ hc)).bind
      fun _ _ hv => ?_
    refine (Parallel.same _).bind fun uses _ huses => ?_
    subst huses
    refine (ih condition (by simp [children])).bind fun _ _ hc => .pure ?_
    have hcases := List.rel_append (prints_cases uses (prints_carried hv) labels 0)
      (prints_fallback uses (prints_carried hv) fallback)
    have hhead := prints_between (by decide : Plain "switch (") hc.text (by decide : Plain ") ")
    exact shownAs_ofText (hhead.scope (append_brace _ ") ") hcases)
  | memoryGrow delta =>
    refine (ih delta (.head _)).bind fun _ _ hd => .pure ?_
    exact shownAs_ofText (prints_between (by decide) hd.text (by decide))
  | memoryCopy x y z | memoryFill x y z =>
    refine (ih x (.head _)).bind fun _ _ hx => ?_
    refine (ih y (.tail _ (.head _))).bind fun _ _ hy => ?_
    refine (ih z (.tail _ (.tail _ (.head _)))).bind fun _ _ hz => .pure ?_
    have hrest {s : String} {p : Passage} (h : Prints s p) :=
      (((h.append hx.text).append prints_comma).append hy.text).append prints_comma
    exact shownAs_ofText
      (((hrest (.plain (by decide))).append hz.text).append (.plain (by decide)))

end

/-- The statements of a function are printed as their passages. -/
theorem statementTexts_prints {layout : FrameLayout} {statements : List Code}
    (h : ∀ node ∈ statements, node.Every Printable) :
    List.Forall₂ PrintsStatement (statementTexts layout statements)
      (statementPassages layout statements) :=
  (renderLines_parallel (fun c hc => render_parallel (h c hc)) []).1

end Code

end WasmLift
