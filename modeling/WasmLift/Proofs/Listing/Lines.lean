import WasmLift.Proofs.Listing.Spelled
import WasmLift.Proofs.Listing.Variables

/-!
# Expressions on one line

A scope takes several lines, and nothing else that is printed breaks a line. So an expression that
holds no statement (`Code.Flat`) is printed on one line and without a scope inside, as long as the
names and texts that it takes from the module hold no line break (`Code.Flat.render_oneLine`).
-/

namespace WasmLift

/-! ## Texts -/

namespace Text

/-- The text holds no line break. -/
def OneLine (s : String) : Prop :=
  '\n' ∉ s.toList

instance (s : String) : Decidable (OneLine s) :=
  inferInstanceAs (Decidable ('\n' ∉ s.toList))

/-- A text of two parts is on one line just if both are. -/
@[simp] theorem oneLine_append {s t : String} : OneLine (s ++ t) ↔ OneLine s ∧ OneLine t := by
  simp [OneLine]

/-- Characters are on one line just if none is a line break. -/
@[simp] theorem oneLine_ofList {cs : List Char} : OneLine (String.ofList cs) ↔ '\n' ∉ cs := by
  simp [OneLine]

/-- A text put into another is on one line as it stands. -/
@[simp] theorem oneLine_toString {s : String} : OneLine (toString s) ↔ OneLine s := Iff.rfl

/-- Parts on one line are so together, with what stands between them. -/
theorem oneLine_intercalate {between : String} {parts : List String} (hbetween : OneLine between)
    (hparts : ∀ s ∈ parts, OneLine s) : OneLine (String.intercalate between parts) := by
  have hall := intercalate_all (P := (· ≠ '\n')) (fun _ hc heq => hbetween (heq ▸ hc))
    fun s hs _ hc heq => hparts s hs (heq ▸ hc)
  exact fun hmem => hall _ hmem rfl

/-- A plain character is no line break. -/
theorem isPlain_ne_lineBreak {c : Char} (h : isPlain c = true) : c ≠ '\n' := by
  rintro rfl
  exact absurd h (by decide)

/-- A plain text is on one line. -/
theorem Plain.oneLine {s : String} (h : Plain s) : OneLine s :=
  fun hmem => isPlain_ne_lineBreak (h _ hmem) rfl

/-- No digit is a line break, up to hexadecimal ones. -/
theorem toDigits_oneLine {base : Nat} (hlow : 1 < base) (hhigh : base ≤ 16) (n : Nat) :
    '\n' ∉ Nat.toDigits base n :=
  fun hmem => isPlain_ne_lineBreak (toDigits_plain hlow hhigh n _ hmem) rfl

/-- A number is printed on one line. -/
@[simp] theorem oneLine_hexInt (v : Int) : OneLine (hexInt v) :=
  (plain_hexInt v).oneLine

/-- Somewhere in the text a brace is opened, statements follow further in, and the brace is
closed. -/
def HoldsScope (text : String) : Prop :=
  ∃ statements, (scope "\x7b" statements).toList <:+: text.toList

/-- What is put in front of a scope leaves it there. -/
theorem HoldsScope.append_left {t : String} (s : String) (h : HoldsScope t) :
    HoldsScope (s ++ t) := by
  obtain ⟨statements, hpart⟩ := h
  rw [HoldsScope, String.toList_append]
  exact ⟨statements, hpart.trans (List.suffix_append _ _).isInfix⟩

/-- What is put behind a scope leaves it there. -/
theorem HoldsScope.append_right {s : String} (h : HoldsScope s) (t : String) :
    HoldsScope (s ++ t) := by
  obtain ⟨statements, hpart⟩ := h
  rw [HoldsScope, String.toList_append]
  exact ⟨statements, hpart.trans (List.prefix_append _ _).isInfix⟩

/-- Statements in braces are a scope. -/
theorem holdsScope_scope (head : String) (statements : List String) :
    HoldsScope (scope (head ++ "\x7b") statements) := by
  have heq : scope (head ++ "\x7b") statements = head ++ scope "\x7b" statements := by
    simp [scope, String.append_assoc]
  rw [heq]
  exact .append_left head ⟨statements, List.infix_refl _⟩

/-- A scope is closed on a line of its own. -/
theorem OneLine.not_holdsScope {text : String} (h : OneLine text) : ¬HoldsScope text := by
  rintro ⟨statements, hpart⟩
  exact h (hpart.subset (by simp [scope]))

end Text

/-! ## Spelling -/

namespace Spelling

open Text

/-- A binary operation on one-line operands is on one line. -/
theorem oneLine_applyBinary {op : BinOp} {left right : String} (hleft : OneLine left)
    (hright : OneLine right) : OneLine (applyBinary op left right) := by
  have hword := (plain_binaryForm op).oneLine
  have hoperand := (plain_unsignedOperand op).oneLine
  unfold applyBinary
  cases hform : binaryForm op <;> rw [hform] at hword <;>
    simp +decide [BinaryForm.word, hleft, hright, hoperand] at hword ⊢ <;> exact hword

/-- A unary operation on a one-line operand is on one line. -/
theorem oneLine_applyUnary {op : UnOp} {value : String} (hvalue : OneLine value) :
    OneLine (applyUnary op value) := by
  have hwords := plain_unaryForm op
  unfold applyUnary
  cases hform : unaryForm op <;> rw [hform] at hwords
  case cast types =>
    have hcasts : OneLine (casts types) := (plain_casts hwords).oneLine
    simp +decide [hcasts, hvalue]
  all_goals
    have hword := (hwords _ (.head _)).oneLine
    simp +decide [hword, hvalue]

end Spelling

namespace Code

open Text

variable {layout : FrameLayout}

/-! ## Expressions -/

/-- The node is an expression and opens no scope. -/
def isPlain : Code → Bool
  | .ite _ _ none _ => false
  | node => node.isExpression

/-- What holds no statement is an expression. -/
theorem isExpression_of_isPlain {c : Code} (h : c.isPlain = true) : c.isExpression = true := by
  unfold isPlain at h
  split at h
  · cases h
  · exact h

/-- A conditional with a value and no statement in its arms is printed as a ternary. -/
theorem isTernary_of_isPlain {ifTrue ifFalse : Code} (htrue : ifTrue.isPlain = true)
    (hfalse : ifFalse.isPlain = true) : isTernary ifTrue (some ifFalse) true = true := by
  simp [isTernary, isExpression_of_isPlain htrue, isExpression_of_isPlain hfalse]

/-- The node is an expression all of whose parts are expressions too, and no statement stands
inside it. -/
def Flat : Code → Prop :=
  Every fun c => c.isPlain = true

/-- The names and texts that the node shows as the module has them. -/
def words : Code → List String
  | .globalVar name | .call name _ => [name]
  | .const _ text => text.toList
  | _ => []

/-- No name or text in the node holds a line break. -/
def Legible : Code → Prop :=
  Every fun c => ∀ word ∈ c.words, OneLine word

section
variable {α β : Type} {P : α → Prop} {Q : β → Prop}

/-- Whatever labels have been printed before, the result has the property. -/
def Gives (P : α → Prop) (x : StateM LabelUses α) : Prop :=
  ∀ uses, P (x uses).1

/-- A result holds of a run that gives it at once. -/
theorem Gives.pure {a : α} (h : P a) : Gives P (pure a) :=
  fun _ => h

/-- A run gives a result of some kind. -/
theorem Gives.trivial {x : StateM LabelUses α} : Gives (fun _ => True) x :=
  fun _ => True.intro

/-- What holds of a first result, and from it of a second, holds of the run of both. -/
theorem Gives.bind {x : StateM LabelUses α} {f : α → StateM LabelUses β} (hx : Gives P x)
    (hf : ∀ a, P a → Gives Q (f a)) : Gives Q (x >>= f) :=
  fun uses => hf _ (hx uses) _

end

/-- An access to a one-line address is on one line. -/
theorem oneLine_derefText {address : String} {arg : MemArg} {ty : Ty} (h : OneLine address) :
    OneLine (derefText address arg ty) := by
  have haddress : OneLine (addressText address arg.offset) := by
    unfold addressText
    repeat' split
    all_goals simp +decide [h]
  have htype := (Spelling.plain_accessType ty arg.bytes arg.signed arg.atomic).oneLine
  simp +decide [derefText, htype, haddress]

/-- An operand is on one line if its text is, with parentheses or without. -/
theorem oneLine_asOperand {node : Code} {text : String} (h : OneLine text) :
    OneLine (asOperand layout node text) := by
  unfold asOperand
  split <;> simp +decide [h]

/-- A ternary of three one-line parts is on one line. -/
theorem oneLine_ternaryText {condition ifTrue ifFalse : String} (hcondition : OneLine condition)
    (htrue : OneLine ifTrue) (hfalse : OneLine ifFalse) :
    OneLine (ternaryText condition ifTrue ifFalse) := by
  simp +decide [ternaryText, hcondition, htrue, hfalse]

/-- Arguments are printed on one line each, if every one of them is. -/
theorem renderArgs_oneLine {nodes : List Code}
    (h : ∀ c ∈ nodes, Gives (fun r => OneLine r.text) (render layout c)) :
    Gives (fun texts => ∀ text ∈ texts, OneLine text) (renderArgs layout nodes) := by
  induction nodes with
  | nil => exact .pure (List.forall_mem_nil _)
  | cons node rest ih =>
    refine (h node (.head _)).bind fun _ hr => ?_
    refine (ih fun c hc => h c (.tail _ hc)).bind fun _ htexts => ?_
    exact .pure (List.forall_mem_cons.2 ⟨hr, htexts⟩)

/-- An expression without statements inside is printed on one line, unless a name in it is not. -/
theorem Flat.render_oneLine {node : Code} (hflat : node.Flat) (hlegible : node.Legible) :
    Gives (fun r => OneLine r.text) (render layout node) := by
  induction hflat with
  | @node node own children ih =>
  have hchild : ∀ c ∈ node.children, Gives (fun r => OneLine r.text) (render layout c) :=
    fun c hc => ih c hc (hlegible.child hc)
  have hwords := hlegible.own
  cases node with
  | param => exact .pure (Spelling.plain_paramName _).oneLine
  | localVar => exact .pure (Spelling.plain_localName _).oneLine
  | globalVar name => exact .pure (hwords name (.head _))
  | slot place => exact .pure (plain_slotText place).oneLine
  | stackBase => exact .pure plain_stackBaseText.oneLine
  | stackAddress offset => exact .pure (plain_stackAddressText offset).oneLine
  | stackPointer | memorySize => exact .pure (by decide)
  | deref address arg ty =>
    refine (hchild address (.head _)).bind fun _ ha => .pure ?_
    exact oneLine_derefText (oneLine_asOperand ha)
  | assign target value =>
    refine (hchild target (.head _)).bind fun _ ht => ?_
    refine (hchild value (.tail _ (.head _))).bind fun _ hv => .pure ?_
    simp +decide [Rendered.ofText, ht, hv]
  | call name args =>
    refine (renderArgs_oneLine hchild).bind fun _ htexts => .pure ?_
    have hname := hwords name (.head _)
    have hargs : OneLine (commaList _) := oneLine_intercalate (by decide) htexts
    simp +decide [Rendered.ofText, hname, hargs]
  | callIndirect target args =>
    refine (hchild target (.head _)).bind fun _ ht => ?_
    refine (renderArgs_oneLine fun c hc => hchild c (.tail _ hc)).bind fun _ htexts => .pure ?_
    have hargs : OneLine (commaList _) := oneLine_intercalate (by decide) htexts
    simp +decide [Rendered.ofText, ht, hargs]
  | const value text =>
    cases text with
    | none => exact .pure (Spelling.plain_number value).oneLine
    | some text =>
      have htext := hwords text (.head _)
      have hnumber := (Spelling.plain_number value).oneLine
      refine .pure ?_
      simp +decide [Rendered.ofText, hnumber, htext]
  | unary op value =>
    refine (hchild value (.head _)).bind fun _ hv => .pure (Spelling.oneLine_applyUnary ?_)
    split
    · exact hv
    · exact oneLine_asOperand hv
  | binary op left right =>
    refine (hchild left (.head _)).bind fun _ hl => ?_
    refine (hchild right (.tail _ (.head _))).bind fun _ hr => ?_
    split
    · exact .pure (Spelling.oneLine_applyBinary hl hr)
    · exact .pure (Spelling.oneLine_applyBinary (oneLine_asOperand hl) (oneLine_asOperand hr))
  | select condition ifTrue ifFalse =>
    refine (hchild condition (.head _)).bind fun _ hc => ?_
    refine (hchild ifTrue (.tail _ (.head _))).bind fun _ ht => ?_
    refine (hchild ifFalse (.tail _ (.tail _ (.head _)))).bind fun _ he => .pure ?_
    exact oneLine_ternaryText (oneLine_asOperand hc) (oneLine_asOperand ht) (oneLine_asOperand he)
  | ite condition ifTrue ifFalse isValue =>
    cases ifFalse with
    | none => cases own
    | some ifFalse =>
      cases isValue with
      | false => cases own
      | true =>
        have htrue := (children ifTrue (.tail _ (.head _))).own
        have hfalse := (children ifFalse (.tail _ (.tail _ (.head _)))).own
        refine (hchild condition (.head _)).bind fun _ hc => ?_
        refine (hchild ifTrue (.tail _ (.head _))).bind fun _ ht => ?_
        refine (hchild ifFalse (.tail _ (.tail _ (.head _)))).bind fun _ he => ?_
        rw [if_pos (isTernary_of_isPlain htrue hfalse)]
        refine .pure (oneLine_ternaryText ?_ ?_ ?_) <;> exact oneLine_asOperand ‹_›
  | memoryGrow delta =>
    refine (hchild delta (.head _)).bind fun _ hd => .pure ?_
    simp +decide [Rendered.ofText, hd]
  | memoryCopy x y z | memoryFill x y z =>
    refine (hchild x (.head _)).bind fun _ hx => ?_
    refine (hchild y (.tail _ (.head _))).bind fun _ hy => ?_
    refine (hchild z (.tail _ (.tail _ (.head _)))).bind fun _ hz => .pure ?_
    simp +decide [Rendered.ofText, hx, hy, hz]
  | _ => cases own

end Code

end WasmLift
