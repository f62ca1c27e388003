import WasmLift.Proofs.Reading.Grammar
import WasmLift.Text.Layout

/-!
# Texts of expressions

How C reads a text that is put together from the texts of operands: a sign or a cast in front, an
operator with blanks around it, brackets, a list with commas, a comment behind
(`C.Printed.prefixed` and so on). A text that stands in parentheses may be put anywhere.
-/

namespace WasmLift.C

/-- The text gives tokens that are read in the given way. -/
def Printed {α : Type} (Reads : List Token → α → Prop) (text : String) (meaning : α) : Prop :=
  ∃ ts, Spells text ts ∧ Reads ts meaning

variable {Reads : List Token → Tree → Prop} {a b c : String} {s t u : Tree}

/-- An identifier that is no keyword. -/
def IsIdentifier (text : String) : Prop :=
  IsWord text ∧ text ∉ keywords

instance (text : String) : Decidable (IsIdentifier text) :=
  inferInstanceAs (Decidable (_ ∧ _))

/-- An identifier reads as a name. -/
theorem IsIdentifier.printed (h : IsIdentifier a) : Printed Primary a (.name a) :=
  ⟨_, h.1.spells, primary_name h.2⟩

/-- A number reads as itself. -/
theorem IsNumber.printed (h : IsNumber a) : Printed Primary a (.number a) :=
  ⟨_, h.spells, primary_number a⟩

namespace Printed

/-- What needs no parentheses may be an operand. -/
theorem operand (h : Printed Primary a t) : Printed Operand a t := by
  obtain ⟨ts, hspells, hprimary⟩ := h
  exact ⟨ts, hspells, hprimary.operand⟩

/-- An operand that is no assignment may be enclosed. -/
theorem enclosed (h : Printed Operand a t) (hplain : ∀ l r, t ≠ .infixed "=" l r) :
    Printed Enclosed a t := by
  obtain ⟨ts, hspells, hoperand⟩ := h
  exact ⟨ts, hspells, hoperand.enclosed hplain⟩

/-- A text that may be enclosed is read as its tree. -/
theorem parse_eq (h : Printed Enclosed a t) : parse? (tokens a) = some t := by
  obtain ⟨ts, hspells, henclosed⟩ := h
  rw [hspells.tokens_eq, henclosed.parse_eq]

/-- A comment behind a text does not change how it reads. -/
theorem comment (h : Printed Reads a t) (hb : StaysInside b) :
    Printed Reads (a ++ " /* \"" ++ b ++ "\" */") t := by
  obtain ⟨ts, hspells, hreads⟩ := h
  have htext := hspells.append_separate (separate_comment hb) (c := ' ') (by simp) (.head _)
  rw [List.append_nil, ← String.append_assoc, ← String.append_assoc] at htext
  exact ⟨ts, htext.spells, hreads⟩

/-- In parentheses a text needs no more of them. -/
theorem group (h : Printed Enclosed a t) : Printed Primary ("(" ++ a ++ ")") t := by
  obtain ⟨ts, hspells, henclosed⟩ := h
  have hopen : Separate "(" [.symbol "("] := separate_bracket (by decide) (by decide) rfl
  have hclose : Separate ")" [.symbol ")"] := separate_bracket (by decide) (by decide) rfl
  have htext := (hopen.append_spells hspells).append_separate hclose rfl (by decide)
  exact ⟨_, htext.spells, henclosed.group⟩

/-- A text in brackets behind another one. -/
theorem spells_bracketed {left right : String} {l r : Char} {ts ts' : List Token}
    (hleft : left.toList = [l]) (hl : l ∈ stops ∧ l ≠ ' ') (hright : right.toList = [r])
    (hr : r ∈ stops ∧ r ≠ ' ') (h : Spells a ts) (h' : Spells b ts') :
    Spells (a ++ left ++ b ++ right) (ts ++ .symbol left :: (ts' ++ [.symbol right])) := by
  have hopen := separate_bracket hl.1 hl.2 hleft
  have hclose := separate_bracket hr.1 hr.2 hright
  have htext := ((h.append_separate hopen (by simp [hleft]) hl.1).append_spells h').append_separate
    hclose (by simp [hright]) hr.1
  simpa using htext.spells

/-- An index in brackets reads as one. -/
theorem index (harray : Printed Primary a t) (h : Printed Enclosed b u) :
    Printed Primary (a ++ "[" ++ b ++ "]") (.index t u) := by
  obtain ⟨ts, hspells, hprimary⟩ := harray
  obtain ⟨ts', hspells', henclosed⟩ := h
  exact ⟨_, spells_bracketed rfl (by decide) rfl (by decide) hspells hspells',
    hprimary.index henclosed⟩

/-- The arguments of a call, with commas between them. -/
theorem spells_commaList {texts : List String} {trees : List Tree}
    (h : List.Forall₂ (Printed Enclosed) texts trees) :
    ∃ tss, Spells (Text.commaList texts) ([.symbol ","].intercalate tss) ∧
      List.Forall₂ Enclosed tss trees := by
  induction h with
  | nil => exact ⟨[], fun _ _ => rfl, .nil⟩
  | @cons text tree texts trees htext hrest ih =>
    obtain ⟨ts, hspells, henclosed⟩ := htext
    obtain ⟨tss, hspells', htrees⟩ := ih
    cases hrest with
    | nil =>
      cases htrees
      exact ⟨[ts], by simpa [Text.commaList] using hspells, .cons henclosed .nil⟩
    | @cons text' tree' texts trees =>
      cases htrees with
      | @cons ts' _ tss _ henclosed' htrees =>
      refine ⟨ts :: ts' :: tss, ?_, .cons henclosed (.cons henclosed' htrees)⟩
      have hcomma : Separate ", " [.symbol ","] := fun _ => rfl
      have htext := (hspells.append_separate hcomma rfl (by decide)).append_spells hspells'
      rw [Text.commaList, String.intercalate_cons_cons, List.intercalate_cons_cons]
      exact htext

/-- A name with arguments in parentheses reads as a call. -/
theorem call {texts : List String} {trees : List Tree} (hcallee : Printed Primary a t)
    (h : List.Forall₂ (Printed Enclosed) texts trees) :
    Printed Primary (a ++ "(" ++ Text.commaList texts ++ ")") (.call t trees) := by
  obtain ⟨ts, hspells, hprimary⟩ := hcallee
  obtain ⟨tss, hspells', htrees⟩ := spells_commaList h
  exact ⟨_, spells_bracketed rfl (by decide) rfl (by decide) hspells hspells',
    hprimary.call htrees⟩

/-- A sign in front of an operand that does not go on with it. -/
theorem prefixed {op : String} (hop : op ∈ prefixes)
    (hsymbol : ∀ rest, tokensFrom .between (op.toList ++ rest) =
      tokensFrom (.symbol op.toList) rest)
    (h : Printed Operand a t) {d : Char} (hfirst : a.toList.head? = some d)
    (hd : (Mode.symbol op.toList).extend? d = none) :
    Printed Operand (op ++ a) (.prefixed op t) := by
  obtain ⟨ts, hspells, hoperand⟩ := h
  exact ⟨_, hspells.signed hsymbol hfirst hd, hoperand.prefixed hop⟩

/-- Two operands with an operator between them read as its application. -/
theorem infixed {op : String} {n : Nat} (hop : infixLevel? op = some n) (hn : 4 ≤ n)
    (hsymbol : Separate (" " ++ op ++ " ") [.symbol op]) (ha : Printed Operand a s)
    (hb : Printed Operand b t) :
    Printed Enclosed (a ++ " " ++ op ++ " " ++ b) (.infixed op s t) := by
  obtain ⟨ts, hspells, hoperand⟩ := ha
  obtain ⟨ts', hspells', hoperand'⟩ := hb
  have htext := (hspells.append_separate hsymbol (c := ' ') (by simp) (.head _)).append_spells
    hspells'
  refine ⟨_, ?_, hoperand.infixed hop hn hoperand'⟩
  simpa [String.append_assoc] using htext

/-- Three operands with the signs between them read as a conditional. -/
theorem conditional (ha : Printed Operand a s) (hb : Printed Operand b t)
    (hc : Printed Operand c u) :
    Printed Enclosed (a ++ " ? " ++ b ++ " : " ++ c) (.conditional s t u) := by
  obtain ⟨ts, hspells, hoperand⟩ := ha
  obtain ⟨ts', hspells', hoperand'⟩ := hb
  obtain ⟨ts'', hspells'', hoperand''⟩ := hc
  have hquestion : Separate " ? " [.symbol "?"] := fun _ => rfl
  have hcolon : Separate " : " [.symbol ":"] := fun _ => rfl
  have htext := (((hspells.append_separate hquestion rfl (.head _)).append_spells
    hspells').append_separate hcolon rfl (.head _)).append_spells hspells''
  refine ⟨_, htext, ?_⟩
  simpa using hoperand.conditional hoperand' hoperand''

/-- Successive assignments are read from the right. -/
theorem assign (ha : Printed Enclosed a s) (hb : Printed Enclosed b t) :
    Printed Enclosed (a ++ " = " ++ b) (s.graft t) := by
  obtain ⟨ts, hspells, henclosed⟩ := ha
  obtain ⟨ts', hspells', henclosed'⟩ := hb
  have hsign : Separate " = " [.symbol "="] := fun _ => rfl
  have htext := (hspells.append_separate hsign rfl (.head _)).append_spells hspells'
  refine ⟨_, htext, ?_⟩
  simpa using henclosed.assign henclosed'

/-- A type in parentheses in front of an operand, with a blank between them. -/
theorem cast (ha : Printed IsType a b) (h : Printed Operand c t) :
    Printed Operand ("(" ++ a ++ ") " ++ c) (.cast b t) := by
  obtain ⟨ts, hspells, htype⟩ := ha
  obtain ⟨ts', hspells', hoperand⟩ := h
  have hopen : Separate "(" [.symbol "("] := separate_bracket (by decide) (by decide) rfl
  have hclose : Separate ") " [.symbol ")"] := fun _ => rfl
  have htext := ((hopen.append_spells hspells).append_separate hclose rfl
    (by decide)).append_spells hspells'
  refine ⟨_, htext, ?_⟩
  simpa using hoperand.cast htype

end Printed

end WasmLift.C
