import WasmLift.Proofs.Reading.Literals

/-!
# Names, operators and types as C reads them

The names that are made up are identifiers. Every operator between two operands binds more tightly
than a conditional, and the types of casts and accesses are types of C.
-/

namespace WasmLift

open C

namespace Spelling

/-! ## Names -/

/-- A word that begins as no keyword does. -/
theorem isIdentifier_append (begin : String) {rest : String} (hbegin : IsWord begin)
    (hkeywords : ∀ k ∈ keywords, ¬ begin.toList <+: k.toList)
    (hrest : ∀ c ∈ rest.toList, isWordChar c = true) : IsIdentifier (begin ++ rest) := by
  refine ⟨⟨?_, ?_⟩, fun hmem => hkeywords _ hmem ?_⟩
  · obtain ⟨c, cs, htext, hc, -⟩ := hbegin.cons
    simp [htext, hc]
  · rw [String.toList_append, List.all_append, hbegin.2, List.all_eq_true.2 hrest]
    rfl
  · rw [String.toList_append]
    exact List.prefix_append _ _

/-- A decimal number consists of characters of words. -/
theorem isWordChar_repr (n : Nat) : ∀ c ∈ n.repr.toList, isWordChar c = true := by
  have hdigit : ∀ d < 10, isWordChar (Nat.digitChar d) = true := by decide
  rw [← Nat.toString_eq_repr, Nat.toString_eq_ofList_toDigits, String.toList_ofList]
  exact Text.toDigits_all (by decide) hdigit n

/-- The name of a parameter is an identifier. -/
theorem isIdentifier_paramName (index : Nat) : IsIdentifier (paramName index) :=
  isIdentifier_append "param" (by decide) (by decide) (isWordChar_repr index)

/-- The name of a local is an identifier. -/
theorem isIdentifier_localName (index : Nat) : IsIdentifier (localName index) :=
  isIdentifier_append "local" (by decide) (by decide) (isWordChar_repr index)

/-- The name of a slot is an identifier. -/
theorem isIdentifier_slotName (offset : Int) : IsIdentifier (slotName offset) := by
  have hdigit : ∀ d < 16, isWordChar (Nat.digitChar d) = true := by decide
  refine isIdentifier_append "local_" (by decide) (by decide) ?_
  rw [String.toList_ofList]
  exact Text.toDigits_all (by decide) hdigit _

/-- A decimal number is a number in C. -/
theorem isNumber_repr (n : Nat) : IsNumber n.repr := by
  refine isNumber_of_isDecimal ?_
  rw [← Nat.toString_eq_repr, Nat.toString_eq_ofList_toDigits, String.toList_ofList]
  exact Decimal.isDecimal_toDigits n

/-! ## Operators -/

/-- The symbol of an operator between two operands. -/
def BinaryForm.symbol? : BinaryForm → Option String
  | .infixed symbol | .unsigned symbol => some symbol
  | .call _ => none

/-- The symbols between two operands. -/
def infixes : List String :=
  ["+", "-", "*", "/", "%", "&", "|", "^", "<<", ">>", "==", "!=", "<", ">", "<=", ">="]

/-- The symbol of a binary operation is one of the infixes. -/
theorem symbol_infixes (op : BinOp) : ∀ symbol ∈ (binaryForm op).symbol?, symbol ∈ infixes := by
  casesm* BinOp, IntArith, IntRel, FloatArith, FloatRel, Width, Signedness <;> decide

/-- Every infix binds more tightly than a conditional. -/
theorem level_infixes : ∀ symbol ∈ infixes, (infixLevel? symbol).any (4 ≤ ·) = true := by
  decide

/-- An infix between blanks is one symbol. -/
theorem separate_infixes :
    ∀ symbol ∈ infixes, Separate (" " ++ symbol ++ " ") [.symbol symbol] := by
  intro symbol hsymbol
  simp only [infixes, List.mem_cons, List.not_mem_nil, or_false] at hsymbol
  rcases hsymbol with rfl | rfl | rfl | rfl | rfl | rfl | rfl | rfl | rfl | rfl | rfl | rfl | rfl |
    rfl | rfl | rfl <;> exact fun _ => rfl

/-- Two operands with an infix between them read as its application. -/
theorem printed_infix {symbol left right : String} (hsymbol : symbol ∈ infixes) {l r : Tree}
    (hl : Printed Operand left l) (hr : Printed Operand right r) :
    Printed Enclosed (left ++ " " ++ symbol ++ " " ++ right) (.infixed symbol l r) := by
  obtain ⟨n, hlevel, hn⟩ := (Option.any_eq_true _ _).1 (level_infixes symbol hsymbol)
  exact hl.infixed hlevel (of_decide_eq_true hn) (separate_infixes symbol hsymbol) hr

/-- Two operands with a plus sign between them read as their sum. -/
theorem printed_sum {left right : String} {l r : Tree} (hl : Printed Operand left l)
    (hr : Printed Operand right r) :
    Printed Enclosed (left ++ " + " ++ right) (.infixed "+" l r) := by
  have htext : left ++ " " ++ "+" ++ " " ++ right = left ++ " + " ++ right :=
    String.toList_injective (by simp)
  have hsum := printed_infix (show "+" ∈ infixes by decide) hl hr
  rwa [htext] at hsum

/-- A binary operation that is printed as a call has an identifier for its name. -/
theorem binaryForm_call {op : BinOp} {name : String} (h : binaryForm op = .call name) :
    IsIdentifier name := by
  casesm* BinOp, IntArith, IntRel, FloatArith, FloatRel, Width, Signedness <;> cases h <;> decide

/-- A unary operation with a symbol in front is a negation. -/
theorem unaryForm_prefixed {op : UnOp} {symbol : String} (h : unaryForm op = .prefixed symbol) :
    symbol = "!" ∨ symbol = "-" := by
  casesm* UnOp, IntUnary, FloatUnary, Width, Signedness <;> cases h <;> decide

/-- A unary operation that is printed as a call has an identifier for its name. -/
theorem unaryForm_call {op : UnOp} {name : String} (h : unaryForm op = .call name) :
    IsIdentifier name := by
  casesm* UnOp, IntUnary, FloatUnary, Width, Signedness <;> cases h <;> decide

/-- The types to which an operand is cast. -/
def castTypes : List String :=
  ["char", "short", "int", "long", "unsigned int", "unsigned long", "float", "double"]

/-- A unary operation that is printed as casts has types for them. -/
theorem unaryForm_cast {op : UnOp} {types : List String} (h : unaryForm op = .cast types) :
    types ≠ [] ∧ ∀ ty ∈ types, ty ∈ castTypes := by
  casesm* UnOp, IntUnary, FloatUnary, Width, Signedness <;> cases h <;> decide

/-- Operands are cast to types of C. -/
theorem unsignedOperand_castTypes (op : BinOp) : unsignedOperand op ∈ castTypes := by
  have hwidth (w : Width) : unsignedType w ∈ castTypes := by
    cases w <;> decide
  unfold unsignedOperand
  split <;> first | decide | exact hwidth _

/-- The types of casts read as types. -/
theorem printed_castTypes : ∀ ty ∈ castTypes, Printed IsType ty ty := by
  have hsingle {ty : String} (h : ty ∈ typeWords) : Printed IsType ty ty := by
    simpa using printed_type [ty] (by simp) (by simpa using h)
  have hunsigned (ty : String) (h : ty ∈ typeWords) :
      Printed IsType ("unsigned " ++ ty) ("unsigned " ++ ty) := by
    have hwords : ∀ w ∈ ["unsigned", ty], w ∈ typeWords :=
      List.forall_mem_cons.2 ⟨by decide, by simpa using h⟩
    have htype := printed_type ["unsigned", ty] (by simp) hwords
    rw [String.intercalate_cons_cons, String.intercalate_singleton] at htype
    exact htype
  intro ty hty
  simp only [castTypes, List.mem_cons, List.not_mem_nil, or_false] at hty
  rcases hty with rfl | rfl | rfl | rfl | rfl | rfl | rfl | rfl
  case inr.inr.inr.inr.inl => exact hunsigned "int" (by decide)
  case inr.inr.inr.inr.inr.inl => exact hunsigned "long" (by decide)
  all_goals exact hsingle (by decide)

/-- Casts in front of an operand, the outermost first. -/
theorem printed_casts {types : List String} (hne : types ≠ []) (h : ∀ ty ∈ types, ty ∈ castTypes)
    {operand : String} {t : Tree} (hoperand : Printed Operand operand t) :
    Printed Operand (casts types ++ " " ++ operand) (types.foldr .cast t) := by
  induction types with
  | nil => exact absurd rfl hne
  | cons ty types ih =>
    obtain ⟨hty, htypes⟩ := List.forall_mem_cons.1 h
    have hcast := printed_castTypes ty hty
    cases types with
    | nil =>
      have htext : casts [ty] ++ " " ++ operand = "(" ++ ty ++ ") " ++ operand := by
        refine String.toList_injective ?_
        simp only [casts, String.toList_append, List.map_cons, List.map_nil,
          String.intercalate_singleton, List.append_assoc]
        rfl
      rw [htext]
      exact hcast.cast hoperand
    | cons ty' types =>
      have htext : casts (ty :: ty' :: types) ++ " " ++ operand =
          "(" ++ ty ++ ") " ++ (casts (ty' :: types) ++ " " ++ operand) := by
        refine String.toList_injective ?_
        simp only [casts, String.toList_append, List.map_cons, String.intercalate_cons_cons,
          List.append_assoc]
        rfl
      rw [htext]
      exact hcast.cast (ih (by simp) htypes)

/-- The type of an access, as a pointer points to it. -/
theorem printed_accessType (ty : Ty) (bytes : Nat) (signed atomic : Bool) :
    Printed IsType (accessType ty bytes signed atomic ++ " *")
      (accessType ty bytes signed atomic ++ " *") := by
  have hname : typeName ty (some bytes) ∈ typeWords := by
    unfold typeName
    repeat' split
    all_goals decide
  obtain ⟨words, hne, hwords, hspelled⟩ : ∃ words, words ≠ [] ∧ (∀ w ∈ words, w ∈ typeWords) ∧
      accessType ty bytes signed atomic = " ".intercalate words := by
    have hall (before : List String) (h : ∀ w ∈ before, w ∈ typeWords) :
        ∀ w ∈ before ++ [typeName ty (some bytes)], w ∈ typeWords :=
      List.forall_mem_append.2 ⟨h, List.forall_mem_singleton.2 hname⟩
    unfold accessType
    split <;> split
    · refine ⟨["_Atomic", "unsigned"] ++ [_], by simp, hall _ (by decide), ?_⟩
      exact String.toList_injective (by simp)
    · refine ⟨["_Atomic"] ++ [_], by simp, hall _ (by decide), ?_⟩
      exact String.toList_injective (by simp)
    · refine ⟨["unsigned"] ++ [_], by simp, hall _ (by decide), ?_⟩
      exact String.toList_injective (by simp)
    · exact ⟨[] ++ [_], by simp, hall _ (by decide), String.toList_injective (by simp)⟩
  rw [hspelled]
  exact printed_pointer words hne hwords

end Spelling

end WasmLift
