import Mathlib.Tactic.CasesM
import WasmLift.Code.Render

/-!
# The characters of spelled texts

Numbers, variables, types and operators are spelled without a blank other than the space and without
a closing brace (`Text.Plain`). So no such text breaks a line, and none can be taken for the end of
a scope.
-/

namespace WasmLift

/-! ## Texts -/

namespace Text

/-- The character is a space, or neither a blank nor a closing brace. -/
def isPlain (c : Char) : Bool :=
  c == ' ' || !isBlank c && c != '}'

/-- All characters of the text are plain. -/
def Plain (s : String) : Prop :=
  ∀ c ∈ s.toList, isPlain c = true

instance (s : String) : Decidable (Plain s) :=
  List.decidableBAll (fun c => isPlain c = true) s.toList

/-- A text of two parts is plain if both are. -/
@[simp] theorem plain_append {s t : String} : Plain (s ++ t) ↔ Plain s ∧ Plain t := by
  simp [Plain, or_imp, forall_and]

/-- A text is plain if its characters are. -/
@[simp] theorem plain_ofList {cs : List Char} :
    Plain (String.ofList cs) ↔ ∀ c ∈ cs, isPlain c = true := by
  simp [Plain]

/-- A text that is put into another is plain as it is. -/
@[simp] theorem plain_toString {s : String} : Plain (toString s) ↔ Plain s := Iff.rfl

/-- A property of all characters of some texts is one of the texts joined. -/
theorem intercalate_all {P : Char → Prop} {between : String} {parts : List String}
    (hbetween : ∀ c ∈ between.toList, P c) (hparts : ∀ s ∈ parts, ∀ c ∈ s.toList, P c) :
    ∀ c ∈ (String.intercalate between parts).toList, P c := by
  induction parts with
  | nil => simp
  | cons s rest ih =>
    obtain ⟨hs, hrest⟩ := List.forall_mem_cons.1 hparts
    cases rest with
    | nil => simpa using hs
    | cons s' rest =>
      rw [String.intercalate_cons_cons, String.toList_append, String.toList_append]
      exact List.forall_mem_append.2 ⟨List.forall_mem_append.2 ⟨hs, hbetween⟩, ih hrest⟩

/-- Plain parts with something plain between them are plain together. -/
theorem plain_intercalate {between : String} {parts : List String} (hbetween : Plain between)
    (hparts : ∀ s ∈ parts, Plain s) : Plain (String.intercalate between parts) :=
  intercalate_all hbetween hparts

/-- A property of the first `base` digits is one of all characters of a number. -/
theorem toDigits_all {P : Char → Prop} {base : Nat} (hbase : 1 < base)
    (hP : ∀ d < base, P (Nat.digitChar d)) (n : Nat) : ∀ c ∈ Nat.toDigits base n, P c := by
  induction n using Nat.strongRecOn with
  | ind n ih =>
  by_cases hn : n < base
  · rw [Nat.toDigits_of_lt_base hn]
    exact List.forall_mem_singleton.2 (hP n hn)
  · rw [Nat.toDigits_of_base_le hbase (Nat.not_lt.1 hn), List.forall_mem_append]
    exact ⟨ih _ (Nat.div_lt_self (by omega) hbase),
      List.forall_mem_singleton.2 (hP _ (Nat.mod_lt n (by omega)))⟩

/-- Hexadecimal digits are plain. -/
theorem digitChar_plain : ∀ d < 16, isPlain (Nat.digitChar d) = true := by
  decide

/-- A number is spelled plainly in any base up to sixteen. -/
theorem toDigits_plain {base : Nat} (hlow : 1 < base) (hhigh : base ≤ 16) (n : Nat) :
    ∀ c ∈ Nat.toDigits base n, isPlain c = true :=
  toDigits_all hlow (fun d hd => digitChar_plain d (by omega)) n

/-- A number is spelled plainly. -/
@[simp] theorem plain_repr (n : Nat) : Plain n.repr := by
  rw [← Nat.toString_eq_repr, Nat.toString_eq_ofList_toDigits, plain_ofList]
  exact toDigits_plain (by decide) (by decide) n

/-- A hexadecimal number is spelled plainly. -/
theorem plain_hexNat (n : Nat) : Plain (hexNat n) :=
  plain_append.2 ⟨by decide, plain_ofList.2 (toDigits_plain (by decide) (by decide) _)⟩

/-- A hexadecimal number with a sign is spelled plainly. -/
@[simp] theorem plain_hexInt (v : Int) : Plain (hexInt v) := by
  unfold hexInt
  split
  · exact plain_append.2 ⟨by decide, plain_hexNat _⟩
  · exact plain_hexNat _

end Text

/-! ## Spelling -/

namespace Spelling

open Text

/-- A parameter is spelled plainly. -/
@[simp] theorem plain_paramName (index : Nat) : Plain (paramName index) := by
  simp +decide [paramName]

/-- A local is spelled plainly. -/
@[simp] theorem plain_localName (index : Nat) : Plain (localName index) := by
  simp +decide [localName]

/-- A stack slot is spelled plainly. -/
@[simp] theorem plain_slotName (offset : Int) : Plain (slotName offset) := by
  refine plain_append.2 ⟨by decide, plain_ofList.2 ?_⟩
  exact toDigits_plain (by decide) (by decide) _

/-- The symbol or the name that an operator is spelled with. -/
def BinaryForm.word : BinaryForm → String
  | .infixed word | .unsigned word | .call word => word

/-- The symbol, the name or the types that an operator is spelled with. -/
def UnaryForm.words : UnaryForm → List String
  | .prefixed word | .call word => [word]
  | .cast types => types

/-- The operators between two operands are spelled plainly. -/
theorem plain_binaryForm (op : BinOp) : Plain (binaryForm op).word := by
  casesm* BinOp, IntArith, IntRel, FloatArith, FloatRel, Width, Signedness <;> decide

/-- The types that operands are cast to are spelled plainly. -/
theorem plain_unsignedOperand (op : BinOp) : Plain (unsignedOperand op) := by
  have hwidth (w : Width) : Plain (unsignedType w) := by
    cases w <;> decide
  unfold unsignedOperand
  split <;> first | decide | exact hwidth _

/-- The operators on one operand are spelled plainly. -/
theorem plain_unaryForm (op : UnOp) : ∀ word ∈ (unaryForm op).words, Plain word := by
  casesm* UnOp, IntUnary, FloatUnary, Width, Signedness <;> decide

/-- Casts to plain types are plain. -/
theorem plain_casts {types : List String} (h : ∀ type ∈ types, Plain type) :
    Plain (casts types) := by
  refine plain_intercalate (by decide) fun s hs => ?_
  obtain ⟨type, htype, rfl⟩ := List.mem_map.1 hs
  have hplain := h type htype
  simp +decide [hplain]

/-- Types are spelled plainly. -/
theorem plain_typeName (ty : Ty) (bytes : Option Nat) : Plain (typeName ty bytes) := by
  unfold typeName
  repeat' split
  all_goals decide

/-- The types of accesses are spelled plainly. -/
theorem plain_accessType (ty : Ty) (bytes : Nat) (signed atomic : Bool) :
    Plain (accessType ty bytes signed atomic) := by
  unfold accessType
  refine plain_append.2 ⟨plain_append.2 ⟨?_, ?_⟩, plain_typeName ty (some bytes)⟩
  all_goals split <;> decide

/-- The digits of a decimal, with its point. -/
theorem positional_plain (d : Decimal.Numeral) : ∀ c ∈ d.positional, isPlain c = true := by
  have hdigits : ∀ c ∈ d.digitText, isPlain c = true :=
    toDigits_plain (by decide) (by decide) _
  have hzeros (n : Nat) : ∀ c ∈ List.replicate n '0', isPlain c = true := by
    intro c hc
    rw [List.eq_of_mem_replicate hc]
    decide
  have hpoint : isPlain '.' = true ∧ isPlain '0' = true := by decide
  unfold Decimal.Numeral.positional
  split
  · exact List.forall_mem_append.2 ⟨hdigits, hzeros _⟩
  · dsimp only
    split
    · refine List.forall_mem_append.2 ⟨fun c hc => hdigits c (List.mem_of_mem_take hc), ?_⟩
      exact List.forall_mem_cons.2 ⟨hpoint.1, fun c hc => hdigits c (List.mem_of_mem_drop hc)⟩
    · refine List.forall_mem_append.2 ⟨?_, hdigits⟩
      exact List.forall_mem_cons.2 ⟨hpoint.2, List.forall_mem_cons.2 ⟨hpoint.1, hzeros _⟩⟩

/-- Numbers with a point are spelled plainly. -/
theorem plain_float (u : Decimal.Unpacked) : Plain (float u) := by
  have hpositional {m : Decimal.Magnitude} {cs : List Char} (hcs : m.positional? = some cs) :
      ∀ c ∈ cs, isPlain c = true := by
    cases m with
    | notANumber | infinite => cases hcs
    | zero =>
      cases hcs
      exact List.all_eq_true.1 (by decide)
    | finite =>
      obtain ⟨d, -, rfl⟩ := Option.map_eq_some_iff.1 hcs
      exact positional_plain d
  have hdigits (m : Decimal.Magnitude) :
      ∀ c ∈ (m.positional?.map Decimal.withFraction).getD [], isPlain c = true := by
    cases hm : m.positional? with
    | none => exact List.forall_mem_nil _
    | some cs =>
      have hcs := hpositional hm
      simp only [Option.map_some, Option.getD_some, Decimal.withFraction]
      split
      · exact hcs
      · exact List.forall_mem_append.2 ⟨hcs, List.all_eq_true.1 (by decide)⟩
  unfold float Decimal.Unpacked.text
  split
  · decide
  · split <;> decide
  · have hbody := plain_ofList.2 (hdigits u.magnitude)
    split
    · exact plain_append.2 ⟨by decide, hbody⟩
    · exact hbody

/-- Constants are spelled plainly. -/
theorem plain_number (value : Value) : Plain (number value) := by
  cases value with
  | i32 | i64 => exact plain_hexInt _
  | f32 | f64 => exact plain_float _

end Spelling

namespace Code

open Text

variable {layout : FrameLayout}

/-- Labels are spelled plainly. -/
theorem plain_labelText (label : Label) : Plain label.text := by
  simp +decide [Label.text]

/-- Places in slots are spelled plainly. -/
theorem plain_slotText (place : SlotPlace) : Plain (slotText place) := by
  unfold slotText
  split <;> simp +decide

/-- The frame base is spelled plainly. -/
theorem plain_stackBaseText : Plain (stackBaseText layout) := by
  unfold stackBaseText
  split <;> simp +decide

/-- Addresses in the frame are spelled plainly. -/
theorem plain_stackAddressText (offset : Int) : Plain (stackAddressText layout offset) := by
  unfold stackAddressText
  split <;> simp +decide [plain_stackBaseText]

/-- Jumps are spelled plainly. -/
theorem plain_jumpText (uses : LabelUses) (label : Label) : Plain (jumpText uses label) := by
  unfold jumpText
  split <;> decide

end Code

end WasmLift
