import WasmLift.Code.Render
import WasmLift.Proofs.Reading.Operators

/-!
# Variables and accesses as C reads them

Variables, addresses in the frame and accesses are printed as terms: a term is read the same
wherever it stands, and no sign in front runs into it (`C.Term`). The exception is an address that
no slot covers, which is printed as a sum. An access at an address of zero is printed without the
zero.
-/

namespace WasmLift

namespace C

/-! ## Terms -/

/-- No sign in front of the text runs into it. -/
def Detached (text : String) : Prop :=
  ∃ c, text.toList.head? = some c ∧
    (Mode.symbol ['-']).extend? c = none ∧ (Mode.symbol ['!']).extend? c = none

theorem detached_word {text : String} {c : Char} (hhead : text.toList.head? = some c)
    (hc : isWordChar c = true) : Detached text :=
  ⟨c, hhead, extend_symbol_word _ hc, extend_symbol_word _ hc⟩

/-- The text is read the same wherever it stands, also behind a sign. -/
def Term (text : String) (t : Tree) : Prop :=
  Printed Operand text t ∧ Detached text

variable {text : String} {t : Tree}

theorem IsIdentifier.term (h : IsIdentifier text) : Term text (.name text) := by
  obtain ⟨c, cs, htext, hc, -⟩ := h.1.cons
  exact ⟨h.printed.operand, detached_word (c := c) (by simp [htext]) (by simp [isWordChar, hc])⟩

/-- A call of a function by its name. -/
theorem IsIdentifier.call {texts : List String} {trees : List Tree} (h : IsIdentifier text)
    (hargs : List.Forall₂ (Printed Enclosed) texts trees) :
    Term (text ++ "(" ++ Text.commaList texts ++ ")") (.call (.name text) trees) := by
  obtain ⟨c, cs, htext, hc, -⟩ := h.1.cons
  refine ⟨(h.printed.call hargs).operand, detached_word (c := c) ?_ (by simp [isWordChar, hc])⟩
  simp [htext]

theorem Printed.group_term (h : Printed Enclosed text t) : Term ("(" ++ text ++ ")") t :=
  ⟨h.group.operand, '(', by simp, by decide⟩

/-- The address of a variable. -/
theorem Printed.reference {d : Char} (h : Printed Primary text t)
    (hfirst : text.toList.head? = some d) (hd : isWordChar d = true) :
    Term ("&" ++ text) (.prefixed "&" t) :=
  ⟨h.operand.prefixed (by decide) (fun _ => rfl) hfirst (extend_symbol_word _ hd), '&', by simp,
    by decide⟩

/-- The memory at an address in parentheses. -/
theorem Printed.dereference (h : Printed Enclosed text t) :
    Term ("*(" ++ text ++ ")") (.prefixed "*" t) := by
  have hstar := h.group.operand.prefixed (show "*" ∈ prefixes by decide) (fun _ => rfl)
    (show ("(" ++ text ++ ")").toList.head? = some '(' by simp) (by decide)
  have htext : "*" ++ ("(" ++ text ++ ")") = "*(" ++ text ++ ")" :=
    String.toList_injective (by simp)
  rw [htext] at hstar
  exact ⟨hstar, '*', by simp, by decide⟩

end C

namespace Code

open C

variable {layout : FrameLayout}

/-! ## Variables and accesses -/

/-- The frame base as an expression. -/
def stackBaseTree (layout : FrameLayout) : Tree :=
  match layout.placeAt? 0 with
  | some ⟨0, 0⟩ => .prefixed "&" (.name (Spelling.slotName 0))
  | _ => .name "__stack_base"

/-- An address in the frame as an expression. -/
def stackAddressTree (layout : FrameLayout) (offset : Int) : Tree :=
  match layout.placeAt? offset with
  | some ⟨start, 0⟩ => .prefixed "&" (.name (Spelling.slotName start))
  | some ⟨start, diff⟩ =>
    .prefixed "&" (.index (.name (Spelling.slotName start)) (.number diff.repr))
  | none => .infixed "+" (stackBaseTree layout) (Literal.ofInt offset).tree

/-- A slot, or the bytes at a distance into it, as an expression. -/
def slotTree (place : SlotPlace) : Tree :=
  if place.diff = 0 then .name (Spelling.slotName place.offset)
  else .prefixed "*" (.infixed "+" (.prefixed "&" (.name (Spelling.slotName place.offset)))
    (.number place.diff.repr))

/-- The memory at an address plus a static offset. An address of zero is left out. -/
def derefTree (address : Tree) (isZero : Bool) (arg : MemArg) (ty : Ty) : Tree :=
  let pointer := Spelling.accessType ty arg.bytes arg.signed arg.atomic ++ " *"
  let displacement := (Literal.ofInt (BitVec.ofNat 64 arg.offset).toInt).tree
  .prefixed "*" <|
    if arg.offset = 0 then .cast pointer address
    else if isZero then .cast pointer displacement
    else .infixed "+" (.cast pointer address) displacement

theorem slotName_reference (offset : Int) :
    Term ("&" ++ Spelling.slotName offset) (.prefixed "&" (.name (Spelling.slotName offset))) :=
  (Spelling.isIdentifier_slotName offset).printed.reference (d := 'l')
    (by simp [Spelling.slotName_toList]) (by decide)

theorem term_stackBase : Term (stackBaseText layout) (stackBaseTree layout) := by
  have hbase : Term "__stack_base" (.name "__stack_base") := IsIdentifier.term (by decide)
  rw [stackBaseText, stackBaseTree]
  rcases layout.placeAt? 0 with _ | ⟨_ | start, _ | diff⟩
  case some.zero.zero => exact slotName_reference 0
  all_goals exact hbase

theorem term_stackAddress {offset : Int} (h : (layout.placeAt? offset).isNone = false) :
    Term (stackAddressText layout offset) (stackAddressTree layout offset) := by
  rw [stackAddressText, stackAddressTree]
  rcases hplace : layout.placeAt? offset with _ | ⟨start, _ | diff⟩
  · simp [hplace] at h
  · exact slotName_reference start
  · have hslot := (Spelling.isIdentifier_slotName start).printed
    have hdiff := (Spelling.isNumber_repr (diff + 1)).printed.operand.enclosed (by simp)
    have hplace := (hslot.index hdiff).reference (d := 'l')
      (by simp [Spelling.slotName_toList]) (by decide)
    have htext : "&" ++ (Spelling.slotName start ++ "[" ++ (diff + 1).repr ++ "]") =
        "&" ++ Spelling.slotName start ++ "[" ++ (diff + 1).repr ++ "]" :=
      String.toList_injective (by simp)
    rwa [htext] at hplace

theorem printed_stackAddress {offset : Int} (h : layout.placeAt? offset = none) :
    Printed Enclosed (stackAddressText layout offset) (stackAddressTree layout offset) := by
  rw [stackAddressText, stackAddressTree, h]
  exact Spelling.printed_sum term_stackBase.1 (Literal.shown_hexInt offset).operand

theorem term_slot (place : SlotPlace) : Term (slotText place) (slotTree place) := by
  unfold slotText slotTree
  split
  · exact (Spelling.isIdentifier_slotName _).term
  · have hsum := Spelling.printed_sum (slotName_reference place.offset).1
      (Spelling.isNumber_repr place.diff).printed.operand
    have hplace := hsum.dereference
    have htext : "*(" ++ ("&" ++ Spelling.slotName place.offset ++ " + " ++ place.diff.repr) ++
          ")" =
        "*(&" ++ Spelling.slotName place.offset ++ " + " ++ place.diff.repr ++ ")" :=
      String.toList_injective (by simp)
    rwa [htext] at hplace

theorem term_deref {address : String} {t : Tree} {isZero : Bool} (h : Printed Operand address t)
    (hzero : address = "0x0" ↔ isZero = true) (arg : MemArg) (ty : Ty) :
    Term (derefText address arg ty) (derefTree t isZero arg ty) := by
  have hpointer := Spelling.printed_accessType ty arg.bytes arg.signed arg.atomic
  have hdisplacement := (Literal.shown_hexInt (BitVec.ofNat 64 arg.offset).toInt).operand
  unfold derefText derefTree
  generalize Spelling.accessType ty arg.bytes arg.signed arg.atomic = type at hpointer
  dsimp only
  have hinside : Printed Enclosed ("(" ++ (type ++ " *") ++ ") " ++ addressText address arg.offset)
      (if arg.offset = 0 then .cast (type ++ " *") t
        else if isZero then
          .cast (type ++ " *") (Literal.ofInt (BitVec.ofNat 64 arg.offset).toInt).tree
        else .infixed "+" (.cast (type ++ " *") t)
          (Literal.ofInt (BitVec.ofNat 64 arg.offset).toInt).tree) := by
    unfold addressText
    dsimp only
    split
    · exact (hpointer.cast h).enclosed (by simp)
    · by_cases hisZero : isZero = true
      · rw [if_pos hisZero, if_pos (hzero.2 hisZero)]
        exact (hpointer.cast hdisplacement).enclosed (by simp)
      · rw [if_neg hisZero, if_neg fun heq => hisZero (hzero.1 heq)]
        have hsum := Spelling.printed_sum (hpointer.cast h) hdisplacement
        have htext : "(" ++ (type ++ " *") ++ ") " ++ address ++ " + " ++
              Text.hexInt (BitVec.ofNat 64 arg.offset).toInt =
            "(" ++ (type ++ " *") ++ ") " ++
              (address ++ " + " ++ Text.hexInt (BitVec.ofNat 64 arg.offset).toInt) := by
          simp only [String.append_assoc]
        rw [htext] at hsum
        exact hsum
  have htext (inside : String) : "*(" ++ ("(" ++ (type ++ " *") ++ ") " ++ inside) ++ ")" =
      "*((" ++ type ++ " *) " ++ inside ++ ")" :=
    String.toList_injective (by simp)
  have hderef := hinside.dereference
  rwa [htext] at hderef

end Code

end WasmLift
