import Mathlib.Algebra.Group.Nat.Defs
import WasmLift.Proofs.Listing.Declarations
import WasmLift.Proofs.Listing.Lines
import WasmLift.Proofs.Reading.Phrases

/-!
# Numbers and types as C reads them

An integer is printed as a hexadecimal number and a float as a decimal one, for there is always a
shortest decimal (`Decimal.Interval.shortest?_isSome`). A minus sign in front of the magnitude is an
operator.
-/

namespace WasmLift

/-! ## The shortest decimal -/

namespace Decimal

/-- Nothing is finer than the last place of the least numbers. -/
def Magnitude.InRange : Magnitude → Prop
  | .finite mantissa exponent _ => 0 < mantissa ∧ -1074 ≤ exponent
  | _ => True

/-- The magnitude of a float is in the range for which decimals are searched. -/
theorem Format.unpack_inRange {f : Format} (hf : f = .single ∨ f = .double) (bits : Nat) :
    (f.unpack bits).magnitude.InRange := by
  have hleast : -1074 ≤ 1 - (f.bias : Int) - f.fractionBits := by
    rcases hf with rfl | rfl <;> decide
  unfold Format.unpack
  dsimp only
  split
  · split <;> trivial
  · split
    · split
      · trivial
      · exact ⟨by omega, hleast⟩
    · have hplace : 0 < 1 <<< f.fractionBits := by
        rw [Nat.one_shiftLeft]
        exact Nat.two_pow_pos _
      exact ⟨by omega, by omega⟩

namespace Interval

/-- A decimal is found if one of the grids that are scanned has a point in the interval. -/
theorem scan_isSome {i : Interval} {grids : Nat} {k : Int} {j : Nat} (hj : j < grids)
    (h : (i.gridPoint? (k - j)).isSome) : (i.scan grids k).isSome := by
  induction grids generalizing k j with
  | zero => cases hj
  | succ grids ih =>
    rw [scan]
    split
    · rfl
    · next hnone =>
      cases j with
      | zero => simp [hnone] at h
      | succ j =>
        refine ih (j := j) (by omega) ?_
        rwa [show k - 1 - (j : Int) = k - ((j + 1 : Nat) : Int) by omega]

/-- On a grid that is as fine as a quarter of the last place, the point above the value rounds to
it. -/
theorem gridPoint?_isSome {i : Interval} {k : Int} (hmantissa : 0 < i.mantissa)
    (hstep : i.gridUnits k ≤ i.quarterUnits k) (hpos : 0 < i.gridUnits k) :
    (i.gridPoint? k).isSome := by
  -- The interval reaches two quarters above the value, which is more than one step of the grid.
  have habove : i.contains k (i.value * i.quarterUnits k / i.gridUnits k + 1) = true := by
    have hbefore : i.value * i.quarterUnits k <
        (i.value * i.quarterUnits k / i.gridUnits k + 1) * i.gridUnits k :=
      Nat.lt_mul_of_div_lt (Nat.lt_succ_self _) hpos
    have hafter : (i.value * i.quarterUnits k / i.gridUnits k + 1) * i.gridUnits k ≤
        i.value * i.quarterUnits k + i.gridUnits k := by
      rw [Nat.add_mul, Nat.one_mul]
      exact Nat.add_le_add_right (Nat.div_mul_le_self _ _) _
    have hlow : i.lower * i.quarterUnits k ≤ i.value * i.quarterUnits k := by
      refine Nat.mul_le_mul_right _ ?_
      unfold lower value
      split <;> omega
    have hhigh : i.upper * i.quarterUnits k = i.value * i.quarterUnits k + 2 * i.quarterUnits k :=
      Nat.add_mul _ _ _
    unfold contains
    dsimp only
    split <;> simp only [Bool.and_eq_true, decide_eq_true_eq] <;> omega
  unfold gridPoint?
  dsimp only
  rw [habove]
  cases i.contains k (i.value * i.quarterUnits k / i.gridUnits k) <;> rfl

/-- There is a shortest decimal in the interval of a float. -/
theorem shortest?_isSome {i : Interval} (hmantissa : 0 < i.mantissa)
    (hexponent : -1074 ≤ i.exponent) : i.shortest?.isSome := by
  have hgrid : i.gridUnits (310 - (659 : Nat)) = 2 ^ (2 - i.exponent).toNat := by
    rw [gridUnits, Nat.shiftLeft_eq]
    exact Nat.one_mul _
  have hfiner (bound : Nat) {k : Int} (hbound : (2 - i.exponent).toNat ≤ bound)
      (hpower : 2 ^ bound ≤ Nat.pow 10 (-k).toNat) :
      2 ^ (2 - i.exponent).toNat ≤ i.quarterUnits k := by
    rw [quarterUnits, Nat.shiftLeft_eq]
    calc 2 ^ (2 - i.exponent).toNat
      _ ≤ 2 ^ bound := Nat.pow_le_pow_right Nat.two_pos hbound
      _ ≤ Nat.pow 10 (-k).toNat := hpower
      _ ≤ Nat.pow 10 (-k).toNat * 2 ^ (i.exponent - 2).toNat :=
        Nat.le_mul_of_pos_right _ (Nat.two_pow_pos _)
  -- The last grid that is tried is fine enough for the least exponent.
  refine scan_isSome (j := 659) (by decide) (gridPoint?_isSome hmantissa ?_ ?_)
  · rw [hgrid]
    exact hfiner 1076 (by omega) (by decide +kernel)
  · rw [hgrid]
    exact Nat.two_pow_pos _

end Interval

/-- Digits and points, the first character being a digit. -/
structure IsDecimal (cs : List Char) : Prop where
  first : ∃ c, cs.head? = some c ∧ c.isDigit = true
  all : ∀ c ∈ cs, c.isDigit = true ∨ c = '.'

/-- Digits and points may follow a decimal. -/
theorem IsDecimal.append {cs cs' : List Char} (h : IsDecimal cs)
    (h' : ∀ c ∈ cs', c.isDigit = true ∨ c = '.') : IsDecimal (cs ++ cs') := by
  obtain ⟨c, hhead, hc⟩ := h.first
  exact ⟨⟨c, by simp [List.head?_append, hhead], hc⟩,
    fun d hd => (List.mem_append.1 hd).elim (h.all d) (h' d)⟩

/-- The digits of a number are a decimal. -/
theorem isDecimal_toDigits (n : Nat) : IsDecimal (Nat.toDigits 10 n) := by
  have hdigit : ∀ d < 10, (Nat.digitChar d).isDigit = true := by decide
  have hall : ∀ c ∈ Nat.toDigits 10 n, c.isDigit = true := Text.toDigits_all (by decide) hdigit n
  have hsome : Nat.toDigits 10 n ≠ [] := Nat.toDigits_ne_nil
  exact ⟨⟨_, List.head?_eq_some_head hsome, hall _ (List.head_mem hsome)⟩,
    fun c hc => .inl (hall c hc)⟩

/-- A numeral is printed as a decimal. -/
theorem Numeral.isDecimal_positional (d : Numeral) : IsDecimal d.positional := by
  have hdigits : IsDecimal d.digitText := isDecimal_toDigits d.digits
  have hzeros {n : Nat} {c : Char} (hc : c ∈ List.replicate n '0') :
      c.isDigit = true ∨ c = '.' := by
    rw [List.eq_of_mem_replicate hc]
    decide
  unfold positional
  dsimp only
  split
  · exact hdigits.append fun _ => hzeros
  · split
    · next hplaces =>
      obtain ⟨c, hhead, hc⟩ := hdigits.first
      have htake : IsDecimal (d.digitText.take (d.digitText.length - d.exponent.natAbs)) := by
        refine ⟨⟨c, ?_, hc⟩, fun e he => hdigits.all e (List.mem_of_mem_take he)⟩
        rw [List.head?_take, if_neg (by omega), hhead]
      refine htake.append (List.forall_mem_cons.2 ⟨.inr rfl, fun e he => ?_⟩)
      exact hdigits.all e (List.mem_of_mem_drop he)
    · refine ⟨⟨'0', rfl, by decide⟩, List.forall_mem_cons.2 ⟨by decide, ?_⟩⟩
      refine List.forall_mem_cons.2 ⟨by decide, List.forall_mem_append.2 ⟨fun _ => hzeros, ?_⟩⟩
      exact hdigits.all

/-- A decimal with a fraction added where it has none is a decimal. -/
theorem isDecimal_withFraction {cs : List Char} (h : IsDecimal cs) :
    IsDecimal (withFraction cs) := by
  unfold withFraction
  split
  · exact h
  · exact h.append (by simp)

/-- A number that is neither infinite nor undefined. -/
def Magnitude.IsNumber : Magnitude → Prop
  | .notANumber | .infinite => False
  | .zero | .finite _ _ _ => True

/-- A magnitude that is a number is printed as a decimal. -/
theorem Magnitude.isDecimal {m : Magnitude} (h : m.IsNumber) (hrange : m.InRange) :
    ∃ cs, m.positional? = some cs ∧ IsDecimal cs := by
  cases m with
  | notANumber | infinite => cases h
  | zero => exact ⟨['0'], rfl, ⟨'0', rfl, by decide⟩, List.forall_mem_singleton.2 (.inl rfl)⟩
  | finite mantissa exponent onBoundary =>
    obtain ⟨d, hd⟩ := Option.isSome_iff_exists.1
      (Interval.shortest?_isSome (i := ⟨mantissa, exponent, onBoundary⟩) hrange.1 hrange.2)
    exact ⟨d.positional, by simp [positional?, hd], d.isDecimal_positional⟩

end Decimal

namespace Spelling

/-- A number in digits. -/
theorem float_isDecimal {m : Decimal.Magnitude} (h : m.IsNumber) (hrange : m.InRange) :
    Decimal.IsDecimal (float ⟨false, m⟩).toList := by
  obtain ⟨cs, hcs, hdecimal⟩ := m.isDecimal h hrange
  cases m with
  | notANumber | infinite => cases h
  | zero | finite =>
    simpa [float, Decimal.Unpacked.text, hcs] using Decimal.isDecimal_withFraction hdecimal

/-- A negative float is printed as its magnitude behind a minus sign. -/
theorem float_negative {m : Decimal.Magnitude} (h : m.IsNumber) :
    float ⟨true, m⟩ = "-" ++ float ⟨false, m⟩ := by
  cases m with
  | notANumber | infinite => cases h
  | zero | finite => rfl

end Spelling

namespace C

/-- The characters are those of a number without a sign. -/
theorem isNumber_of_isDecimal {text : String} (h : Decimal.IsDecimal text.toList) :
    IsNumber text := by
  obtain ⟨c, hhead, hc⟩ := h.first
  obtain ⟨cs, hcs⟩ : ∃ cs, text.toList = c :: cs := by
    cases hlist : text.toList with
    | nil => simp [hlist] at hhead
    | cons d cs => exact ⟨cs, by rw [hlist] at hhead; cases hhead; rfl⟩
  refine ⟨c, cs, hcs, hc, fun d hd => ?_⟩
  rcases h.all d (hcs ▸ .tail _ hd) with hdigit | rfl
  · simp [isWordChar, hdigit]
  · decide

/-- A hexadecimal number is a number in C. -/
theorem isNumber_hexNat (n : Nat) : IsNumber (Text.hexNat n) := by
  have hdigit : ∀ d < 16, isWordChar (Nat.digitChar d) = true := by decide
  have hdigits : ∀ c ∈ Text.hexDigits n, isWordChar c = true :=
    Text.toDigits_all (by decide) hdigit n
  refine ⟨'0', 'x' :: Text.hexDigits n, by simp [Text.hexNat], by decide, ?_⟩
  exact List.forall_mem_cons.2 ⟨by decide, fun c hc => by simp [hdigits c hc]⟩

/-! ## Literals -/

/-- A number as it is printed: a magnitude, with a minus sign in front or without. -/
structure Literal where
  negative : Bool
  magnitude : Tree

namespace Literal

/-- A minus sign is an operator. -/
def tree (l : Literal) : Tree :=
  if l.negative then .prefixed "-" l.magnitude else l.magnitude

/-- A signed hexadecimal number. -/
def ofInt (v : Int) : Literal :=
  ⟨v < 0, .number (Text.hexNat v.natAbs)⟩

/-- A floating-point number. -/
def ofFloat (u : Decimal.Unpacked) : Literal :=
  match u.magnitude with
  | .notANumber => ⟨false, .name Spelling.exceptional.notANumber⟩
  | .infinite => ⟨u.negative, .name Spelling.exceptional.infinite⟩
  | m => ⟨u.negative, .number (Spelling.float ⟨false, m⟩)⟩

/-- A constant. -/
def ofValue : Value → Literal
  | .i32 word => ofInt word.toInt
  | .i64 word => ofInt word.toInt
  | .f32 bits => ofFloat (Decimal.Format.single.unpack bits.toNat)
  | .f64 bits => ofFloat (Decimal.Format.double.unpack bits.toNat)

/-- The text is a name or number behind the sign that the literal has. -/
def Shown (l : Literal) (text : String) : Prop :=
  ∃ body, text = (if l.negative then "-" ++ body else body) ∧ Printed Primary body l.magnitude ∧
    ∃ c, body.toList.head? = some c ∧ isWordChar c = true

/-- A name is read as a literal, behind a minus sign or not. -/
theorem shown_name {text : String} (h : IsIdentifier text) (negative : Bool) :
    Shown ⟨negative, .name text⟩ (if negative then "-" ++ text else text) := by
  obtain ⟨c, cs, htext, hc, -⟩ := h.1.cons
  exact ⟨text, rfl, h.printed, c, by simp [htext], by simp [isWordChar, hc]⟩

/-- A number is read as a literal, behind a minus sign or not. -/
theorem shown_number {text : String} (h : IsNumber text) (negative : Bool) :
    Shown ⟨negative, .number text⟩ (if negative then "-" ++ text else text) := by
  have hprinted := h.printed
  obtain ⟨c, cs, htext, hc, -⟩ := h
  exact ⟨text, rfl, hprinted, c, by simp [htext], by simp [isWordChar, hc]⟩

/-- An integer is read as the literal it is printed for. -/
theorem shown_hexInt (v : Int) : (ofInt v).Shown (Text.hexInt v) := by
  have h := shown_number (isNumber_hexNat v.natAbs) (decide (v < 0))
  simpa [Text.hexInt, ofInt] using h

/-- A float is read as the literal it is printed for. -/
theorem shown_float {u : Decimal.Unpacked} (hrange : u.magnitude.InRange) :
    (ofFloat u).Shown (Spelling.float u) := by
  obtain ⟨negative, m⟩ := u
  have hdigits (hm : m.IsNumber) : Shown ⟨negative, .number (Spelling.float ⟨false, m⟩)⟩
      (Spelling.float ⟨negative, m⟩) := by
    have h := shown_number (isNumber_of_isDecimal (Spelling.float_isDecimal hm hrange)) negative
    cases negative with
    | false => exact h
    | true => rwa [Spelling.float_negative hm]
  cases m with
  | notANumber => exact shown_name (by decide) false
  | infinite => exact shown_name (by decide) negative
  | zero | finite => exact hdigits trivial

/-- A constant is read as the literal it is printed for. -/
theorem shown_value (value : Value) : (ofValue value).Shown (Spelling.number value) := by
  cases value with
  | i32 | i64 => exact shown_hexInt _
  | f32 => exact shown_float (Decimal.Format.unpack_inRange (.inl rfl) _)
  | f64 => exact shown_float (Decimal.Format.unpack_inRange (.inr rfl) _)

/-- A number is no operator between two operands. -/
theorem tree_plain (value : Value) (op : String) (left right : Tree) :
    (ofValue value).tree ≠ .infixed op left right := by
  have hfloat (u : Decimal.Unpacked) : (ofFloat u).magnitude ≠ .infixed op left right := by
    unfold ofFloat
    split <;> exact Tree.noConfusion
  have hmagnitude : (ofValue value).magnitude ≠ .infixed op left right := by
    cases value with
    | i32 | i64 => exact Tree.noConfusion
    | f32 | f64 => exact hfloat _
  unfold tree
  split
  · exact Tree.noConfusion
  · exact hmagnitude

variable {l : Literal} {text : String}

/-- A literal stands as an operand. -/
theorem Shown.operand (h : l.Shown text) : Printed Operand text l.tree := by
  obtain ⟨body, rfl, hbody, c, hhead, hc⟩ := h
  unfold tree
  split
  · exact hbody.operand.prefixed (by decide) (fun _ => rfl) hhead (extend_symbol_word _ hc)
  · exact hbody.operand

/-- Without a minus sign a literal begins with a letter or digit. -/
theorem Shown.first (h : l.Shown text) (hnegative : l.negative = false) :
    ∃ c, text.toList.head? = some c ∧ isWordChar c = true := by
  obtain ⟨body, rfl, -, c, hhead, hc⟩ := h
  exact ⟨c, by simpa [hnegative] using hhead, hc⟩

/-- A negative literal begins with a minus sign. -/
theorem Shown.first_negative (h : l.Shown text) (hnegative : l.negative = true) :
    text.toList.head? = some '-' := by
  obtain ⟨body, rfl, -⟩ := h
  simp [hnegative]

/-- Two minus signs in front of a magnitude are one operator. -/
theorem Shown.minus (h : l.Shown text) (hnegative : l.negative = true) :
    Printed Operand ("-" ++ text) (.prefixed "--" l.magnitude) := by
  obtain ⟨body, rfl, hbody, c, hhead, hc⟩ := h
  have hminus := hbody.operand.prefixed (show "--" ∈ prefixes by decide) (fun _ => rfl) hhead
    (extend_symbol_word _ hc)
  rw [if_pos hnegative, ← String.append_assoc]
  exact hminus

end Literal

/-- Only an integer zero is printed as `0x0`. -/
theorem number_eq_zero {value : Value} (h : Spelling.number value = "0x0") :
    value = .i32 0 ∨ value = .i64 0 := by
  have hint {v : Int} (hv : Text.hexInt v = "0x0") : v = 0 := by
    have hlist := congrArg String.toList hv
    unfold Text.hexInt at hlist
    split at hlist
    · simp [Text.hexNat] at hlist
    · have hdigits : Text.hexDigits v.natAbs = ['0'] := by
        simpa [Text.hexNat] using hlist
      exact Int.natAbs_eq_zero.1 (Text.hexDigits_injective (n := 0) hdigits)
  have hfloat {u : Decimal.Unpacked} (hrange : u.magnitude.InRange) :
      Spelling.float u ≠ "0x0" := by
    obtain ⟨negative, m⟩ := u
    have hdigits (hm : m.IsNumber) : Spelling.float ⟨negative, m⟩ ≠ "0x0" := by
      intro hzero
      cases negative with
      | true =>
        rw [Spelling.float_negative hm] at hzero
        have hlist := congrArg String.toList hzero
        simp at hlist
      | false =>
        have hx := (Spelling.float_isDecimal hm hrange).all 'x' (by simp [hzero])
        revert hx
        decide
    cases m with
    | notANumber | infinite => cases negative <;> decide
    | zero | finite => exact hdigits trivial
  cases value with
  | i32 word => exact .inl (congrArg Value.i32 (BitVec.eq_of_toInt_eq (hint h)))
  | i64 word => exact .inr (congrArg Value.i64 (BitVec.eq_of_toInt_eq (hint h)))
  | f32 => exact absurd h (hfloat (Decimal.Format.unpack_inRange (.inl rfl) _))
  | f64 => exact absurd h (hfloat (Decimal.Format.unpack_inRange (.inr rfl) _))

/-! ## Types -/

/-- The words that types are printed with are words in C. -/
theorem isWord_typeWords : ∀ w ∈ typeWords, IsWord w := by
  decide

/-- The words of a type, with blanks between them. -/
theorem spells_words {words : List String} (h : ∀ w ∈ words, w ∈ typeWords) :
    Spells (" ".intercalate words) (words.map .word) := by
  induction words with
  | nil => exact fun _ _ => rfl
  | cons w words ih =>
    obtain ⟨hw, hwords⟩ := List.forall_mem_cons.1 h
    have hword := (isWord_typeWords w hw).spells
    cases words with
    | nil => simpa using hword
    | cons w' words =>
      have hblank : Separate " " [] := fun _ => rfl
      simpa using (hword.append_separate hblank rfl (.head _)).append_spells (ih hwords)

/-- Words of types with spaces between them are read as a type. -/
theorem printed_type (words : List String) (hne : words ≠ []) (h : ∀ w ∈ words, w ∈ typeWords) :
    Printed IsType (" ".intercalate words) (" ".intercalate words) :=
  ⟨_, spells_words h, isType_words hne h⟩

/-- A pointer to a type, with a blank in front of the star. -/
theorem printed_pointer (words : List String) (hne : words ≠ [])
    (h : ∀ w ∈ words, w ∈ typeWords) :
    Printed IsType (" ".intercalate words ++ " *") (" ".intercalate words ++ " *") := by
  have hstar : Spells " *" [.symbol "*"] := by
    intro rest hrest
    have hend := tokensFrom_flush fun c hc =>
      extend_symbol_stop (List.cons_ne_nil '*' []) (hrest c hc)
    exact hend
  have hname : " ".intercalate (words ++ ["*"]) = " ".intercalate words ++ " *" := by
    rw [String.intercalate_append_of_ne_nil hne (by simp), String.append_assoc]
    rfl
  have htype := isType_pointer hne h
  rw [hname] at htype
  exact ⟨_, (spells_words h).append hstar rfl (.head _), htype⟩

end C

end WasmLift
