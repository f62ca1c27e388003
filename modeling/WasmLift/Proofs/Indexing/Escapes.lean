import WasmLift.Names.Display

/-!
# Escapes by byte positions

Names can be decoded by looking at their bytes: a position goes from byte to byte, an escape is
three bytes long, and any other character is copied from the rest of the text at the position. Here
every look at a byte or at the rest of a text may fail, a byte if the position is too far to the
right and the rest if the position is inside a character. Neither ever happens, and the result is
that of decoding character by character (`Names.decodeFrom_start`).
-/

namespace WasmLift.Names

/-- The bytes of a text. -/
def bytes (cs : List Char) : List UInt8 :=
  cs.flatMap String.utf8EncodeChar

/-- The rest of a text from a byte position on. There is none if the position is inside a character
or beyond the end. -/
def restAt? : List Char → Nat → Option (List Char)
  | cs, 0 => some cs
  | [], _ + 1 => none
  | c :: cs, n + 1 => if c.utf8Size ≤ n + 1 then restAt? cs (n + 1 - c.utf8Size) else none

/-- The value of a byte that is a lowercase hexadecimal digit. -/
def hexByte? (b : UInt8) : Option Nat :=
  if 48 ≤ b.toNat ∧ b.toNat ≤ 57 then some (b.toNat - 48)
  else if 97 ≤ b.toNat ∧ b.toNat ≤ 102 then some (b.toNat - 87)
  else none

/-- The character that an escape at a byte position stands for, if there is an escape. It fails if
it has to look beyond the last byte. -/
def escapeAt? (bs : List UInt8) (i : Nat) : Option (Option Char) := do
  let first ← bs[i]?
  if first = 0x5c ∧ i + 2 < bs.length then
    let high ← bs[i + 1]?
    let low ← bs[i + 2]?
    match hexByte? high, hexByte? low with
    | some h, some l => return some (Char.ofNat (16 * h + l))
    | _, _ => return none
  else return none

/-- The first character of the rest of a text. -/
def charAt? (cs : List Char) (i : Nat) : Option Char :=
  (restAt? cs i).map fun rest => rest.head?.getD '\ufffd'

/-- Decodes the escapes of a text from a byte position on. -/
def decodeFrom (cs : List Char) (i : Nat) : Option (List Char) :=
  if i < (bytes cs).length then do
    match ← escapeAt? (bytes cs) i with
    | some c => return c :: (← decodeFrom cs (i + 3))
    | none =>
      let c ← charAt? cs i
      return c :: (← decodeFrom cs (i + c.utf8Size))
  else some []
termination_by (bytes cs).length - i
decreasing_by
  · omega
  · have hsize := Char.utf8Size_pos c
    omega

/-! ## Bytes and characters -/

theorem bytes_cons (c : Char) (cs : List Char) :
    bytes (c :: cs) = String.utf8EncodeChar c ++ bytes cs :=
  rfl

theorem bytes_append (xs ys : List Char) : bytes (xs ++ ys) = bytes xs ++ bytes ys :=
  List.flatMap_append

/-- A character below 128 is one byte, and every other one begins with a byte that is not. -/
theorem utf8EncodeChar_cases (c : Char) :
    (c.toNat ≤ 127 ∧ String.utf8EncodeChar c = [UInt8.ofNat c.toNat]) ∨
      (127 < c.toNat ∧ ∃ b tail, String.utf8EncodeChar c = b :: tail ∧ 127 < b.toNat) := by
  rw [String.utf8EncodeChar.eq_1]
  by_cases hc : c.val.toNat ≤ 127
  · exact .inl ⟨hc, if_pos hc⟩
  · rw [if_neg hc]
    refine .inr ⟨Nat.lt_of_not_le hc, ?_⟩
    split
    · exact ⟨_, _, rfl, by simp; omega⟩
    · split
      · exact ⟨_, _, rfl, by simp; omega⟩
      · exact ⟨_, _, rfl, by simp; omega⟩

theorem restAt?_append (before rest : List Char) :
    restAt? (before ++ rest) (bytes before).length = some rest := by
  induction before with
  | nil => cases rest <;> rfl
  | cons c before ih =>
    have hlength : (bytes (c :: before)).length = c.utf8Size + (bytes before).length := by
      rw [bytes_cons, List.length_append, String.length_utf8EncodeChar]
    obtain ⟨n, hn⟩ : ∃ n, (bytes (c :: before)).length = n + 1 :=
      Nat.exists_eq_add_one.2 (by have := Char.utf8Size_pos c; omega)
    rw [hn, List.cons_append, restAt?, if_pos (by omega)]
    have hrest : n + 1 - c.utf8Size = (bytes before).length := by omega
    rw [hrest, ih]

example : restAt? ['é', 'a'] 1 = none := by decide

theorem charAt?_append (before rest : List Char) (c : Char) :
    charAt? (before ++ c :: rest) (bytes before).length = some c := by
  rw [charAt?, restAt?_append]
  rfl

/-! ## Escapes -/

theorem escapeAt?_append (xs ys : List UInt8) :
    escapeAt? (xs ++ ys) xs.length = escapeAt? ys 0 := by
  simp only [escapeAt?, List.getElem?_append_right, Nat.le_refl, Nat.sub_self,
    List.length_append, Nat.le_add_right, Nat.add_sub_cancel_left, Nat.zero_add,
    Nat.add_lt_add_iff_left]

/-- The character that an escape at the beginning of a text stands for. -/
def escape? : List Char → Option Char
  | '\\' :: high :: low :: _ =>
    match Text.hexValue? high, Text.hexValue? low with
    | some h, some l => some (Char.ofNat (16 * h + l))
    | _, _ => none
  | _ => none

theorem hexValue?_eq (c : Char) :
    Text.hexValue? c = if 48 ≤ c.toNat ∧ c.toNat ≤ 57 then some (c.toNat - 48)
      else if 97 ≤ c.toNat ∧ c.toNat ≤ 102 then some (c.toNat - 87)
      else none :=
  rfl

/-- A character is a digit if its first byte is one, and then it has no other byte. -/
theorem utf8EncodeChar_digit (c : Char) :
    ∃ b tail, String.utf8EncodeChar c = b :: tail ∧ hexByte? b = Text.hexValue? c ∧
      (Text.hexValue? c ≠ none → tail = []) := by
  rcases utf8EncodeChar_cases c with ⟨hc, hbytes⟩ | ⟨hc, b, tail, hbytes, hb⟩
  · have hbyte : (UInt8.ofNat c.toNat).toNat = c.toNat :=
      UInt8.toNat_ofNat_of_lt (Nat.lt_of_le_of_lt hc (by decide))
    exact ⟨_, [], hbytes, by rw [hexByte?, hbyte, hexValue?_eq], fun _ => rfl⟩
  · have hvalue : Text.hexValue? c = none := by
      rw [hexValue?_eq, if_neg (by omega), if_neg (by omega)]
    refine ⟨b, tail, hbytes, ?_, fun hne => absurd hvalue hne⟩
    rw [hvalue, hexByte?, if_neg (by omega), if_neg (by omega)]

/-- A character is a backslash if its first byte is one. -/
theorem utf8EncodeChar_backslash {c : Char} (hc : c ≠ '\\') :
    ∃ b tail, String.utf8EncodeChar c = b :: tail ∧ b ≠ 0x5c := by
  rcases utf8EncodeChar_cases c with ⟨hlt, hbytes⟩ | ⟨-, b, tail, hbytes, hb⟩
  · refine ⟨_, [], hbytes, fun hb => hc ?_⟩
    have hbyte : (UInt8.ofNat c.toNat).toNat = c.toNat :=
      UInt8.toNat_ofNat_of_lt (Nat.lt_of_le_of_lt hlt (by decide))
    rw [hb] at hbyte
    rw [← Char.ofNat_toNat c, ← hbyte]
    rfl
  · refine ⟨b, tail, hbytes, ?_⟩
    rintro rfl
    exact absurd hb (by decide)

theorem escapeAt?_backslash (b : UInt8) (bs : List UInt8) :
    escapeAt? (0x5c :: b :: bs) 0 = some
      (match hexByte? b, bs.head?.bind hexByte? with
      | some h, some l => some (Char.ofNat (16 * h + l))
      | _, _ => none) := by
  cases bs with
  | nil => cases hexByte? b <;> rfl
  | cons low bs => cases hh : hexByte? b <;> cases hl : hexByte? low <;> simp [escapeAt?, hh, hl]

/-- Whether a text begins with an escape is told by its bytes. -/
theorem escapeAt?_bytes (c : Char) (rest : List Char) :
    escapeAt? (bytes (c :: rest)) 0 = some (escape? (c :: rest)) := by
  by_cases hc : c = '\\'
  · subst hc
    have hbackslash : bytes ('\\' :: rest) = 0x5c :: bytes rest := rfl
    rw [hbackslash]
    match rest with
    | [] => rfl
    | [high] =>
      obtain ⟨b, tail, hbytes, hdigit, htail⟩ := utf8EncodeChar_digit high
      rw [bytes_cons, hbytes, List.cons_append, escapeAt?_backslash, hdigit]
      -- a digit has no second byte
      cases hhigh : Text.hexValue? high with
      | none => rfl
      | some h =>
        rw [htail (by simp [hhigh])]
        rfl
    | high :: low :: rest =>
      obtain ⟨b, tail, hbytes, hdigit, htail⟩ := utf8EncodeChar_digit high
      obtain ⟨b', tail', hbytes', hdigit', -⟩ := utf8EncodeChar_digit low
      rw [bytes_cons, hbytes, List.cons_append, escapeAt?_backslash, hdigit]
      cases hhigh : Text.hexValue? high with
      | none => simp [escape?, hhigh]
      | some h =>
        rw [htail (by simp [hhigh]), bytes_cons, hbytes']
        cases hlow : Text.hexValue? low <;> simp [escape?, hhigh, hlow, hdigit']
  · obtain ⟨b, tail, hbytes, hb⟩ := utf8EncodeChar_backslash hc
    have hescape : escape? (c :: rest) = none := by
      unfold escape?
      split
      · next heq => exact absurd (List.cons.inj heq).1 hc
      · rfl
    rw [bytes_cons, hbytes, hescape]
    simp [escapeAt?, hb]

/-- An escape is a backslash and two digits, of one byte each. -/
theorem escape?_eq_some {c d : Char} {rest : List Char} (hescape : escape? (c :: rest) = some d) :
    ∃ high low rest', c :: rest = ['\\', high, low] ++ rest' ∧
      (bytes ['\\', high, low]).length = 3 ∧
      decodeEscapes (c :: rest) = d :: decodeEscapes rest' := by
  unfold escape? at hescape
  split at hescape
  · next high low rest' heq =>
    cases heq
    split at hescape
    · next h l hh hl =>
      cases hescape
      obtain ⟨b, tail, hbytes, -, htail⟩ := utf8EncodeChar_digit high
      obtain ⟨b', tail', hbytes', -, htail'⟩ := utf8EncodeChar_digit low
      refine ⟨high, low, rest', rfl, ?_, by simp [decodeEscapes, hh, hl]⟩
      rw [htail (by simp [hh])] at hbytes
      rw [htail' (by simp [hl])] at hbytes'
      rw [bytes_cons, bytes_cons, bytes_cons, hbytes, hbytes']
      rfl
    · cases hescape
  · cases hescape

theorem decodeEscapes_plain {c : Char} {rest : List Char} (hescape : escape? (c :: rest) = none) :
    decodeEscapes (c :: rest) = c :: decodeEscapes rest := by
  rw [decodeEscapes.eq_def]
  split
  · next high low rest' heq =>
    cases heq
    split
    · next h l hh hl => simp [escape?, hh, hl] at hescape
    · rfl
  · next heq =>
    cases heq
    rfl
  · next heq => cases heq

/-- There is a byte where a character begins. -/
theorem length_bytes_lt (before rest : List Char) (c : Char) :
    (bytes before).length < (bytes (before ++ c :: rest)).length := by
  have hsize := Char.utf8Size_pos c
  rw [bytes_append, bytes_cons, List.length_append, List.length_append,
    String.length_utf8EncodeChar]
  omega

/-- Where a character begins, the bytes tell whether an escape does. -/
theorem escapeAt?_rest (before rest : List Char) (c : Char) :
    escapeAt? (bytes (before ++ c :: rest)) (bytes before).length = some (escape? (c :: rest)) := by
  rw [bytes_append, escapeAt?_append, escapeAt?_bytes]

/-- Decoding by byte positions goes on from the end of a character as decoding by characters
does. -/
theorem decodeFrom_append (before rest : List Char) :
    decodeFrom (before ++ rest) (bytes before).length = some (decodeEscapes rest) := by
  -- by induction on what is left, as a step goes on behind an escape or a character
  induction hn : rest.length using Nat.strongRecOn generalizing before rest with
  | ind n ih =>
    subst hn
    rw [decodeFrom]
    match rest with
    | [] => simp [decodeEscapes]
    | c :: rest =>
      rw [if_pos (length_bytes_lt before rest c), escapeAt?_rest]
      cases hescape : escape? (c :: rest) with
      | some d =>
        obtain ⟨high, low, rest', heq, hthree, hdecode⟩ := escape?_eq_some hescape
        have hshorter : rest'.length < (c :: rest).length := by
          rw [heq, List.length_append, List.length_cons]
          omega
        have hnext := ih _ hshorter (before ++ ['\\', high, low]) rest' rfl
        rw [bytes_append, List.length_append, hthree, List.append_assoc, ← heq] at hnext
        simp [hnext, hdecode]
      | none =>
        have hnext := ih rest.length (by simp) (before ++ [c]) rest rfl
        rw [bytes_append, List.length_append, bytes_cons, List.length_append,
          String.length_utf8EncodeChar, List.append_assoc] at hnext
        have hnext : decodeFrom (before ++ c :: rest) ((bytes before).length + c.utf8Size) =
            some (decodeEscapes rest) := hnext
        simp [charAt?_append, hnext, decodeEscapes_plain hescape]

/-- Decoding by byte positions comes to its end, and to what decoding by characters gives. -/
theorem decodeFrom_start (cs : List Char) : decodeFrom cs 0 = some (decodeEscapes cs) :=
  decodeFrom_append [] cs

end WasmLift.Names
