import WasmLift.Text.Escape

/-!
# Reading quoted bytes

A reader for bytes between quotes (`Text.readQuoted`): the quote, the backslash, the line feed, the
carriage return and the tab are a backslash and a letter, `\x` is followed by exactly two digits,
and any other printable character is itself. It ends at the first bare quote. Whatever bytes are
escaped, it reads them back and stops at the quote that closes them (`Text.readQuoted_escape`), so
that no two runs of bytes have the same escaped form (`Text.escape_injective`).
-/

namespace WasmLift.Text

/-- The byte that two hexadecimal digits stand for. -/
def hexPair? (high low : Char) : Option UInt8 := do
  let h ← hexValue? high
  let l ← hexValue? low
  return UInt8.ofNat (16 * h + l)

/-- The byte that a character after a backslash stands for. -/
def letter? (c : Char) : Option UInt8 :=
  if c = '"' then some 0x22
  else if c = '\\' then some 0x5c
  else if c = 'n' then some 0x0a
  else if c = 'r' then some 0x0d
  else if c = 't' then some 0x09
  else none

/-- The byte that a character by itself stands for. -/
def bare? (c : Char) : Option UInt8 :=
  if 0x20 ≤ c.toNat ∧ c.toNat ≤ 0x7e ∧ c ≠ '"' ∧ c ≠ '\\' then some (UInt8.ofNat c.toNat) else none

/-- Reads bytes up to the closing quote; gives them and what follows the quote. -/
def readQuoted : List Char → Option (List UInt8 × List Char)
  | [] => none
  | '"' :: rest => some ([], rest)
  | '\\' :: 'x' :: high :: low :: rest => do
    let b ← hexPair? high low
    let (bytes, rest) ← readQuoted rest
    return (b :: bytes, rest)
  | '\\' :: c :: rest => do
    let b ← letter? c
    let (bytes, rest) ← readQuoted rest
    return (b :: bytes, rest)
  | c :: rest => do
    let b ← bare? c
    let (bytes, rest) ← readQuoted rest
    return (b :: bytes, rest)

/-! ## Digits -/

theorem hexValue?_digitChar : ∀ d : Fin 16, hexValue? (Nat.digitChar d) = some d.val := by
  decide

theorem hexValue?_of_lt {d : Nat} (hd : d < 16) : hexValue? d.digitChar = some d :=
  hexValue?_digitChar ⟨d, hd⟩

/-- A byte is written as two digits. -/
theorem hexPadded_byte (b : UInt8) :
    hexPadded 2 b.toNat = [(b.toNat / 16).digitChar, (b.toNat % 16).digitChar] := by
  have hb := b.toNat_lt
  by_cases hlow : b.toNat < 16
  · have hdigits : hexDigits b.toNat = [b.toNat.digitChar] := Nat.toDigits_of_lt_base hlow
    rw [hexPadded, hdigits, Nat.div_eq_of_lt hlow, Nat.mod_eq_of_lt hlow]
    rfl
  · have hhigh : b.toNat / 16 < 16 := by omega
    have hdigits : hexDigits b.toNat = [(b.toNat / 16).digitChar, (b.toNat % 16).digitChar] := by
      rw [hexDigits, Nat.toDigits_of_base_le (by decide) (Nat.not_lt.1 hlow),
        Nat.toDigits_of_lt_base hhigh]
      rfl
    rw [hexPadded, hdigits]
    rfl

/-- The digits of a byte are read back. -/
theorem hexPair?_byte (b : UInt8) :
    hexPair? (b.toNat / 16).digitChar (b.toNat % 16).digitChar = some b := by
  have hb := b.toNat_lt
  have hhigh : b.toNat / 16 < 16 := by omega
  rw [hexPair?, hexValue?_of_lt hhigh, hexValue?_of_lt (Nat.mod_lt b.toNat (by decide))]
  show some (UInt8.ofNat (16 * (b.toNat / 16) + b.toNat % 16)) = some b
  rw [Nat.div_add_mod, UInt8.ofNat_toNat]

/-! ## Bytes -/

theorem toNat_ofNat_byte (b : UInt8) : (Char.ofNat b.toNat).toNat = b.toNat := by
  have hvalid : b.toNat.isValidChar := .inl (Nat.lt_trans b.toNat_lt (by decide))
  unfold Char.ofNat
  rw [dif_pos hvalid]
  rfl

theorem isPrintable_toNat {b : UInt8} (h : isPrintable b = true) :
    0x20 ≤ b.toNat ∧ b.toNat ≤ 0x7e := by
  simpa [isPrintable, UInt8.le_iff_toNat_le] using h

theorem ofNat_byte_ne {b c : UInt8} (h : b ≠ c) : Char.ofNat b.toNat ≠ Char.ofNat c.toNat := by
  intro heq
  have hnat := congrArg Char.toNat heq
  rw [toNat_ofNat_byte, toNat_ofNat_byte] at hnat
  exact h (UInt8.toNat_inj.1 hnat)

/-- A printable byte other than the quote and the backslash is read as itself. -/
theorem bare?_printable {b : UInt8} (hprintable : isPrintable b = true) (hquote : b ≠ 0x22)
    (hbackslash : b ≠ 0x5c) : bare? (Char.ofNat b.toNat) = some b := by
  obtain ⟨hlow, hhigh⟩ := isPrintable_toNat hprintable
  rw [bare?, toNat_ofNat_byte, UInt8.ofNat_toNat]
  exact if_pos ⟨hlow, hhigh, ofNat_byte_ne hquote, ofNat_byte_ne hbackslash⟩

theorem readQuoted_bare {c : Char} {b : UInt8} (hc : bare? c = some b) (rest : List Char) :
    readQuoted (c :: rest) = (readQuoted rest).map fun read => (b :: read.1, read.2) := by
  have hplain : c ≠ '"' ∧ c ≠ '\\' := by
    unfold bare? at hc
    split at hc
    · next hrange => exact hrange.2.2
    · cases hc
  rw [readQuoted.eq_def]
  split
  · next heq => cases heq
  · next heq => exact absurd (List.cons.inj heq).1 hplain.1
  · next heq => exact absurd (List.cons.inj heq).1 hplain.2
  · next heq => exact absurd (List.cons.inj heq).1 hplain.2
  · next heq =>
    cases heq
    rw [hc]
    cases readQuoted rest <;> rfl

theorem readQuoted_letter {c : Char} {b : UInt8} (hc : letter? c = some b) (rest : List Char) :
    readQuoted ('\\' :: c :: rest) =
      (readQuoted rest).map fun read => (b :: read.1, read.2) := by
  have hdigits : c ≠ 'x' := by
    rintro rfl
    cases hc
  rw [readQuoted.eq_def]
  split
  · next heq => cases heq
  · next heq => cases heq
  · next heq => exact absurd (List.cons.inj (List.cons.inj heq).2).1 hdigits
  · next heq =>
    cases heq
    rw [hc]
    cases readQuoted rest <;> rfl
  · next hother heq =>
    cases heq
    exact (hother c rest rfl rfl).elim

theorem readQuoted_digits (b : UInt8) (rest : List Char) :
    readQuoted ('\\' :: 'x' :: (hexPadded 2 b.toNat ++ rest)) =
      (readQuoted rest).map fun read => (b :: read.1, read.2) := by
  rw [hexPadded_byte]
  cases hrest : readQuoted rest <;> simp [readQuoted, hexPair?_byte, hrest]

/-- An escaped byte is read back, whatever follows it. -/
theorem readQuoted_escapeByte (b : UInt8) (rest : List Char) :
    readQuoted (escapeByte b ++ rest) =
      (readQuoted rest).map fun read => (b :: read.1, read.2) := by
  have hletter {c : Char} {b' : UInt8} (hb : b = b') (hc : letter? c = some b') :
      readQuoted (['\\', c] ++ rest) =
        (readQuoted rest).map fun read => (b :: read.1, read.2) :=
    hb ▸ readQuoted_letter hc rest
  unfold escapeByte
  split
  · next hb => exact hletter hb rfl
  split
  · next hb => exact hletter hb rfl
  split
  · next hb => exact hletter hb rfl
  split
  · next hb => exact hletter hb rfl
  split
  · next hb => exact hletter hb rfl
  split
  · next hquote hbackslash _ _ _ hprintable =>
    exact readQuoted_bare (bare?_printable hprintable hquote hbackslash) rest
  · exact readQuoted_digits b rest

/-- Escaped bytes are read back up to the quote that closes them. -/
theorem readQuoted_escape (bytes : List UInt8) (rest : List Char) :
    readQuoted ((escape bytes).toList ++ '"' :: rest) = some (bytes, rest) := by
  rw [escape, String.toList_ofList]
  induction bytes with
  | nil => rfl
  | cons b bytes ih =>
    rw [List.flatMap_cons, List.append_assoc, readQuoted_escapeByte, ih]
    rfl

example : readQuoted "a\\x0a1\\\"\" and more".toList =
    some ([0x61, 0x0a, 0x31, 0x22], " and more".toList) := by decide

/-- No two runs of bytes have the same escaped form. -/
theorem escape_injective {bytes bytes' : List UInt8} (h : escape bytes = escape bytes') :
    bytes = bytes' := by
  have hread := readQuoted_escape bytes []
  rw [h, readQuoted_escape bytes' []] at hread
  exact (Prod.mk.inj (Option.some.inj hread)).1.symm

end WasmLift.Text
