import WasmLift.Proofs.Indexing.Escapes
import WasmLift.Proofs.Names.Distinct

/-!
# The grammar of escapes

A text is rewritten from left to right: a backslash and two lowercase hexadecimal digits become the
character with that code, and every other character is copied (`Names.Rewritten`). Decoding gives
exactly this rewriting. It can be done in rounds over byte positions (`Names.Round`), each of which
writes one character: every position that is reached is where a character begins or the text ends, a
round is possible at each but the last, and at the last the whole rewriting has been written
(`Names.Reached`). As a digit is needed on both sides of it, no escape reaches across a character
that is none, so that a text can be cut in front of such a character
(`Names.decodeEscapes_rewrites`).
-/

namespace WasmLift.Names

/-! ## Rewriting -/

/-- The lowercase hexadecimal digits, each at the position that is its value. -/
def hexadecimal : List Char :=
  ['0', '1', '2', '3', '4', '5', '6', '7', '8', '9', 'a', 'b', 'c', 'd', 'e', 'f']

/-- The text begins with a backslash and two lowercase hexadecimal digits. -/
def BeginsEscape (cs : List Char) : Prop :=
  ∃ high ∈ hexadecimal, ∃ low ∈ hexadecimal, ['\\', high, low] <+: cs

/-- The rewriting of a text from left to right. -/
inductive Rewritten : List Char → List Char → Prop where
  | done : Rewritten [] []
  /-- A backslash and two digits become the character with that code. -/
  | escape {high low : Char} {h l : Nat} {rest written : List Char}
    (hhigh : hexadecimal[h]? = some high) (hlow : hexadecimal[l]? = some low)
    (later : Rewritten rest written) :
    Rewritten ('\\' :: high :: low :: rest) (Char.ofNat (16 * h + l) :: written)
  /-- Any other character is copied. -/
  | copy {c : Char} {rest written : List Char} (hplain : ¬BeginsEscape (c :: rest))
    (later : Rewritten rest written) : Rewritten (c :: rest) (c :: written)

/-- The value of a digit is its position among the digits. -/
theorem hexValue?_eq_some {c : Char} {v : Nat} :
    Text.hexValue? c = some v ↔ hexadecimal[v]? = some c := by
  constructor
  · intro hc
    have hsmall : c.toNat < 103 := by
      rw [hexValue?_eq] at hc
      split at hc
      · omega
      · split at hc
        · omega
        · cases hc
    have hall : ∀ n < 103, ∀ v ∈ Text.hexValue? (Char.ofNat n),
        hexadecimal[v]? = some (Char.ofNat n) := by decide
    have hdigit := hall c.toNat hsmall v
    rw [Char.ofNat_toNat] at hdigit
    exact hdigit hc
  · intro hv
    have hall : ∀ v < 16, hexadecimal[v]?.bind Text.hexValue? = some v := by decide
    obtain ⟨hlt, -⟩ := List.getElem?_eq_some_iff.1 hv
    have hdigit := hall v hlt
    rwa [hv, Option.bind_some] at hdigit

theorem mem_hexadecimal {c : Char} : c ∈ hexadecimal ↔ (Text.hexValue? c).isSome := by
  rw [List.mem_iff_getElem?, Option.isSome_iff_exists]
  exact exists_congr fun _ => hexValue?_eq_some.symm

theorem not_mem_hexadecimal {c : Char} : c ∉ hexadecimal ↔ Text.hexValue? c = none := by
  rw [mem_hexadecimal, Option.not_isSome_iff_eq_none]

/-- A text that begins with an escape is found to do so. -/
theorem not_beginsEscape {cs : List Char} (h : escape? cs = none) : ¬BeginsEscape cs := by
  rintro ⟨high, hhigh, low, hlow, rest, rfl⟩
  obtain ⟨h', hh⟩ := Option.isSome_iff_exists.1 (mem_hexadecimal.1 hhigh)
  obtain ⟨l', hl⟩ := Option.isSome_iff_exists.1 (mem_hexadecimal.1 hlow)
  simp [escape?, hh, hl] at h

/-- Decoding is the rewriting. -/
theorem rewritten_decodeEscapes (cs : List Char) : Rewritten cs (decodeEscapes cs) := by
  fun_induction decodeEscapes cs with
  | case1 high low rest h l hl hh ih =>
    exact .escape (hexValue?_eq_some.1 hh) (hexValue?_eq_some.1 hl) ih
  | case2 high low rest hno ih =>
    refine .copy (not_beginsEscape ?_) ih
    unfold escape?
    split
    · next heq =>
      cases heq
      split
      · next hh hl => exact (hno _ _ hh hl).elim
      · rfl
    · rfl
  | case3 c rest hother ih =>
    refine .copy ?_ ih
    rintro ⟨high, -, low, -, rest', heq⟩
    cases heq
    exact hother high low rest' rfl rfl
  | case4 => exact .done

/-- A text has one rewriting. -/
theorem Rewritten.eq_decodeEscapes {cs written : List Char} (h : Rewritten cs written) :
    written = decodeEscapes cs := by
  induction h with
  | done => rfl
  | escape hhigh hlow _ ih =>
    simp [decodeEscapes, hexValue?_eq_some.2 hhigh, hexValue?_eq_some.2 hlow, ih]
  | @copy c rest written hplain _ ih =>
    rw [decodeEscapes_cons, ih]
    rintro rfl high low rest' rfl hhigh
    refine not_mem_hexadecimal.1 fun hlow => hplain ?_
    exact ⟨high, mem_hexadecimal.2 hhigh, low, hlow, rest', rfl⟩

/-! ## Rounds over byte positions -/

/-- One round, from a byte position and what has been written: if there is a byte at the position,
the bytes tell whether an escape begins there; if not, the rest of the text begins with a
character. -/
inductive Round (cs : List Char) : (i : Nat) → (written : List Char) → Nat → List Char → Prop where
  | escape {i : Nat} {written : List Char} {c : Char} (hbyte : i < (bytes cs).length)
    (hescape : escapeAt? (bytes cs) i = some (some c)) :
    Round cs i written (i + 3) (written ++ [c])
  | copy {i : Nat} {written : List Char} {c : Char} (hbyte : i < (bytes cs).length)
    (hescape : escapeAt? (bytes cs) i = some none) (hchar : charAt? cs i = some c) :
    Round cs i written (i + c.utf8Size) (written ++ [c])

/-- The positions that rounds from the beginning come to, with what has been written then. -/
inductive Reached (cs : List Char) : (i : Nat) → (written : List Char) → Prop where
  | start : Reached cs 0 []
  | round {i j : Nat} {written written' : List Char} (before : Reached cs i written)
    (hround : Round cs i written j written') : Reached cs j written'

section
variable {cs written written' before rest : List Char} {i j : Nat}

/-- The position is between a part of the text and the rest, and what has been written goes on with
the rewriting of the rest to that of the text. -/
structure CutAt (cs : List Char) (i : Nat) (written before rest : List Char) : Prop where
  text : cs = before ++ rest
  position : i = (bytes before).length
  goesOn : decodeEscapes cs = written ++ decodeEscapes rest

theorem CutAt.start (cs : List Char) : CutAt cs 0 [] [] cs :=
  ⟨rfl, rfl, rfl⟩

/-- There is a byte at the position exactly if there is a rest. -/
theorem CutAt.lt_iff (h : CutAt cs i written before rest) : i < (bytes cs).length ↔ rest ≠ [] := by
  obtain ⟨rfl, rfl, -⟩ := h
  cases rest with
  | nil => simp
  | cons c rest => simpa using length_bytes_lt before rest c

/-- Where there is a rest, one round is possible, and it goes on to another place between
characters, with a shorter rest. -/
theorem CutAt.round {c : Char} (h : CutAt cs i written before (c :: rest)) :
    ∃ j written' before' rest', CutAt cs j written' before' rest' ∧
      rest'.length < (c :: rest).length ∧ i < j ∧
      ∀ k w, Round cs i written k w ↔ k = j ∧ w = written' := by
  have hbyte := h.lt_iff.2 (List.cons_ne_nil c rest)
  obtain ⟨rfl, rfl, hgoesOn⟩ := h
  have hlook := escapeAt?_rest before rest c
  have hchar := charAt?_append before rest c
  cases hescape : escape? (c :: rest) with
  | some d =>
    rw [hescape] at hlook
    obtain ⟨high, low, rest', heq, hthree, hdecode⟩ := escape?_eq_some hescape
    refine ⟨_, written ++ [d], before ++ ['\\', high, low], rest', ⟨?_, ?_, ?_⟩, ?_,
      Nat.lt_add_of_pos_right (by decide : 0 < 3), fun k w => ⟨fun hround => ?_, ?_⟩⟩
    · rw [heq, List.append_assoc]
    · rw [bytes_append, List.length_append, hthree]
    · rw [hgoesOn, hdecode, List.append_assoc, List.singleton_append]
    · rw [heq, List.length_append, List.length_cons]
      omega
    · cases hround with
      | escape _ hfound =>
        cases hlook.symm.trans hfound
        exact ⟨rfl, rfl⟩
      | copy _ hfound => cases hlook.symm.trans hfound
    · rintro ⟨rfl, rfl⟩
      exact .escape hbyte hlook
  | none =>
    rw [hescape] at hlook
    refine ⟨_, written ++ [c], before ++ [c], rest, ⟨?_, ?_, ?_⟩, Nat.lt_succ_self _,
      Nat.lt_add_of_pos_right (Char.utf8Size_pos c), fun k w => ⟨fun hround => ?_, ?_⟩⟩
    · rw [List.append_assoc, List.singleton_append]
    · rw [bytes_append, List.length_append, bytes_cons, List.length_append,
        String.length_utf8EncodeChar]
      rfl
    · rw [hgoesOn, decodeEscapes_plain hescape, List.append_assoc, List.singleton_append]
    · cases hround with
      | escape _ hfound => cases hlook.symm.trans hfound
      | copy _ _ hfound =>
        cases hchar.symm.trans hfound
        exact ⟨rfl, rfl⟩
    · rintro ⟨rfl, rfl⟩
      exact .copy hbyte hlook hchar

/-- Every position that is reached is between characters. -/
theorem Reached.cutAt (h : Reached cs i written) :
    ∃ before rest, CutAt cs i written before rest := by
  induction h with
  | start => exact ⟨[], cs, .start cs⟩
  | round _ hround ih =>
    obtain ⟨before, rest, hcut⟩ := ih
    match rest with
    | [] =>
      have hbyte := hcut.lt_iff.1 (by cases hround <;> assumption)
      exact absurd rfl hbyte
    | c :: rest =>
      obtain ⟨j, written', before', rest', hnext, -, -, hunique⟩ := hcut.round
      obtain ⟨rfl, rfl⟩ := (hunique _ _).1 hround
      exact ⟨before', rest', hnext⟩

/-- From every position that is reached rounds go on to the end. -/
theorem Reached.end (h : Reached cs i written) (hcut : CutAt cs i written before rest) :
    Reached cs (bytes cs).length (decodeEscapes cs) := by
  -- by induction on the rest, which every round makes shorter
  induction hn : rest.length using Nat.strongRecOn generalizing i written before rest with
  | ind n ih =>
    subst hn
    match rest with
    | [] =>
      obtain ⟨rfl, rfl, hgoesOn⟩ := hcut
      rw [List.append_nil] at h hgoesOn ⊢
      rw [hgoesOn, decodeEscapes, List.append_nil]
      exact h
    | c :: rest =>
      obtain ⟨j, written', before', rest', hnext, hshorter, -, hunique⟩ := hcut.round
      exact ih _ hshorter (h.round ((hunique _ _).2 ⟨rfl, rfl⟩)) hnext rfl

end

/-- For every text: its only rewriting from left to right is what decoding gives. Decoding in rounds
over byte positions comes to the last position with this rewriting; every position on the way is
between two characters, with the rewriting written as far as it does not depend on the rest; before
the last one exactly one round is possible, which goes forward, and no position is behind it. And a
text followed by another that does not begin with a digit is decoded as the two are by
themselves. -/
theorem decodeEscapes_rewrites :
    (∀ cs written, Rewritten cs written ↔ written = decodeEscapes cs) ∧
    (∀ cs, Reached cs (bytes cs).length (decodeEscapes cs) ∧
      ∀ i written, Reached cs i written →
        (∃ before rest, CutAt cs i written before rest) ∧
        (i < (bytes cs).length → ∃ j > i, ∃ written',
          ∀ k w, Round cs i written k w ↔ k = j ∧ w = written') ∧
        (¬i < (bytes cs).length → i = (bytes cs).length ∧ written = decodeEscapes cs)) ∧
    ∀ cs ds, (∀ d ∈ ds.head?, d ∉ hexadecimal) →
      decodeEscapes (cs ++ ds) = decodeEscapes cs ++ decodeEscapes ds := by
  refine ⟨fun cs written => ⟨Rewritten.eq_decodeEscapes, ?_⟩,
    fun cs => ⟨Reached.end .start (.start cs), fun i written h => ?_⟩, fun cs ds hds => ?_⟩
  · rintro rfl
    exact rewritten_decodeEscapes cs
  · obtain ⟨before, rest, hcut⟩ := h.cutAt
    refine ⟨⟨before, rest, hcut⟩, fun hbyte => ?_, fun hbyte => ?_⟩
    · obtain ⟨c, rest, rfl⟩ := List.exists_cons_of_ne_nil (hcut.lt_iff.1 hbyte)
      obtain ⟨j, written', -, -, -, -, hforward, hunique⟩ := hcut.round
      exact ⟨j, hforward, written', hunique⟩
    · obtain rfl : rest = [] := by simpa using mt hcut.lt_iff.2 hbyte
      obtain ⟨rfl, rfl, hgoesOn⟩ := hcut
      simpa [decodeEscapes] using hgoesOn.symm
  · exact decodeEscapes_append cs fun d hd => not_mem_hexadecimal.1 (hds d hd)

/-- Escapes cut short before another one and at the end of the text, a round that ends in front of a
character of two bytes, and a cut-short escape that what follows does not complete. -/
theorem decodeEscapes_rewrites_across :
    Rewritten "\\2\\e9é\\6".toList "\\2éé\\6".toList ∧
      (Reached "\\e9é".toList 3 ['é'] ∧
        ∃ before rest, CutAt "\\e9é".toList 3 ['é'] before rest) ∧
      (∀ d ∈ "g1".toList.head?, d ∉ hexadecimal) ∧
      decodeEscapes ("\\6".toList ++ "g1".toList) = "\\6".toList ++ "g1".toList := by
  obtain ⟨hrewritten, hrounds, happend⟩ := decodeEscapes_rewrites
  have hreached : Reached "\\e9é".toList 3 ['é'] :=
    .round .start (.escape (by decide +kernel) (by decide +kernel))
  have hhead : ∀ d ∈ "g1".toList.head?, d ∉ hexadecimal := by
    rintro d ⟨⟩
    decide
  refine ⟨(hrewritten _ _).2 (by decide +kernel),
    ⟨hreached, ((hrounds _).2 3 _ hreached).1⟩, hhead, ?_⟩
  exact (happend _ _ hhead).trans (by decide +kernel)

end WasmLift.Names
