import WasmLift.Proofs.Listing.Annotations
import WasmLift.Proofs.Memory.Dump

/-!
# Comments beside constants

A constant that is an address of a text is printed with the text beside it, as a comment that holds
a string literal. What the comment is to a reader of C is told by two scanners, one for the end of a
comment (`C.afterComment`) and one for the end of a literal (`C.afterQuote`). The literal ends with
the quote that closes it, whatever the memory holds, and the comment is printable and stays on one
line. But the bytes are escaped as those of a literal, in which a star and a slash are two plain
characters: the comment ends with its last two characters exactly if these bytes are nowhere next to
each other in the text (`Framed.comments_enclosed`).
-/

namespace WasmLift

/-! ## Reading -/

namespace C

/-- What follows the end of a comment, read from inside it. -/
def afterComment : List Char → Option (List Char)
  | [] => none
  | '*' :: '/' :: rest => some rest
  | _ :: rest => afterComment rest

/-- What follows a comment at the beginning of a text. -/
def comment? : List Char → Option (List Char)
  | '/' :: '*' :: rest => afterComment rest
  | _ => none

/-- What follows the quote that ends a string literal, read from inside it. A backslash takes the
next character with it, and no literal goes on over a line break. -/
def afterQuote : List Char → Option (List Char)
  | [] | '\n' :: _ | '\\' :: '\n' :: _ => none
  | '"' :: rest => some rest
  | '\\' :: _ :: rest => afterQuote rest
  | _ :: rest => afterQuote rest

/-- What follows a string literal at the beginning of a text. -/
def literal? : List Char → Option (List Char)
  | '"' :: rest => afterQuote rest
  | _ => none

section
variable {c : Char} {text : List Char}

/-- A character is a part of the comment unless it is a star in front of a slash. -/
theorem afterComment_cons (h : ¬['*', '/'] <+: c :: text) :
    afterComment (c :: text) = afterComment text := by
  rw [afterComment.eq_def]
  split
  · next heq => cases heq
  · next rest heq => exact absurd ⟨rest, heq.symm⟩ h
  · next heq =>
    cases heq
    rfl

/-- A text in front of a quote ends the comment exactly if a star and a slash stand next to each
other in it. -/
theorem afterComment_quote (text rest : List Char) :
    (¬['*', '/'] <:+: text ∧ afterComment (text ++ '"' :: rest) = afterComment rest) ∨
      (['*', '/'] <:+: text ∧
        ∃ cut, afterComment (text ++ '"' :: rest) = some (cut ++ '"' :: rest)) := by
  induction text with
  | nil => exact .inl ⟨by simp, rfl⟩
  | cons c text ih =>
    rw [List.infix_cons_iff]
    by_cases hends : ['*', '/'] <+: c :: text
    · obtain ⟨cut, heq⟩ := hends
      rw [← heq]
      exact .inr ⟨.inl (List.prefix_append _ _), cut, rfl⟩
    · have hends' : ¬['*', '/'] <+: c :: (text ++ '"' :: rest) := by
        cases text with
        | nil => simp
        | cons d text => simpa using hends
      rw [List.cons_append, afterComment_cons hends']
      simpa [hends] using ih

/-- Characters other than the quote, the backslash and the line break are parts of the literal. -/
theorem afterQuote_append (h : ∀ c ∈ text, c ∉ ['"', '\\', '\n']) (rest : List Char) :
    afterQuote (text ++ rest) = afterQuote rest := by
  induction text with
  | nil => rfl
  | cons c text ih =>
    obtain ⟨hc, htext⟩ := List.forall_mem_cons.1 h
    rw [← ih htext, List.cons_append, afterQuote.eq_def]
    split <;> simp_all

end

end C

/-! ## Escaped bytes -/

namespace Text

/-- A property of all bytes, one by one. -/
theorem byte_forall {P : UInt8 → Prop} (h : ∀ n < 256, P (UInt8.ofNat n)) (b : UInt8) : P b := by
  have hb := h b.toNat b.toNat_lt
  rwa [UInt8.ofNat_toNat] at hb

/-- What an escaped byte is made of: printable characters, a star only for the star, and a slash in
front only for the slash. -/
theorem escapeByte_signs (b : UInt8) :
    (escapeByte b).all (fun c => 0x20 ≤ c.toNat && c.toNat ≤ 0x7e) = true ∧
      ('*' ∈ escapeByte b → b = 0x2a) ∧ ((escapeByte b).head? = some '/' ↔ b = 0x2f) :=
  byte_forall (P := fun b => (escapeByte b).all (fun c => 0x20 ≤ c.toNat && c.toNat ≤ 0x7e) = true ∧
    ('*' ∈ escapeByte b → b = 0x2a) ∧ ((escapeByte b).head? = some '/' ↔ b = 0x2f))
    (by decide +kernel) b

/-- Two signs in a row do not begin where the first of them does not stand. -/
theorem pair_infix_append {α : Type} {x y : α} {xs ys : List α} (hx : x ∉ xs) :
    [x, y] <:+: xs ++ ys ↔ [x, y] <:+: ys := by
  induction xs with
  | nil => rfl
  | cons z xs ih =>
    obtain ⟨hz, hxs⟩ := List.ne_and_not_mem_of_not_mem_cons hx
    rw [List.cons_append, List.infix_cons_iff, ih hxs]
    exact or_iff_right fun hstarts => hz (List.cons_prefix_cons.1 hstarts).1

/-- Two signs in a row begin with the first of them exactly if the second comes next. -/
theorem pair_infix_cons {α : Type} {x y : α} {ys : List α} :
    [x, y] <:+: x :: ys ↔ ys.head? = some y ∨ [x, y] <:+: ys := by
  rw [List.infix_cons_iff, List.cons_prefix_cons, List.singleton_prefix_iff_head?_eq_some]
  simp

/-- Escaping keeps a star and a slash next to each other, and puts no others there. -/
theorem infix_escape (bytes : List UInt8) :
    ['*', '/'] <:+: (escape bytes).toList ↔ [0x2a, 0x2f] <:+: bytes := by
  rw [escape, String.toList_ofList]
  induction bytes with
  | nil => simp
  | cons b bytes ih =>
    rw [List.flatMap_cons]
    by_cases hb : b = 0x2a
    · subst hb
      have hnext : (bytes.flatMap escapeByte).head? = some '/' ↔ bytes.head? = some 0x2f := by
        cases bytes with
        | nil => simp
        | cons b' bytes =>
          obtain ⟨-, -, hslash⟩ := escapeByte_signs b'
          have hne : escapeByte b' ≠ [] := by
            unfold escapeByte
            repeat' split
            all_goals exact List.cons_ne_nil _ _
          rw [List.flatMap_cons, List.head?_append_of_ne_nil _ hne, hslash]
          simp
      rw [pair_infix_cons, ← hnext, ← ih]
      exact pair_infix_cons
    · have hstar : '*' ∉ escapeByte b := fun hmem => hb ((escapeByte_signs b).2.1 hmem)
      have hbyte : [0x2a, 0x2f] <:+: [b] ++ bytes ↔ [0x2a, 0x2f] <:+: bytes :=
        pair_infix_append (by simpa using Ne.symm hb)
      rw [pair_infix_append hstar, ih, ← hbyte, List.singleton_append]

theorem printable_of_all {cs : List Char}
    (h : cs.all (fun c => 0x20 ≤ c.toNat && c.toNat ≤ 0x7e) = true) :
    ∀ c ∈ cs, 0x20 ≤ c.toNat ∧ c.toNat ≤ 0x7e := by
  simpa using h

/-- Escaped bytes are printable characters. -/
theorem printable_escape (bytes : List UInt8) :
    ∀ c ∈ (escape bytes).toList, 0x20 ≤ c.toNat ∧ c.toNat ≤ 0x7e := by
  intro c hc
  rw [escape, String.toList_ofList] at hc
  obtain ⟨b, -, hb⟩ := List.mem_flatMap.1 hc
  exact printable_of_all (escapeByte_signs b).1 c hb

theorem hexPadded_plain (b : UInt8) :
    ∀ c ∈ hexPadded 2 b.toNat, c ∉ ['"', '\\', '\n'] := by
  have hdisjoint := byte_forall (P := fun b => ['"', '\\', '\n'].all
    (fun c => !(hexPadded 2 b.toNat).contains c) = true) (by decide +kernel) b
  intro c hc hsign
  simpa [hc] using List.all_eq_true.1 hdisjoint c hsign

/-- An escaped byte is a part of the literal it stands in. -/
theorem afterQuote_escapeByte (b : UInt8) (rest : List Char) :
    C.afterQuote (escapeByte b ++ rest) = C.afterQuote rest := by
  unfold escapeByte
  split
  · rfl
  split
  · rfl
  split
  · rfl
  split
  · rfl
  split
  · rfl
  split
  · next hquote hbackslash hbreak _ _ hprintable =>
    refine C.afterQuote_append (List.forall_mem_singleton.2 ?_) rest
    simpa using ⟨ofNat_byte_ne hquote, ofNat_byte_ne hbackslash, ofNat_byte_ne hbreak⟩
  · exact C.afterQuote_append (hexPadded_plain b) rest

/-- A literal of escaped bytes ends with the quote behind them. -/
theorem afterQuote_escape (bytes : List UInt8) (rest : List Char) :
    C.afterQuote ((escape bytes).toList ++ '"' :: rest) = some rest := by
  rw [escape, String.toList_ofList]
  induction bytes with
  | nil => rfl
  | cons b bytes ih => rw [List.flatMap_cons, List.append_assoc, afterQuote_escapeByte, ih]

end Text

/-! ## Comments -/

namespace Code

/-- The comment that shows a text. -/
def commentText (text : String) : String :=
  "/* \"" ++ text ++ "\" */"

/-- A constant with a text is its number, a blank, and the comment. -/
theorem render_const_text (layout : FrameLayout) (value : Value) (text : String)
    (uses : LabelUses) : (render layout (.const value (some text)) uses).1.text =
      Spelling.number value ++ " " ++ commentText text := by
  apply String.toList_injective
  show (Spelling.number value ++ " /* \"" ++ text ++ "\" */").toList = _
  simp [commentText]

/-- The comment that shows escaped bytes ends with its last two characters, unless a star and a
slash stand next to each other among the bytes: then it ends behind the first two such bytes. -/
theorem comment?_escape (bytes : List UInt8) (rest : List Char) :
    (¬[0x2a, 0x2f] <:+: bytes ∧
        C.comment? ((commentText (Text.escape bytes)).toList ++ rest) = some rest) ∨
      ([0x2a, 0x2f] <:+: bytes ∧ ∃ cut ≠ [],
        C.comment? ((commentText (Text.escape bytes)).toList ++ rest) = some (cut ++ rest)) := by
  have htext : (commentText (Text.escape bytes)).toList ++ rest =
      '/' :: '*' :: ' ' :: '"' :: ((Text.escape bytes).toList ++ '"' :: ' ' :: '*' :: '/' :: rest) := by
    simp [commentText]
  have hopen (text : List Char) :
      C.comment? ('/' :: '*' :: ' ' :: '"' :: text) = C.afterComment text := rfl
  rw [htext, hopen, ← Text.infix_escape]
  obtain ⟨hstays, hend⟩ | ⟨hleaves, cut, hend⟩ :=
    C.afterComment_quote (Text.escape bytes).toList (' ' :: '*' :: '/' :: rest)
  · exact .inl ⟨hstays, hend⟩
  · exact .inr ⟨hleaves, cut ++ ['"', ' ', '*', '/'], by simp, by simp [hend]⟩

end Code

namespace Framed

/-- For every memory and every constant that is written with a text: the text is that of the bytes
at the address, escaped, and the constant is printed as its number and a comment with the text
between quotes. All characters of the comment are printable, so that it stays on one line, and the
literal inside ends with the quote that closes it, whatever follows. The comment ends with its last
two characters if no star is followed by a slash among the bytes, and earlier if one is. -/
theorem comments_enclosed {s : Surroundings} {value : Value} {text : String}
    (h : const s value = .const value (some text)) :
    (∀ layout uses, (Code.render layout (const s value) uses).1.text =
      Spelling.number value ++ " " ++ Code.commentText text) ∧
    (∀ c ∈ (Code.commentText text).toList, 0x20 ≤ c.toNat ∧ c.toNat ≤ 0x7e) ∧
    (∀ rest, C.literal? (("\"" ++ text ++ "\"").toList ++ rest) = some rest) ∧
    ∃ address bytes, value.asInteger? = some address ∧ s.memory.Shows address bytes ∧
      text = Text.escape bytes ∧
      (¬[0x2a, 0x2f] <:+: bytes →
        ∀ rest, C.comment? ((Code.commentText text).toList ++ rest) = some rest) ∧
      ([0x2a, 0x2f] <:+: bytes → ∀ rest, ∃ cut ≠ [],
        C.comment? ((Code.commentText text).toList ++ rest) = some (cut ++ rest)) := by
  have htext : value.asInteger?.bind s.memory.stringAt? = some text := (Code.const.inj h).2
  obtain ⟨address, haddress, hfound⟩ := Option.bind_eq_some_iff.1 htext
  obtain ⟨bytes, hshows, rfl⟩ := MemoryImage.stringAt?_eq_some.1 hfound
  have hends (rest : List Char) := Code.comment?_escape bytes rest
  refine ⟨fun layout uses => ?_, fun c hc => ?_, fun rest => ?_,
    address, bytes, haddress, hshows, rfl, fun hstays rest => ?_, fun hleaves rest => ?_⟩
  · rw [h, Code.render_const_text]
  · obtain hopens | htext | hcloses : c ∈ "/* \"".toList ∨ c ∈ (Text.escape bytes).toList ∨
        c ∈ "\" */".toList := by
      simpa [Code.commentText, or_assoc] using hc
    · exact Text.printable_of_all (by decide) c hopens
    · exact Text.printable_escape bytes c htext
    · exact Text.printable_of_all (by decide) c hcloses
  · have hliteral : ("\"" ++ Text.escape bytes ++ "\"").toList ++ rest =
        '"' :: ((Text.escape bytes).toList ++ '"' :: rest) := by
      simp
    rw [hliteral, C.literal?, Text.afterQuote_escape]
  · exact (hends rest).elim And.right fun h => absurd h.1 hstays
  · exact (hends rest).elim (fun h => absurd hleaves h.1) And.right

/-- Surroundings whose memory holds a text with a quote, a backslash and a line break, and one with
the end of a comment. -/
def quoting : Surroundings where
  program := ⟨[], [], [], [], []⟩
  memory := ⟨0x400, 0x40c, [0x22, 0x2f, 0x2a, 0x5c, 0x0a, 0x00, 0x61, 0x2a, 0x2f, 0x62, 0x22, 0x00]⟩
  function := ⟨⟨0⟩, [], .void, .defined [] .nop, none⟩
  stackPointer := none

/-- The first text is enclosed. -/
theorem comments_enclosed_escapes :
    const quoting (.i32 0x400) = .const (.i32 0x400) (some "\\\"/*\\\\\\n") ∧
      C.comment? "/* \"\\\"/*\\\\\\n\" */; x */".toList = some "; x */".toList ∧
      C.literal? "\"\\\"/*\\\\\\n\" \"".toList = some " \"".toList := by
  have hconst : const quoting (.i32 0x400) = .const (.i32 0x400) (some "\\\"/*\\\\\\n") :=
    congrArg (Code.const _) (by decide +kernel : quoting.memory.stringAt? 0x400 = some _)
  obtain ⟨-, -, hliteral, _, bytes, -, -, htext, hcomment, -⟩ := comments_enclosed hconst
  have hstays : ¬[0x2a, 0x2f] <:+: bytes := by
    rw [← Text.infix_escape, ← htext]
    decide +kernel
  exact ⟨hconst, hcomment hstays "; x */".toList, hliteral " \"".toList⟩

/-- The second one is not: its comment ends within the text. -/
theorem comments_open :
    ∃ text, const quoting (.i32 0x406) = .const (.i32 0x406) (some text) ∧
      Code.commentText text = "/* \"a*/b\\\"\" */" ∧
      C.comment? (Code.commentText text).toList = some "b\\\"\" */".toList := by
  have hfound : quoting.memory.stringAt? 0x406 = some "a*/b\\\"" := by decide +kernel
  exact ⟨_, congrArg (Code.const _) hfound, by decide +kernel, by decide +kernel⟩

end Framed

end WasmLift
