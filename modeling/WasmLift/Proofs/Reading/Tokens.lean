import Mathlib.Data.List.Basic

/-!
# The tokens of C

A text is cut into words, numbers and punctuators from left to right, each as long as possible
(`C.tokens`). Blanks and comments stand between tokens. The cut goes character by character: what
has been read of a token goes on with the next character (`C.Mode.extend?`), or is complete. So a
text that is followed by a blank or a bracket gives the same tokens whatever comes after that
(`C.Spells`).
-/

namespace WasmLift.C

/-- A token. Numbers are those of the preprocessor: digits, letters and points. -/
inductive Token where
  | word (text : String)
  | number (text : String)
  | symbol (text : String)
deriving DecidableEq, Repr

/-- The character may begin an identifier. -/
def isLetter (c : Char) : Bool :=
  c.isAlpha || c == '_' || c == '$'

/-- The character may stand in an identifier. -/
def isWordChar (c : Char) : Bool :=
  isLetter c || c.isDigit

/-- The punctuators, without those that only declarations and directives have. -/
def punctuators : List String :=
  ["[", "]", "(", ")", ".", "->", "++", "--", "&", "*", "+", "-", "~", "!", "/", "%", "<<", ">>",
    "<", ">", "<=", ">=", "==", "!=", "^", "|", "&&", "||", "?", ":", ";", "=", "*=", "/=", "%=",
    "+=", "-=", "<<=", ">>=", "&=", "^=", "|=", ","]

/-- What the last characters belong to. -/
inductive Mode where
  | between
  | word (chars : List Char)
  | number (chars : List Char)
  | symbol (chars : List Char)
  /-- A comment, with whether its last character is a star. -/
  | comment (star : Bool)
  /-- A comment up to the end of the line. -/
  | line
deriving DecidableEq, Repr

namespace Mode

/-- The token that is complete. -/
def flush : Mode → List Token
  | .word chars => [.word (String.ofList chars)]
  | .number chars => [.number (String.ofList chars)]
  | .symbol chars => [.symbol (String.ofList chars)]
  | .between | .comment _ | .line => []

/-- What a character begins. -/
def begin (c : Char) : Mode :=
  if c.isWhitespace then .between
  else if isLetter c then .word [c]
  else if c.isDigit then .number [c]
  else .symbol [c]

/-- A sign goes on with a number behind the mark of an exponent. -/
def isExponentSign (chars : List Char) (c : Char) : Bool :=
  (c == '+' || c == '-') && (chars.getLast?.map ['e', 'E', 'p', 'P'].contains).getD false

/-- What the last characters belong to together with the next one, if that goes on with them. -/
def extend? : Mode → Char → Option Mode
  | .between, _ => none
  | .word chars, c => if isWordChar c then some (.word (chars ++ [c])) else none
  | .number chars, c =>
    if isWordChar c || c == '.' || isExponentSign chars c then some (.number (chars ++ [c]))
    else none
  | .symbol chars, c =>
    if chars == ['/'] && c == '*' then some (.comment false)
    else if chars == ['/'] && c == '/' then some .line
    else if punctuators.any (·.toList == chars ++ [c]) then some (.symbol (chars ++ [c]))
    else none
  | .comment star, c => some (if star && c == '/' then .between else .comment (c == '*'))
  | .line, c => some (if c == '\n' then .between else .line)

end Mode

/-- The tokens from the state that the characters before have led to. -/
def tokensFrom : Mode → List Char → List Token
  | mode, [] => mode.flush
  | mode, c :: rest =>
    match mode.extend? c with
    | some mode => tokensFrom mode rest
    | none => mode.flush ++ tokensFrom (.begin c) rest

/-- The tokens of a text. -/
def tokens (text : String) : List Token :=
  tokensFrom .between text.toList

example : tokens "a-->b /* -> */ - 0x1e+1" = [.word "a", .symbol "--", .symbol ">", .word "b",
    .symbol "-", .number "0x1e+1"] := by
  decide +kernel

/-! ## Texts that are followed by a blank or a bracket -/

/-- The characters in front of which a token of an expression may end. -/
def stops : List Char :=
  [' ', '(', ')', '[', ']', ',']

/-- The text begins with one of the characters, if it is not empty. -/
def Stops (text : List Char) : Prop :=
  ∀ c ∈ text.head?, c ∈ stops

/-- The text gives the tokens, whatever follows it. -/
def Separate (text : String) (ts : List Token) : Prop :=
  ∀ rest, tokensFrom .between (text.toList ++ rest) = ts ++ tokensFrom .between rest

/-- The text gives the tokens if it is followed by a blank, a comma or a bracket, or by nothing. -/
def Spells (text : String) (ts : List Token) : Prop :=
  ∀ rest, Stops rest →
    tokensFrom .between (text.toList ++ rest) = ts ++ tokensFrom .between rest

variable {text text' : String} {ts ts' : List Token}

/-- A text that gives its tokens whatever follows gives them before a blank or bracket. -/
theorem Separate.spells (h : Separate text ts) : Spells text ts :=
  fun rest _ => h rest

/-- A text that spells tokens is cut into them. -/
theorem Spells.tokens_eq (h : Spells text ts) : tokens text = ts := by
  have hend := h [] (by simp [Stops])
  rwa [List.append_nil, tokensFrom, Mode.flush, List.append_nil] at hend

/-- A text that gives its tokens whatever follows may stand before any other. -/
theorem Separate.append_spells (h : Separate text ts) (h' : Spells text' ts') :
    Spells (text ++ text') (ts ++ ts') := by
  intro rest hrest
  rw [String.toList_append, List.append_assoc, h, h' rest hrest, List.append_assoc]

/-- A text may stand before one that begins with a blank or bracket. -/
theorem Spells.append_separate (h : Spells text ts) (h' : Separate text' ts') {c : Char}
    (hfirst : text'.toList.head? = some c) (hc : c ∈ stops) :
    Separate (text ++ text') (ts ++ ts') := by
  intro rest
  have hstops : Stops (text'.toList ++ rest) := by
    simpa [Stops, List.head?_append, hfirst] using hc
  rw [String.toList_append, List.append_assoc, h _ hstops, h', List.append_assoc]

/-- Two texts give their tokens together if the second begins with a blank or bracket. -/
theorem Spells.append (h : Spells text ts) (h' : Spells text' ts') {c : Char}
    (hfirst : text'.toList.head? = some c) (hc : c ∈ stops) :
    Spells (text ++ text') (ts ++ ts') := by
  intro rest hrest
  have hstops : Stops (text'.toList ++ rest) := by
    simpa [Stops, List.head?_append, hfirst] using hc
  rw [String.toList_append, List.append_assoc, h _ hstops, h' rest hrest, List.append_assoc]

/-- A token is complete in front of a character that does not go on with it. -/
theorem tokensFrom_flush {mode : Mode} {rest : List Char}
    (h : ∀ c ∈ rest.head?, mode.extend? c = none) :
    tokensFrom mode rest = mode.flush ++ tokensFrom .between rest := by
  cases rest with
  | nil => rw [tokensFrom, tokensFrom, Mode.flush.eq_def .between, List.append_nil]
  | cons c rest => rw [tokensFrom, h c rfl]; rfl

/-- A token is read on as long as it can be extended. -/
theorem tokensFrom_extend {mode mode' : Mode} {c : Char} (h : mode.extend? c = some mode')
    (rest : List Char) : tokensFrom mode (c :: rest) = tokensFrom mode' rest := by
  rw [tokensFrom, h]

/-- Between tokens a character begins a new one. -/
theorem tokensFrom_begin (c : Char) (rest : List Char) :
    tokensFrom .between (c :: rest) = tokensFrom (.begin c) rest :=
  rfl

/-! ## Words and numbers -/

/-- An identifier of C, or one of its keywords. The dollar sign counts as a letter. -/
def IsWord (text : String) : Prop :=
  text.toList.head?.any isLetter = true ∧ text.toList.all isWordChar = true

instance (text : String) : Decidable (IsWord text) :=
  inferInstanceAs (Decidable (_ ∧ _))

/-- A word begins with a letter, and characters of words follow. -/
theorem IsWord.cons (h : IsWord text) :
    ∃ c cs, text.toList = c :: cs ∧ isLetter c = true ∧ ∀ d ∈ cs, isWordChar d = true := by
  obtain ⟨hfirst, hall⟩ := h
  cases hlist : text.toList with
  | nil => simp [hlist] at hfirst
  | cons c cs =>
    rw [hlist, List.all_cons, Bool.and_eq_true] at hall
    exact ⟨c, cs, rfl, by simpa [hlist] using hfirst, List.all_eq_true.1 hall.2⟩

/-- A number without a sign in it. -/
def IsNumber (text : String) : Prop :=
  ∃ c cs, text.toList = c :: cs ∧ c.isDigit = true ∧ ∀ d ∈ cs, (isWordChar d || d == '.') = true

/-- Blanks are neither letters nor digits. -/
theorem isWordChar_blank {c : Char} (h : isWordChar c = true) : c.isWhitespace = false := by
  by_contra hblank
  simp only [Char.isWhitespace, Bool.not_eq_false, Bool.or_eq_true, decide_eq_true_eq] at hblank
  obtain ((rfl | rfl) | rfl) | rfl := hblank <;> revert h <;> decide

/-- Digits are no letters. -/
theorem isLetter_digit {c : Char} (h : c.isDigit = true) : isLetter c = false := by
  by_contra hletter
  simp only [isLetter, Bool.not_eq_false, Bool.or_eq_true, beq_iff_eq] at hletter
  obtain (halpha | rfl) | rfl := hletter
  · have hdigit : (decide ('0'.val ≤ c.val) && decide (c.val ≤ '9'.val)) = true := h
    have hcase : (decide ('A'.val ≤ c.val ∧ c.val ≤ 'Z'.val) ||
        (decide ('a'.val ≤ c.val) && decide (c.val ≤ 'z'.val))) = true := halpha
    simp only [Bool.or_eq_true, Bool.and_eq_true, decide_eq_true_eq, UInt32.le_iff_toNat_le]
      at hdigit hcase
    have hvals : 'A'.val.toNat = 65 ∧ 'Z'.val.toNat = 90 ∧ 'a'.val.toNat = 97 ∧
        'z'.val.toNat = 122 ∧ '0'.val.toNat = 48 ∧ '9'.val.toNat = 57 := by decide
    omega
  all_goals revert h; decide

/-- No punctuator has a letter or a digit. -/
theorem not_isWordChar_of_punctuator {p : String} (hp : p ∈ punctuators) {c : Char}
    (hc : c ∈ p.toList) : isWordChar c = false := by
  have hall : ∀ p ∈ punctuators, p.toList.all (!isWordChar ·) = true := by decide +kernel
  simpa using List.all_eq_true.1 (hall p hp) c hc

/-- A bracket or a comma is a punctuator of its own, and no punctuator has a blank. -/
theorem stop_alone {p : String} (hp : p ∈ punctuators) {c : Char} (hc : c ∈ p.toList)
    (hstop : c ∈ stops) : p.toList = [c] := by
  have hall : ∀ p ∈ punctuators, p.toList.all (fun c => !stops.contains c || p.toList == [c]) =
      true := by
    decide +kernel
  simpa [hstop] using List.all_eq_true.1 (hall p hp) c hc

/-- What ends the tokens of an expression neither stands in a word or number nor has a sign. -/
theorem stop_plain {c : Char} (hc : c ∈ stops) :
    isWordChar c = false ∧ c ≠ '.' ∧ c ≠ '+' ∧ c ≠ '-' ∧ c ≠ '*' ∧ c ≠ '/' := by
  have hall : stops.all (fun c => !isWordChar c && c != '.' && c != '+' && c != '-' && c != '*' &&
      c != '/') = true := by
    decide
  simpa [and_assoc] using List.all_eq_true.1 hall c hc

/-- A bracket begins as a symbol. -/
theorem begin_bracket {c : Char} (hc : c ∈ stops) (hblank : c ≠ ' ') :
    Mode.begin c = .symbol [c] := by
  have hall : stops.all (fun c => c == ' ' || Mode.begin c == .symbol [c]) = true := by decide
  simpa [hblank] using List.all_eq_true.1 hall c hc

/-- A symbol is not extended by a blank or bracket. -/
theorem extend_symbol_stop {chars : List Char} (hchars : chars ≠ []) {c : Char} (hc : c ∈ stops) :
    (Mode.symbol chars).extend? c = none := by
  obtain ⟨-, -, -, -, hcomment⟩ := stop_plain hc
  have hnone : ∀ p ∈ punctuators, p.toList ≠ chars ++ [c] := by
    intro p hp heq
    have halone := stop_alone hp (by simp [heq]) hc
    rw [heq] at halone
    exact hchars (by simpa using halone)
  simpa [Mode.extend?, hcomment] using hnone

/-- A word is not extended by a blank or bracket. -/
theorem extend_word_stop (chars : List Char) {c : Char} (hc : c ∈ stops) :
    (Mode.word chars).extend? c = none := by
  rw [Mode.extend?, (stop_plain hc).1]
  rfl

/-- A number is not extended by a blank or bracket. -/
theorem extend_number_stop (chars : List Char) {c : Char} (hc : c ∈ stops) :
    (Mode.number chars).extend? c = none := by
  obtain ⟨hword, hpoint, hplus, hminus, -⟩ := stop_plain hc
  simp [Mode.extend?, Mode.isExponentSign, hword, hpoint, hplus, hminus]

/-- A symbol ends in front of a letter or a digit. -/
theorem extend_symbol_word (chars : List Char) {c : Char} (hc : isWordChar c = true) :
    (Mode.symbol chars).extend? c = none := by
  have hcomment : c ≠ '*' ∧ c ≠ '/' := by
    constructor <;> rintro rfl <;> revert hc <;> decide
  have hnone : ∀ p ∈ punctuators, p.toList ≠ chars ++ [c] := by
    intro p hp heq
    have hnot := not_isWordChar_of_punctuator hp (c := c) (by simp [heq])
    rw [hc] at hnot
    cases hnot
  simpa [Mode.extend?, hcomment] using hnone

/-- The characters of a word or number go on with it. -/
theorem tokensFrom_extends {make : List Char → Mode} {cs : List Char}
    (h : ∀ d ∈ cs, ∀ chars, (make chars).extend? d = some (make (chars ++ [d]))) (chars rest) :
    tokensFrom (make chars) (cs ++ rest) = tokensFrom (make (chars ++ cs)) rest := by
  induction cs generalizing chars with
  | nil => simp
  | cons d cs ih =>
    obtain ⟨hd, hcs⟩ := List.forall_mem_cons.1 h
    rw [List.cons_append, tokensFrom_extend (hd chars), ih hcs, List.append_assoc]
    rfl

/-- A word is one token. -/
theorem IsWord.spells (h : IsWord text) : Spells text [.word text] := by
  obtain ⟨c, cs, htext, hc, hcs⟩ := h.cons
  intro rest hrest
  have hbegin : Mode.begin c = .word [c] := by
    have hblank := isWordChar_blank (c := c) (by simp [isWordChar, hc])
    simp [Mode.begin, hblank, hc]
  have hextends : ∀ d ∈ cs, ∀ chars, (Mode.word chars).extend? d = some (.word (chars ++ [d])) :=
    fun d hd _ => by simp [Mode.extend?, hcs d hd]
  have hword : String.ofList ([c] ++ cs) = text := by
    rw [List.singleton_append, ← htext, String.ofList_toList]
  rw [htext, List.cons_append, tokensFrom_begin, hbegin, tokensFrom_extends hextends,
    tokensFrom_flush fun d hd => extend_word_stop _ (hrest d hd), Mode.flush, hword]

/-- A number is one token. -/
theorem IsNumber.spells (h : IsNumber text) : Spells text [.number text] := by
  obtain ⟨c, cs, htext, hc, hcs⟩ := h
  intro rest hrest
  have hbegin : Mode.begin c = .number [c] := by
    have hblank := isWordChar_blank (c := c) (by simp [isWordChar, hc])
    simp [Mode.begin, hblank, isLetter_digit hc, hc]
  have hextends :
      ∀ d ∈ cs, ∀ chars, (Mode.number chars).extend? d = some (.number (chars ++ [d])) :=
    fun d hd _ => by
      have hd := hcs d hd
      rw [Mode.extend?, hd]
      rfl
  have hnumber : String.ofList ([c] ++ cs) = text := by
    rw [List.singleton_append, ← htext, String.ofList_toList]
  rw [htext, List.cons_append, tokensFrom_begin, hbegin, tokensFrom_extends hextends,
    tokensFrom_flush fun d hd => extend_number_stop _ (hrest d hd), Mode.flush, hnumber]

/-! ## Symbols and comments -/

/-- A bracket or a comma is a token, whatever follows it. -/
theorem separate_bracket {c : Char} (hc : c ∈ stops) (hblank : c ≠ ' ')
    (htext : text.toList = [c]) : Separate text [.symbol text] := by
  intro rest
  have hnext : ∀ d ∈ rest.head?, (Mode.symbol [c]).extend? d = none := by
    intro d _
    obtain ⟨-, -, -, -, -, hcomment⟩ := stop_plain hc
    have hnone : ∀ p ∈ punctuators, p.toList ≠ [c] ++ [d] := by
      intro p hp heq
      have halone := stop_alone hp (c := c) (by simp [heq]) hc
      simp [heq] at halone
    simpa [Mode.extend?, hcomment] using hnone
  have hsymbol : String.ofList [c] = text := by
    rw [← htext, String.ofList_toList]
  rw [htext, List.singleton_append, tokensFrom_begin, begin_bracket hc hblank,
    tokensFrom_flush hnext, Mode.flush, hsymbol]

/-- A symbol in front of a text that does not go on with it. -/
theorem Spells.signed (hsymbol : ∀ rest, tokensFrom .between (text.toList ++ rest) =
      tokensFrom (.symbol text.toList) rest)
    (h : Spells text' ts) {d : Char} (hfirst : text'.toList.head? = some d)
    (hd : (Mode.symbol text.toList).extend? d = none) :
    Spells (text ++ text') (.symbol text :: ts) := by
  intro rest hrest
  have hnext : ∀ e ∈ (text'.toList ++ rest).head?, (Mode.symbol text.toList).extend? e = none := by
    simpa [List.head?_append, hfirst] using hd
  rw [String.toList_append, List.append_assoc, hsymbol, tokensFrom_flush hnext, Mode.flush,
    String.ofList_toList, h rest hrest]
  rfl

/-- What ends a comment does not stand in the text. -/
def StaysInside (text : String) : Prop :=
  ¬ ['*', '/'] <:+: text.toList

/-- A comment goes on over characters that do not end it. -/
theorem tokensFrom_comment {cs : List Char} {star : Bool}
    (h : ¬ ['*', '/'] <:+: (if star then '*' :: cs else cs)) (rest : List Char) :
    ∃ star', tokensFrom (.comment star) (cs ++ rest) = tokensFrom (.comment star') rest := by
  induction cs generalizing star with
  | nil => exact ⟨star, rfl⟩
  | cons c cs ih =>
    have hgoes : (star && c == '/') = false := by
      by_contra hends
      simp only [Bool.not_eq_false, Bool.and_eq_true, beq_iff_eq] at hends
      obtain ⟨rfl, rfl⟩ := hends
      exact h ⟨[], cs, rfl⟩
    have hextend : (Mode.comment star).extend? c = some (.comment (c == '*')) := by
      rw [Mode.extend?, hgoes]
      rfl
    rw [List.cons_append, tokensFrom_extend hextend]
    refine ih fun hpart => h (hpart.trans ?_)
    have htail : (if c == '*' then '*' :: cs else cs) <:+ c :: cs := by
      split
      next hc =>
        cases beq_iff_eq.1 hc
        exact List.suffix_refl _
      · exact List.suffix_cons c cs
    refine (htail.trans ?_).isInfix
    split
    · exact List.suffix_cons _ _
    · exact List.suffix_refl _

/-- A comment that holds a quoted text gives no token. -/
theorem separate_comment (h : StaysInside text) :
    Separate (" /* \"" ++ text ++ "\" */") [] := by
  intro rest
  have hopen : (" /* \"" ++ text ++ "\" */").toList ++ rest =
      ' ' :: '/' :: '*' :: ' ' :: '"' ::
        (text.toList ++ '"' :: ' ' :: '*' :: '/' :: rest) := by
    simp
  obtain ⟨star, hstar⟩ := tokensFrom_comment
    (show ¬ ['*', '/'] <:+: (if false then '*' :: text.toList else text.toList) from h)
    ('"' :: ' ' :: '*' :: '/' :: rest)
  have hbody : tokensFrom .between (' ' :: '/' :: '*' :: ' ' :: '"' ::
        (text.toList ++ '"' :: ' ' :: '*' :: '/' :: rest)) =
      tokensFrom (.comment false) (text.toList ++ '"' :: ' ' :: '*' :: '/' :: rest) :=
    rfl
  have hquote : (Mode.comment star).extend? '"' = some (.comment false) := by
    cases star <;> rfl
  rw [hopen, hbody, hstar, tokensFrom_extend hquote]
  rfl

end WasmLift.C
