import Mathlib.Data.List.Chain
import Mathlib.Data.List.Forall2
import Mathlib.Data.List.TakeWhile
import WasmLift.Proofs.Listing.Indenting

/-!
# Texts as trees of scopes

A passage is a text whose scopes are known: a list of characters and of brace scopes, each with the
passages that are its statements (`Text.Passage`). Printing one puts every statement on a line of
its own, inside as many scopes as there are around it, with a fixed width of spaces for each. With
two spaces this is what the printer of scopes does, which indents a whole statement again for every
scope around it (`Text.Prints.scope`), and with none it is the text without the spaces in front of
its lines (`Text.Passage.printLines_unindent`).
-/

namespace WasmLift

namespace Text

/-- A part of a text: a character, or a brace scope with its statements. -/
inductive Piece where
  | sign (c : Char)
  | scope (statements : List (List Piece))

/-- A text in pieces. -/
abbrev Passage := List Piece

namespace Passage

/-- The beginning of a line inside `depth` scopes. -/
def newLine (width depth : Nat) : List Char :=
  '\n' :: List.replicate (width * depth) ' '

mutual

/-- Prints a piece inside `depth` scopes. -/
def printPiece (width depth : Nat) : Piece → List Char
  | .sign c => [c]
  | .scope statements =>
    '{' :: (printLines width (depth + 1) statements ++ (newLine width depth ++ ['}']))
termination_by structural piece => piece

/-- Prints a passage. -/
def print (width depth : Nat) : Passage → List Char
  | [] => []
  | piece :: rest => printPiece width depth piece ++ print width depth rest
termination_by structural pieces => pieces

/-- Prints statements, each on a line of its own. -/
def printLines (width depth : Nat) : List Passage → List Char
  | [] => []
  | s :: rest => newLine width depth ++ (print width depth s ++ printLines width depth rest)
termination_by structural statements => statements

end

section
variable {width depth : Nat}

/-- A text of two parts is printed part by part. -/
@[simp] theorem print_append (p q : Passage) :
    print width depth (p ++ q) = print width depth p ++ print width depth q := by
  induction p with
  | nil => rfl
  | cons x p ih => simp [print, ih]

/-- Characters print as themselves. -/
@[simp] theorem print_signs (cs : List Char) : print width depth (cs.map .sign) = cs := by
  induction cs with
  | nil => rfl
  | cons c cs ih => simp [print, printPiece, ih]

/-- Only an empty text prints as nothing. -/
theorem print_eq_nil {p : Passage} : print width depth p = [] ↔ p = [] := by
  cases p with
  | nil => simp [print]
  | cons x p => cases x <;> simp [print, printPiece]

/-- Two lists of statements are printed one after the other. -/
theorem printLines_append (ss ts : List Passage) :
    printLines width depth (ss ++ ts) = printLines width depth ss ++ printLines width depth ts := by
  induction ss with
  | nil => rfl
  | cons s ss ih => simp [printLines, ih]

end

end Passage

/-! ## The ends of a statement -/

namespace Piece

/-- The piece can be seen: it is not a blank. -/
def isDark : Piece → Bool
  | .sign c => !isBlank c
  | .scope _ => true

/-- The piece is a space. -/
def isSpace : Piece → Bool
  | .sign c => c == ' '
  | .scope _ => false

/-- The piece ends a statement: it is a semicolon or a scope. -/
def isEnd : Piece → Bool
  | .sign c => c == ';'
  | .scope _ => true

/-- What can be seen is no space. -/
theorem isSpace_of_isDark {x : Piece} (h : x.isDark = true) : x.isSpace = false := by
  cases x with
  | scope => rfl
  | sign c =>
    rw [isSpace, beq_eq_false_iff_ne]
    rintro rfl
    exact absurd h (by decide)

/-- The end of a statement can be seen. -/
theorem isDark_of_isEnd {x : Piece} (h : x.isEnd = true) : x.isDark = true := by
  cases x with
  | scope => rfl
  | sign c =>
    obtain rfl : c = ';' := beq_iff_eq.1 h
    decide

end Piece

namespace Passage

/-- The first piece of the text can be seen. -/
def StartsDark (p : Passage) : Prop :=
  ∃ x rest, p = x :: rest ∧ x.isDark = true

/-- The last piece of the text ends a statement. -/
def EndsStatement (p : Passage) : Prop :=
  ∃ init x, p = init ++ [x] ∧ x.isEnd = true

/-- The text is a statement: it begins with what can be seen, and ends in a semicolon or a scope. -/
structure Bounded (p : Passage) : Prop where
  first : p.StartsDark
  last : p.EndsStatement

end Passage

/-- Only scopes break the line, and there are only statements in them. -/
inductive Piece.Tight : Piece → Prop where
  | sign {c : Char} (own : c ≠ '\n') : Tight (.sign c)
  | scope {statements : List Passage} (bounded : ∀ s ∈ statements, Passage.Bounded s)
      (tight : ∀ s ∈ statements, ∀ x ∈ s, Tight x) : Tight (.scope statements)

namespace Passage

variable {width depth : Nat} {p : Passage}

/-- A text that begins with what can be seen prints so. -/
theorem StartsDark.print (h : p.StartsDark) : Text.StartsDark (print width depth p) := by
  obtain ⟨x, rest, rfl, hdark⟩ := h
  cases x with
  | sign c => exact ⟨c, _, rfl, by simpa [Piece.isDark] using hdark⟩
  | scope => exact ⟨'{', _, rfl, by decide⟩

/-- A text that ends a statement prints so, with its last character in sight. -/
theorem EndsStatement.print (h : p.EndsStatement) : EndsDark (print width depth p) := by
  obtain ⟨init, x, rfl, hend⟩ := h
  rw [print_append]
  refine EndsDark.append ?_ _
  cases x with
  | sign c =>
    obtain rfl : c = ';' := beq_iff_eq.1 hend
    exact ⟨[], ';', rfl, by decide⟩
  | scope statements =>
    have hclose : EndsDark (newLine width depth ++ ['}']) := ⟨_, '}', rfl, by decide⟩
    have hscope := (hclose.append (printLines width (depth + 1) statements)).append ['{']
    simpa [Passage.print, printPiece] using hscope

/-! ## Lines that end in no blank -/

/-- Spaces can be followed by anything. -/
theorem continues_spaces (n : Nat) : Continues (List.replicate n ' ') :=
  continues_of_oneLine (by simp [List.mem_replicate])

/-- A text may be continued if each of its pieces may. -/
theorem print_continues (h : ∀ x ∈ p, Continues (printPiece width depth x)) :
    Continues (print width depth p) := by
  induction p with
  | nil => exact continues_of_oneLine List.not_mem_nil
  | cons x p ih =>
    obtain ⟨hx, hp⟩ := List.forall_mem_cons.1 h
    exact hx.append (ih hp)

/-- Statements stand behind what is not a blank, and what stands behind them does, too. -/
theorem printLines_chain {statements : List Passage} {cs : List Char}
    (hbounded : ∀ s ∈ statements, s.Bounded)
    (h : ∀ s ∈ statements, Continues (print width depth s))
    (hcs : ∀ c, isBlank c = false → List.IsChain Follows (c :: cs)) (c : Char)
    (hc : isBlank c = false) :
    List.IsChain Follows (c :: (printLines width depth statements ++ cs)) := by
  induction statements generalizing c with
  | nil => exact hcs c hc
  | cons s rest ih =>
    obtain ⟨hs, hrest⟩ := List.forall_mem_cons.1 h
    obtain ⟨hbound, hbounded⟩ := List.forall_mem_cons.1 hbounded
    have hline := ((continues_spaces (width * depth)).append hs).append_chain
      (hbound.last.print.append _) fun c hc => ih hbounded hrest c hc
    simpa [printLines, newLine] using List.IsChain.cons_cons (fun _ => hc) (hline '\n')

/-- A piece whose line breaks come from its scopes may be continued, whatever the depth, by
induction on the scopes in it. -/
theorem printPiece_continues {x : Piece} (h : x.Tight) :
    ∀ depth, Continues (printPiece width depth x) := by
  induction h with
  | @sign c hc => exact fun _ => continues_of_oneLine (by simpa [printPiece] using Ne.symm hc)
  | @scope statements hbounded _ ih =>
    intro depth a
    have hclose (c : Char) (hc : isBlank c = false) :
        List.IsChain Follows (c :: (newLine width depth ++ ['}'])) := by
      have hline := (continues_spaces (width * depth)).append
        (continues_of_oneLine (show '\n' ∉ ['}'] by decide))
      exact .cons_cons (fun _ => hc) (hline '\n')
    have hinside := printLines_chain hbounded
      (fun s hs => print_continues fun x hx => ih s hs x hx (depth + 1)) hclose '{' (by decide)
    exact .cons_cons (by simp [Follows]) hinside

/-! ## Other widths and depths -/

section
variable {f : List Char → List Char} {width' shift : Nat}

/-- The rewriting turns the one text into the other, whatever follows. -/
def Turns (f : List Char → List Char) (cs cs' : List Char) : Prop :=
  ∀ rest, f (cs ++ rest) = cs' ++ f rest

/-- What turns two texts into others turns the one behind the other so. -/
theorem Turns.append {as as' bs bs' : List Char} (ha : Turns f as as') (hb : Turns f bs bs') :
    Turns f (as ++ bs) (as' ++ bs') := by
  intro rest
  rw [List.append_assoc, ha, hb, List.append_assoc]

/-- A text is turned if each of its pieces is, at every depth. -/
theorem print_turns (h : ∀ x ∈ p, ∀ depth,
      Turns f (printPiece width depth x) (printPiece width' (depth + shift) x)) (depth : Nat) :
    Turns f (print width depth p) (print width' (depth + shift) p) := by
  induction p with
  | nil => exact fun _ => rfl
  | cons x p ih =>
    obtain ⟨hx, hp⟩ := List.forall_mem_cons.1 h
    exact (hx depth).append (ih hp)

variable (hsign : ∀ c, c ≠ '\n' → Turns f [c] [c])
  (hline : ∀ depth cs, Text.StartsDark cs →
    f (newLine width depth ++ cs) = newLine width' (depth + shift) ++ f cs)
include hline

/-- Statements are turned line by line, as each begins with what can be seen. -/
theorem printLines_turns {statements : List Passage} (hfirst : ∀ s ∈ statements, s.StartsDark)
    (h : ∀ s ∈ statements, ∀ depth,
      Turns f (print width depth s) (print width' (depth + shift) s)) (depth : Nat) :
    Turns f (printLines width depth statements) (printLines width' (depth + shift) statements) := by
  induction statements with
  | nil => exact fun _ => rfl
  | cons s statements ih =>
    obtain ⟨hs, hstatements⟩ := List.forall_mem_cons.1 h
    obtain ⟨hbegin, hfirst⟩ := List.forall_mem_cons.1 hfirst
    intro rest
    rw [printLines, printLines, List.append_assoc, List.append_assoc, List.append_assoc,
      hline depth _ (hbegin.print.append _), hs depth, ih hfirst hstatements, List.append_assoc]

include hsign

/-- A rewriting that keeps the characters of a line and changes the spaces in front of them turns
what is printed with the old spaces into what is printed with the new ones. -/
theorem printPiece_turns {x : Piece} (h : x.Tight) :
    ∀ depth, Turns f (printPiece width depth x) (printPiece width' (depth + shift) x) := by
  induction h with
  | @sign c hc => exact fun _ => hsign c hc
  | @scope statements hbounded _ ih =>
    intro depth rest
    have hinside := printLines_turns hline (fun s hs => (hbounded s hs).first)
      (fun s hs => print_turns fun x hx => ih s hs x hx) (depth + 1)
    have hopen (width depth : Nat) (rest : List Char) :
        printPiece width depth (.scope statements) ++ rest =
          ['{'] ++ (printLines width (depth + 1) statements ++
            (newLine width depth ++ (['}'] ++ rest))) := by
      simp [printPiece]
    have hclose : Text.StartsDark (['}'] ++ rest) := ⟨'}', rest, rfl, by decide⟩
    rw [hopen, hopen, hsign '{' (by decide), hinside, hline depth _ hclose, hsign '}' (by decide),
      Nat.add_right_comm]

end

/-- A passage one scope deeper is the passage with all lines but the first one further in. -/
theorem deepen_print (h : ∀ x ∈ p, x.Tight) (depth : Nat) :
    deepen width (print width depth p) = print width (depth + 1) p := by
  have hsign (c : Char) (hc : c ≠ '\n') : Turns (deepen width) [c] [c] := by
    intro rest
    rw [deepen_append, deepen_oneLine (by simpa using Ne.symm hc)]
  have hline (depth : Nat) (cs : List Char) (_ : Text.StartsDark cs) :
      deepen width (newLine width depth ++ cs) =
        newLine width (depth + 1) ++ deepen width cs := by
    have hspaces : '\n' ∉ List.replicate (width * depth) ' ' := by simp [List.mem_replicate]
    rw [deepen_append, newLine, deepen_lineBreak, deepen_oneLine hspaces,
      List.replicate_append_replicate, newLine, Nat.mul_succ, Nat.add_comm width]
  have hprint := print_turns (fun x hx => printPiece_turns hsign hline (h x hx)) depth []
  simpa [deepen] using hprint

/-- Without the spaces in front of their lines statements are what is printed with no
indentation. -/
theorem printLines_unindent {statements : List Passage}
    (hfirst : ∀ s ∈ statements, s.StartsDark)
    (htight : ∀ s ∈ statements, ∀ x ∈ s, x.Tight) (depth : Nat) :
    Turns unindent (printLines width depth statements) (printLines 0 depth statements) := by
  have hsign (c : Char) (hc : c ≠ '\n') : Turns unindent [c] [c] :=
    unindent_oneLine (by simpa using Ne.symm hc)
  have hline (depth : Nat) (cs : List Char) (h : Text.StartsDark cs) :
      unindent (newLine width depth ++ cs) = newLine 0 (depth + 0) ++ unindent cs := by
    simpa [newLine] using unindent_line h (width * depth)
  exact printLines_turns hline hfirst
    (fun s hs => print_turns fun x hx => printPiece_turns hsign hline (htight s hs x hx)) depth

/-! ## Putting passages together -/

/-- A text without scopes. -/
def ofString (s : String) : Passage :=
  s.toList.map .sign

instance : Coe String Passage := ⟨ofString⟩

/-- The text ends with the brace that closes a scope. -/
def closes (p : Passage) : Bool :=
  match p.getLast? with
  | some (.scope _) => true
  | _ => false

/-- The text with its end: a semicolon, unless it closes a scope. -/
def terminated (p : Passage) : Passage :=
  if p.closes then p else p ++ ofString ";"

/-- A text as a statement of a scope: nothing when it is empty. -/
def statement (p : Passage) : List Passage :=
  if p.isEmpty then [] else [p.terminated]

/-- The text without the spaces in front. -/
def unspaced (p : Passage) : Passage :=
  p.dropWhile Piece.isSpace

/-- A scope behind its head. -/
def scope (head : Passage) (statements : List Passage) : Passage :=
  head ++ [.scope (statements.map unspaced)]

/-- The text may be put in front of and behind others, and be ended as a statement: a brace is its
last character only if it closes a scope. -/
structure Fit (p : Passage) : Prop where
  tight : ∀ x ∈ p, x.Tight
  first : p.unspaced ≠ [] → p.unspaced.StartsDark
  last : p.getLast? ≠ some (.sign '}')

/-- The text has the end of a statement. -/
structure Ended (p : Passage) : Prop extends p.Fit where
  ends : p.EndsStatement

/-- Something is left without the spaces in front if something can be seen. -/
theorem unspaced_ne_nil (h : ∃ x ∈ p, x.isDark = true) : p.unspaced ≠ [] := by
  obtain ⟨x, hmem, hdark⟩ := h
  intro hnil
  have hspace := List.dropWhile_eq_nil_iff.1 hnil x hmem
  rw [Piece.isSpace_of_isDark hdark] at hspace
  cases hspace

section
variable {q : Passage}

/-- The end of two parts is that of the second, if it is not empty. -/
theorem EndsStatement.of_append (h : (p ++ q).EndsStatement) (hne : q ≠ []) :
    q.EndsStatement := by
  obtain ⟨init, x, heq, hend⟩ := h
  obtain rfl | ⟨init', y, rfl⟩ := List.eq_nil_or_concat' q
  · exact absurd rfl hne
  · obtain rfl : y = x := by simpa using congrArg List.getLast? heq
    exact ⟨init', y, rfl, hend⟩

/-- What begins a text still does when something is put behind it. -/
theorem StartsDark.append (h : p.StartsDark) : (p ++ q).StartsDark := by
  obtain ⟨x, rest, rfl, hdark⟩ := h
  exact ⟨x, rest ++ q, rfl, hdark⟩

/-- A text with the end of a statement is a statement, without the spaces in front. -/
theorem Ended.bounded (h : p.Ended) : p.unspaced.Bounded := by
  have hne : p.unspaced ≠ [] := by
    obtain ⟨init, x, rfl, hend⟩ := h.ends
    exact unspaced_ne_nil ⟨x, by simp, Piece.isDark_of_isEnd hend⟩
  have hcut : p.takeWhile Piece.isSpace ++ p.unspaced = p := List.takeWhile_append_dropWhile
  have hends := h.ends
  rw [← hcut] at hends
  exact ⟨h.first hne, hends.of_append hne⟩

/-- What is left without the spaces in front is as tight as the text. -/
theorem Ended.tight_unspaced (h : p.Ended) : ∀ x ∈ p.unspaced, x.Tight :=
  fun x hx => h.tight x ((List.dropWhile_sublist _).subset hx)

/-- The spaces in front are those of the first part, if it is not all spaces. -/
theorem unspaced_append (h : p.unspaced ≠ []) : (p ++ q).unspaced = p.unspaced ++ q := by
  rw [unspaced, List.dropWhile_append, if_neg (by simpa [unspaced] using h)]
  rfl

/-- Two texts that can be put together are one that can. -/
theorem Fit.append (hp : p.Fit) (hq : q.Fit) : (p ++ q).Fit where
  tight := List.forall_mem_append.2 ⟨hp.tight, hq.tight⟩
  first := by
    by_cases hne : p.unspaced = []
    · rw [unspaced, List.dropWhile_append, if_pos (by simpa [unspaced] using hne)]
      exact hq.first
    · rw [unspaced_append hne]
      exact fun _ => (hp.first hne).append
  last := by
    rw [List.getLast?_append]
    cases hlast : q.getLast? with
    | none => simpa using hp.last
    | some x => simpa [hlast] using hq.last

/-- A text on one line has no line break to come from a scope. -/
theorem tight_ofString {s : String} (h : OneLine s) : ∀ x ∈ ofString s, x.Tight := by
  intro x hx
  obtain ⟨c, hc, rfl⟩ := List.mem_map.1 hx
  refine .sign ?_
  rintro rfl
  exact h hc

/-- A plain text can be put together with others. -/
theorem fit_ofString {s : String} (h : Plain s) : (ofString s).Fit where
  tight := tight_ofString h.oneLine
  first hne := by
    obtain ⟨x, rest, heq⟩ := List.exists_cons_of_ne_nil hne
    have hspace : x.isSpace = false := by
      have hnot := List.head?_dropWhile_not Piece.isSpace (ofString s)
      rw [← unspaced, heq] at hnot
      simpa using hnot
    have hmem : x ∈ ofString s := (List.dropWhile_sublist _).subset (heq ▸ List.mem_cons_self)
    obtain ⟨c, hc, rfl⟩ := List.mem_map.1 hmem
    have hplain := h c hc
    rw [isPlain, show (c == ' ') = false from hspace, Bool.false_or, Bool.and_eq_true] at hplain
    exact ⟨_, rest, heq, hplain.1⟩
  last := by
    intro hlast
    obtain ⟨c, hc, heq⟩ := List.mem_map.1 (List.mem_of_getLast? hlast)
    cases heq
    exact absurd (h _ hc) (by decide)

/-- Between two texts any other one may stand that keeps to its line, as long as something in front
of it can be seen and something is behind it. -/
theorem Fit.enclose {s : String} (hp : p.Fit) (hs : OneLine s) (hq : q.Fit)
    (hseen : ∃ x ∈ p, x.isDark = true) (hne : q ≠ []) : (p ++ ofString s ++ q).Fit where
  tight := List.forall_mem_append.2
    ⟨List.forall_mem_append.2 ⟨hp.tight, tight_ofString hs⟩, hq.tight⟩
  first := by
    have hne := unspaced_ne_nil hseen
    rw [List.append_assoc, unspaced_append hne]
    exact fun _ => (hp.first hne).append
  last := by
    rw [List.getLast?_append_of_ne_nil _ hne]
    exact hq.last

end

/-- A text closes a scope if its last piece is one. -/
theorem closes_iff : p.closes = true ↔ ∃ init statements, p = init ++ [.scope statements] := by
  unfold closes
  split
  · next statements heq =>
    obtain ⟨init, rfl⟩ := List.getLast?_eq_some_iff.1 heq
    exact iff_of_true rfl ⟨init, statements, rfl⟩
  · next hother =>
    refine iff_of_false Bool.false_ne_true ?_
    rintro ⟨init, statements, rfl⟩
    exact hother statements List.getLast?_concat

/-- A text that can be put together with others is a statement once it has its end. -/
theorem Fit.terminated (h : p.Fit) : p.terminated.Ended := by
  unfold Passage.terminated
  split
  · next hcloses =>
    obtain ⟨init, statements, rfl⟩ := closes_iff.1 hcloses
    exact ⟨h, init, _, rfl, rfl⟩
  · exact ⟨h.append (fit_ofString (by decide)), p, .sign ';', rfl, rfl⟩

/-- A scope of statements can be put together with others. -/
theorem fit_scope {statements : List Passage} (h : ∀ s ∈ statements, s.Ended) :
    Fit [.scope (statements.map unspaced)] where
  tight := List.forall_mem_singleton.2 <| .scope
    (List.forall_mem_map.2 fun s hs => (h s hs).bounded)
    (List.forall_mem_map.2 fun s hs => (h s hs).tight_unspaced)
  first _ := ⟨_, [], rfl, rfl⟩
  last := by simp

/-! ## Printed passages -/

/-- The text as it is printed outside of all scopes. -/
def text (p : Passage) : String :=
  String.ofList (print 2 0 p)

/-- A brace ends what is printed exactly if it closes a scope. -/
theorem Fit.getLast?_print (h : p.Fit) :
    (print width depth p).getLast? = some '}' ↔ p.closes = true := by
  obtain rfl | ⟨init, x, rfl⟩ := List.eq_nil_or_concat' p
  · simp [print, closes]
  cases x with
  | sign c =>
    have hne : c ≠ '}' := by
      rintro rfl
      exact h.last List.getLast?_concat
    simp [print, printPiece, closes, hne]
  | scope statements =>
    simp [print, printPiece, closes, List.getLast?_append, List.getLast?_cons]

/-- Spaces print as blanks. -/
theorem print_spaces (h : ∀ x ∈ p, x.isSpace = true) :
    ∀ c ∈ print width depth p, isBlank c = true := by
  induction p with
  | nil => exact List.forall_mem_nil _
  | cons x p ih =>
    obtain ⟨hx, hp⟩ := List.forall_mem_cons.1 h
    cases x with
    | sign c =>
      obtain rfl : c = ' ' := beq_iff_eq.1 hx
      exact List.forall_mem_cons.2 ⟨by decide, ih hp⟩
    | scope => cases hx

end Passage

/-- The string is what is printed for the passage outside of all scopes. -/
structure Prints (s : String) (p : Passage) : Prop where
  toList : s.toList = Passage.print 2 0 p
  fit : p.Fit

namespace Prints

variable {s t : String} {p q : Passage}

/-- A plain text is printed as it is. -/
theorem plain (h : Plain s) : Prints s s :=
  ⟨(Passage.print_signs _).symm, Passage.fit_ofString h⟩

/-- What is printed for two parts is printed for both together. -/
theorem append (hs : Prints s p) (ht : Prints t q) : Prints (s ++ t) (p ++ q) where
  toList := by rw [String.toList_append, hs.toList, ht.toList, Passage.print_append]
  fit := hs.fit.append ht.fit

/-- The string is the text of the passage. -/
theorem text_eq (h : Prints s p) : p.text = s := by
  rw [Passage.text, ← h.toList, String.ofList_toList]

/-- The printer of statements ends a text as its passage is ended. -/
theorem terminate (h : Prints s p) : Prints (terminate s) p.terminated := by
  unfold Text.terminate Passage.terminated
  rw [h.toList]
  simp only [h.fit.getLast?_print]
  split
  · exact h
  · exact h.append (.plain (by decide))

end Prints

/-- The string is what is printed for a statement outside of all scopes. -/
structure PrintsStatement (s : String) (p : Passage) : Prop extends Prints s p where
  ends : p.EndsStatement

section
variable {s : String} {p : Passage} {texts : List String} {statements : List Passage}

/-- What prints a statement has the end of one. -/
theorem PrintsStatement.ended (h : PrintsStatement s p) : p.Ended :=
  ⟨h.fit, h.ends⟩

/-- What prints statements has the end of one each time. -/
theorem ended_of_prints (h : List.Forall₂ PrintsStatement texts statements) :
    ∀ s ∈ statements, s.Ended := by
  induction h with
  | nil => exact List.forall_mem_nil _
  | cons hs _ ih => exact List.forall_mem_cons.2 ⟨hs.ended, ih⟩

/-- The printer makes a statement of a text, or none, as is done with its passage. -/
theorem Prints.statement (h : Prints s p) :
    List.Forall₂ PrintsStatement (Text.statement s) p.statement := by
  have hempty : s.isEmpty = p.isEmpty := by
    rw [Bool.eq_iff_iff, String.isEmpty_iff, List.isEmpty_iff,
      ← @Passage.print_eq_nil 2 0, ← h.toList, String.toList_eq_nil_iff]
  unfold Text.statement Passage.statement
  rw [hempty]
  split
  · exact .nil
  · exact .cons ⟨h.terminate, h.fit.terminated.ends⟩ .nil

/-- To indent a printed statement is to print it inside a scope. -/
theorem PrintsStatement.indent (h : PrintsStatement s p) :
    (indent s).toList = ' ' :: ' ' :: Passage.print 2 1 p.unspaced := by
  have hcut : p.takeWhile Piece.isSpace ++ p.unspaced = p := List.takeWhile_append_dropWhile
  have hblanks : ∀ c ∈ Passage.print 2 0 (p.takeWhile Piece.isSpace), isBlank c = true :=
    Passage.print_spaces fun _ hx => List.mem_takeWhile_imp hx
  have hcontinues : Continues (Passage.print 2 0 p.unspaced) :=
    Passage.print_continues fun x hx =>
      Passage.printPiece_continues (h.ended.tight_unspaced x hx) 0
  have htext : s = String.ofList (Passage.print 2 0 (p.takeWhile Piece.isSpace) ++
      Passage.print 2 0 p.unspaced) := by
    rw [← Passage.print_append, hcut, ← h.toList, String.ofList_toList]
  rw [htext, indent_eq hblanks h.ended.bounded.first.print h.ended.bounded.last.print hcontinues,
    Passage.deepen_print h.ended.tight_unspaced]

/-- Statements that the printer indents are the lines of their passages at depth one, two spaces
wide. -/
theorem indented_toList (h : List.Forall₂ PrintsStatement texts statements) :
    (indented texts).toList = Passage.printLines 2 1 (statements.map Passage.unspaced) := by
  induction h with
  | nil => rfl
  | cons hs _ ih =>
    rw [indented, String.toList_append, String.toList_append, hs.indent, ih]
    simp [Passage.printLines, Passage.newLine]

/-- A scope, whose statements are indented as they are put in, is the passage with the scope. -/
theorem Prints.scope {head : String} (h : Prints s p) (hhead : head = s ++ "\x7b")
    (hstatements : List.Forall₂ PrintsStatement texts statements) :
    Prints (Text.scope head texts) (Passage.scope p statements) where
  toList := by
    rw [Text.scope, hhead, String.toList_append, String.toList_append, String.toList_append,
      indented_toList hstatements, h.toList, Passage.scope, Passage.print_append]
    simp [Passage.print, Passage.printPiece, Passage.newLine]
  fit := h.fit.append (Passage.fit_scope (ended_of_prints hstatements))

end

end Text

end WasmLift
