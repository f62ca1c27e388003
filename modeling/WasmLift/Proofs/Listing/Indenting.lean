import Mathlib.Data.List.Chain
import WasmLift.Proofs.Memory.Dump

/-!
# Indenting a text

A text is indented by trimming it, cutting it into lines, and writing each line without its trailing
blanks two spaces further in. If no line of it is empty or ends in a blank, nothing but the spaces
is new (`Text.indent_eq`): two stand in front of the text, and two behind each line break
(`Text.deepen`). The spaces in front of all lines but the first are taken away again by
`Text.unindent`.
-/

namespace WasmLift

namespace Text

/-! ## Lines -/

/-- The first character of the text is not a blank. -/
def StartsDark (cs : List Char) : Prop :=
  ∃ c rest, cs = c :: rest ∧ isBlank c = false

/-- The last character of the text is not a blank. -/
def EndsDark (cs : List Char) : Prop :=
  ∃ init c, cs = init ++ [c] ∧ isBlank c = false

/-- What follows a text does not change how it begins. -/
theorem StartsDark.append {cs : List Char} (h : StartsDark cs) (cs' : List Char) :
    StartsDark (cs ++ cs') := by
  obtain ⟨c, rest, rfl, hdark⟩ := h
  exact ⟨c, rest ++ cs', rfl, hdark⟩

/-- What stands before a text does not change how it ends. -/
theorem EndsDark.append {cs' : List Char} (h : EndsDark cs') (cs : List Char) :
    EndsDark (cs ++ cs') := by
  obtain ⟨init, c, rfl, hdark⟩ := h
  exact ⟨cs ++ init, c, (List.append_assoc ..).symm, hdark⟩

/-- A text that does not end in a blank does not end in any of them. -/
theorem EndsDark.getLast?_ne {cs : List Char} {c : Char} (h : EndsDark cs)
    (hc : isBlank c = true) : cs.getLast? ≠ some c := by
  obtain ⟨init, d, rfl, hdark⟩ := h
  rw [List.getLast?_concat]
  rintro ⟨⟩
  rw [hc] at hdark
  cases hdark

/-- A blank is not the last character. -/
theorem EndsDark.of_append_cons {cs cs' : List Char} {c : Char} (h : EndsDark (cs ++ c :: cs'))
    (hc : isBlank c = true) : EndsDark cs' := by
  obtain rfl | ⟨init, d, rfl⟩ := List.eq_nil_or_concat' cs'
  · exact absurd List.getLast?_concat (h.getLast?_ne hc)
  · refine ⟨init, d, rfl, ?_⟩
    by_contra hblank
    have hlast : (cs ++ c :: (init ++ [d])).getLast? = some d := by
      rw [← List.cons_append, ← List.append_assoc, List.getLast?_concat]
    exact h.getLast?_ne (by simpa using hblank) hlast

/-- A text that does not end in a blank is not trimmed. -/
theorem trimEnd_of_endsDark {cs : List Char} (h : EndsDark cs) : trimEnd cs = cs := by
  obtain ⟨init, c, rfl, hdark⟩ := h
  simp [trimEnd, hdark]

/-- A line that does not end in a blank is written two spaces further in. -/
theorem indentLine_of_endsDark {cs : List Char} (h : EndsDark cs) :
    indentLine cs = ' ' :: ' ' :: cs :=
  trimEnd_of_endsDark (h.append [' ', ' '])

/-- A text without a line break is one line. -/
theorem lines_of_oneLine {line : List Char} (hline : '\n' ∉ line) (hne : line ≠ []) :
    lines line = [line] := by
  have hsplit : splitLines line = [line] := by
    induction line with
    | nil => exact absurd rfl hne
    | cons c line ih =>
      obtain ⟨hc, hrest⟩ := List.ne_and_not_mem_of_not_mem_cons hline
      cases line with
      | nil => simp [splitLines, Ne.symm hc]
      | cons d line => rw [splitLines, if_neg (Ne.symm hc), ih hrest (List.cons_ne_nil _ _)]
  have hbreak {rest : List Char} : line.reverse ≠ '\n' :: rest :=
    fun heq => hline (List.mem_reverse.1 (heq ▸ List.mem_cons_self))
  have hchomp : chomp line = line := by
    unfold chomp
    split
    · next heq => exact absurd heq hbreak
    · next heq => exact absurd heq hbreak
    · rfl
  rw [lines, hsplit, List.map_singleton, hchomp]

/-- The character may stand behind the other one: a line break stands behind no blank. -/
def Follows (a b : Char) : Prop :=
  b = '\n' → isBlank a = false

/-- No line in front of another one is empty or ends in a blank. -/
theorem endsDark_of_chain {line cs : List Char}
    (h : List.IsChain Follows ('\n' :: (line ++ '\n' :: cs))) : EndsDark line := by
  obtain rfl | ⟨init, c, rfl⟩ := List.eq_nil_or_concat' line
  · exact absurd (h.rel_head? rfl rfl) (by decide)
  · rw [List.append_assoc, List.singleton_append, List.isChain_cons_append_cons_cons] at h
    exact ⟨init, c, rfl, h.2.1 rfl⟩

/-! ## Further in -/

/-- The text with all lines but the first one further in. -/
def deepen (width : Nat) (cs : List Char) : List Char :=
  cs.flatMap fun c => if c = '\n' then '\n' :: List.replicate width ' ' else [c]

/-- A text of two parts is written further in part by part. -/
theorem deepen_append (width : Nat) (cs cs' : List Char) :
    deepen width (cs ++ cs') = deepen width cs ++ deepen width cs' :=
  List.flatMap_append

/-- Spaces are put behind a line break. -/
theorem deepen_lineBreak (width : Nat) (cs : List Char) :
    deepen width ('\n' :: cs) = '\n' :: (List.replicate width ' ' ++ deepen width cs) :=
  List.flatMap_cons

/-- A text without a line break stays as it is. -/
theorem deepen_oneLine {width : Nat} {cs : List Char} (h : '\n' ∉ cs) : deepen width cs = cs := by
  induction cs with
  | nil => rfl
  | cons c cs ih =>
    obtain ⟨hc, hcs⟩ := List.ne_and_not_mem_of_not_mem_cons h
    rw [deepen, List.flatMap_cons, if_neg (Ne.symm hc), ← deepen, ih hcs]
    rfl

/-- The lines of a text, each of them further in. The text is cut behind the given part of its first
line. -/
theorem intercalate_indentLine {line cs : List Char} (hline : '\n' ∉ line)
    (hchain : List.IsChain Follows ('\n' :: (line ++ cs))) (hlast : EndsDark (line ++ cs)) :
    List.intercalate ['\n'] ((lines (line ++ cs)).map indentLine) =
      ' ' :: ' ' :: (line ++ deepen 2 cs) := by
  induction cs generalizing line with
  | nil =>
    rw [List.append_nil] at hlast ⊢
    have hne : line ≠ [] := by
      obtain ⟨init, c, rfl, -⟩ := hlast
      simp
    rw [lines_of_oneLine hline hne, List.map_singleton, indentLine_of_endsDark hlast]
    simp [deepen]
  | cons c cs ih =>
    by_cases hc : c = '\n'
    · subst hc
      -- what is cut off here ends in no blank, and what is left is not empty
      have hends := endsDark_of_chain hchain
      have hindent := ih (List.not_mem_nil : '\n' ∉ [])
        (hchain.suffix (List.suffix_append ('\n' :: line) _)) (hlast.of_append_cons rfl)
      rw [List.nil_append] at hindent
      rw [lines_line hline (hends.getLast?_ne (by decide)), List.map_cons,
        indentLine_of_endsDark hends, deepen_lineBreak]
      cases hlines : (lines cs).map indentLine with
      | nil =>
        rw [hlines] at hindent
        cases hindent
      | cons first rest =>
        rw [List.intercalate_cons_cons, ← hlines, hindent]
        simp
    · have hline' : '\n' ∉ line ++ [c] := by simp [hline, Ne.symm hc]
      rw [List.append_cons] at hchain hlast ⊢
      rw [ih hline' hchain hlast]
      simp [deepen, hc]

/-- The text may stand behind any character: no line that it ends is empty or ends in a blank. -/
def Continues (cs : List Char) : Prop :=
  ∀ a, List.IsChain Follows (a :: cs)

/-- A text without a line break may be continued. -/
theorem continues_of_oneLine {cs : List Char} (h : '\n' ∉ cs) : Continues cs := by
  induction cs with
  | nil => exact fun a => .singleton a
  | cons c cs ih =>
    obtain ⟨hc, hcs⟩ := List.ne_and_not_mem_of_not_mem_cons h
    exact fun a => .cons_cons (fun heq => absurd heq.symm hc) (ih hcs c)

/-- Two texts that may be continued may be so together. -/
theorem Continues.append {cs cs' : List Char} (h : Continues cs) (h' : Continues cs') :
    Continues (cs ++ cs') :=
  fun a => (h a).append (h' a).tail fun x _ _ hy => (h' x).rel_head? hy

/-- Behind a text that does not end in a blank may stand what may stand behind its last
character. -/
theorem Continues.append_chain {cs cs' : List Char} (h : Continues cs) (hlast : EndsDark cs)
    (h' : ∀ c, isBlank c = false → List.IsChain Follows (c :: cs')) : Continues (cs ++ cs') := by
  obtain ⟨init, c, rfl, hdark⟩ := hlast
  intro a
  rw [List.append_assoc, List.singleton_append, List.isChain_cons_split]
  exact ⟨h a, h' c hdark⟩

/-- A text with blanks in front loses them, and all of its lines move further in. -/
theorem indent_eq {blanks cs : List Char} (hblanks : ∀ c ∈ blanks, isBlank c = true)
    (hfirst : StartsDark cs) (hlast : EndsDark cs) (h : Continues cs) :
    (indent (String.ofList (blanks ++ cs))).toList = ' ' :: ' ' :: deepen 2 cs := by
  have hstart : trimStart (blanks ++ cs) = cs := by
    obtain ⟨c, rest, rfl, hdark⟩ := hfirst
    rw [trimStart, List.dropWhile_append_of_pos hblanks,
      List.dropWhile_cons_of_neg (by simp [hdark])]
  rw [indent, String.toList_ofList, String.toList_ofList, trim, hstart, trimEnd_of_endsDark hlast]
  exact intercalate_indentLine (List.not_mem_nil : '\n' ∉ []) (h '\n') hlast

/-! ## Without indentation -/

/-- The text without the spaces at the beginning of every line but the first. -/
def unindent : List Char → List Char
  | [] => []
  | c :: cs => if c = '\n' then c :: (unindent cs).dropWhile (· == ' ') else c :: unindent cs

/-- No spaces are taken from the middle of a line. -/
theorem unindent_oneLine {cs : List Char} (h : '\n' ∉ cs) (rest : List Char) :
    unindent (cs ++ rest) = cs ++ unindent rest := by
  induction cs with
  | nil => rfl
  | cons c cs ih =>
    obtain ⟨hc, hcs⟩ := List.ne_and_not_mem_of_not_mem_cons h
    rw [List.cons_append, unindent, if_neg (Ne.symm hc), ih hcs, List.cons_append]

/-- The spaces between a line break and what is not a blank are taken away. -/
theorem unindent_line {cs : List Char} (h : StartsDark cs) (n : Nat) :
    unindent ('\n' :: (List.replicate n ' ' ++ cs)) = '\n' :: unindent cs := by
  obtain ⟨c, rest, rfl, hdark⟩ := h
  have hspaces : '\n' ∉ List.replicate n ' ' := by simp [List.mem_replicate]
  have hbreak : c ≠ '\n' := by
    rintro rfl
    exact absurd hdark (by decide)
  have hspace : c ≠ ' ' := by
    rintro rfl
    exact absurd hdark (by decide)
  rw [unindent, if_pos rfl, unindent_oneLine hspaces,
    List.dropWhile_append_of_pos (by simp [List.mem_replicate]), unindent, if_neg hbreak,
    List.dropWhile_cons_of_neg (by simpa using hspace)]

end Text

end WasmLift
