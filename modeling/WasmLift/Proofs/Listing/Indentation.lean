import WasmLift.Proofs.Listing.Annotations
import WasmLift.Proofs.Listing.Declarations
import WasmLift.Proofs.Listing.PassagePrinter

/-!
# Indentation shows nesting

The body of a function, whose statements are indented again for every scope around them, is what its
passages are printed as with two spaces for each scope (`Listing.functionText_toList`). Taking the
spaces in front of its lines away leaves what they are printed as without any
(`Listing.bodyText_unindent`). So indentation shows how deep a line is nested and is all that scopes
do to the statements in them (`Listing.functionText_indented`).
-/

namespace WasmLift

open Text (OneLine Passage Plain Prints PrintsStatement)

/-! ## Texts beside constants -/

/-- The texts that the dialect of unoptimized functions puts beside constants are on one line. -/
theorem Framed.comments_oneLine {s : Surroundings} {nodes : List Code} {st : FrameState}
    (hproper : ∀ body, s.function.body? = some body → body.All Expr.Proper)
    (h : statements s = (.ok nodes, st)) :
    ∀ node ∈ nodes, node.Every fun c => ∀ text ∈ c.comments, OneLine text := by
  obtain ⟨-, hevery⟩ := Walk.function_upholds dialect_annotates hproper initial_recorded h
  refine fun node hnode => (hevery node hnode).mono fun c hc text htext => ?_
  cases c with
  | const value text' =>
    obtain rfl : text' = some text := Option.mem_toList.1 htext
    obtain ⟨address, -, hfound⟩ := Option.bind_eq_some_iff.1 (hc value _ rfl).symm
    obtain ⟨bytes, -, rfl⟩ := MemoryImage.stringAt?_eq_some.1 hfound
    exact Text.oneLine_escape bytes
  | _ => exact absurd htext List.not_mem_nil

namespace Direct

/-- No text stands beside the node. -/
def Bare (c : Code) : Prop :=
  c.comments = []

/-- An assignment is bare if its target and value are. -/
theorem bare_assign {target value : Code} (htarget : target.Every Bare)
    (hvalue : value.Every Bare) : (Code.assign target value).Every Bare :=
  .node rfl (by simpa [Code.children] using ⟨htarget, hvalue⟩)

/-- A binary operation is bare if its operands are. -/
theorem bare_binary {op : BinOp} {left right : Code} (hleft : left.Every Bare)
    (hright : right.Every Bare) : (Code.binary op left right).Every Bare :=
  .node rfl (by simpa [Code.children] using ⟨hleft, hright⟩)

/-- An access is bare if its address is. -/
theorem bare_deref {address : Code} {arg : MemArg} {ty : Ty} (haddress : address.Every Bare) :
    (Code.deref address arg ty).Every Bare :=
  .node rfl (List.forall_mem_singleton.2 haddress)

/-- A variable of the plain dialect has no text beside it. -/
theorem variableOf_bare {f : Function} {index : Nat} {st st' : Unit} {c : Code}
    (h : variableOf f index st = (.ok c, st')) : c.Every Bare := by
  obtain rfl | ⟨rfl, -⟩ := variableOf_cases h <;> exact .node rfl (List.forall_mem_nil _)

/-- The plain dialect writes no text beside a constant. -/
theorem dialect_bare (p : Program) (f : Function) :
    (dialect p f).Upholds (fun _ => True) fun _ => Bare where
  common c hc := by
    cases c with
    | const => cases hc
    | _ => rfl
  localGet hst h := ⟨.refl hst, variableOf_bare h⟩
  localSet hst hvalue h := by
    obtain ⟨target, st₁, htarget, hpure⟩ := bind_ok h
    cases hpure
    exact ⟨.refl hst, bare_assign (variableOf_bare htarget) hvalue⟩
  globalGet := .node rfl (List.forall_mem_nil _)
  globalSet hvalue := bare_assign (.node rfl (List.forall_mem_nil _)) hvalue
  const := .node rfl (List.forall_mem_nil _)
  binary hleft hright := bare_binary hleft hright
  load _ hst haddress h := by
    cases h
    exact ⟨.refl hst, bare_deref haddress⟩
  store _ hst haddress hvalue h := by
    cases h
    exact ⟨.refl hst, bare_assign (bare_deref haddress) hvalue⟩

/-- The plain dialect puts no texts beside constants. -/
theorem comments_oneLine {p : Program} {f : Function} {nodes : List Code}
    (hproper : ∀ body, f.body? = some body → body.All Expr.Proper)
    (h : statements p f = .ok nodes) :
    ∀ node ∈ nodes, node.Every fun c => ∀ text ∈ c.comments, OneLine text := by
  obtain ⟨-, hevery⟩ := Walk.function_upholds (dialect_bare p f) hproper trivial (Prod.ext h rfl)
  refine fun node hnode => (hevery node hnode).mono fun c hc text htext => ?_
  rw [hc] at htext
  cases htext

end Direct

namespace Listing

/-! ## Declarations -/

namespace Variable

/-- The comment above the declaration of a variable. -/
def comment : Variable → String
  | .slot s => "// offset=" ++ Text.hexNat s.offset
  | .plain index _ => "// local index=" ++ index.repr

/-- The line below the comment. -/
def line (v : Variable) : String :=
  v.typeText ++ (" " ++ (v.name ++ ";"))

/-- The two lines of a declaration. -/
def lines (v : Variable) : List Passage :=
  [v.comment, v.line]

/-- A declaration is a comment and a line below it. -/
theorem declaration_toList (v : Variable) :
    v.declaration.toList = v.comment.toList ++ '\n' :: v.line.toList := by
  have horigin : v.origin = v.comment ++ "\n" := by
    cases v <;> rfl
  rw [declaration, horigin, String.toList_append, String.toList_append, List.append_assoc]
  rfl

/-- No hexadecimal digit is a blank. -/
theorem digitChar_dark : ∀ d < 16, Text.isBlank (Nat.digitChar d) = false := by
  decide

/-- A text that ends in a number does not end in a blank. -/
theorem number_last (s : String) {base : Nat} (hlow : 1 < base) (hhigh : base ≤ 16) (n : Nat) :
    Text.EndsDark (s ++ String.ofList (Nat.toDigits base n)).toList := by
  have hdark : ∀ c ∈ Nat.toDigits base n, Text.isBlank c = false :=
    Text.toDigits_all hlow (fun d hd => digitChar_dark d (by omega)) n
  have hne : Nat.toDigits base n ≠ [] := Nat.toDigits_ne_nil
  have hlast := List.dropLast_concat_getLast hne
  rw [String.toList_append, String.toList_ofList]
  exact Text.EndsDark.append ⟨_, _, hlast.symm, hdark _ (List.getLast_mem _)⟩ _

/-- The comment of a declaration is on one line. -/
theorem comment_plain (v : Variable) : Plain v.comment := by
  cases v with
  | slot s => exact Text.plain_append.2 ⟨by decide, Text.plain_hexNat _⟩
  | plain index ty => exact Text.plain_append.2 ⟨by decide, Text.plain_repr index⟩

/-- The comment of a declaration does not end in a blank. -/
theorem comment_last (v : Variable) : Text.EndsDark v.comment.toList := by
  cases v with
  | slot s =>
    have hlast := number_last "// offset=0x" (by decide) (by decide : 16 ≤ 16) s.offset
    rwa [show "// offset=0x" = "// offset=" ++ "0x" from rfl, String.append_assoc] at hlast
  | plain index ty =>
    have hlast := number_last "// local index=" (by decide) (by decide : 10 ≤ 16) index
    rwa [← Nat.toString_eq_ofList_toDigits] at hlast

/-- The comment of a declaration does not begin with a blank. -/
theorem comment_first (v : Variable) : Text.StartsDark v.comment.toList := by
  have happend {s : String} (h : Text.StartsDark s.toList) (t : String) :
      Text.StartsDark (s ++ t).toList := by
    rw [String.toList_append]
    exact h.append _
  cases v <;> exact happend ⟨'/', _, rfl, by decide⟩ _

/-- The line of a declaration is one line. -/
theorem line_plain (v : Variable) : Plain v.line := by
  cases v <;> simp +decide [line, typeText, name, Spelling.plain_typeName]

/-- The line of a declaration does not begin with a blank. -/
theorem line_first (v : Variable) : Text.StartsDark v.line.toList := by
  have htype (ty : Ty) (bytes : Option Nat) :
      Text.StartsDark (Spelling.typeName ty bytes).toList := by
    unfold Spelling.typeName
    repeat' split
    all_goals exact ⟨_, _, rfl, by decide⟩
  have hfirst : Text.StartsDark v.typeText.toList := by
    cases v <;> exact htype _ _
  rw [line, String.toList_append]
  exact hfirst.append _

/-- The line of a declaration does not end in a blank. -/
theorem line_last (v : Variable) : Text.EndsDark v.line.toList := by
  rw [line, ← String.append_assoc, ← String.append_assoc, String.toList_append]
  exact Text.EndsDark.append ⟨[], ';', rfl, by decide⟩ _

/-- The lines of a declaration are indented one by one. -/
theorem indent_declaration (v : Variable) :
    '\n' :: (Text.indent v.declaration).toList = Passage.printLines 2 1 v.lines := by
  have hcomment : Text.Continues v.comment.toList :=
    Text.continues_of_oneLine v.comment_plain.oneLine
  have hline : Text.Continues v.line.toList := Text.continues_of_oneLine v.line_plain.oneLine
  have hcontinues := hcomment.append_chain v.comment_last
    fun c hc => List.IsChain.cons_cons (fun _ => hc) (hline '\n')
  have hlast : Text.EndsDark (v.comment.toList ++ '\n' :: v.line.toList) := by
    rw [List.append_cons]
    exact v.line_last.append _
  have hindent := Text.indent_eq (List.forall_mem_nil _) (v.comment_first.append _) hlast hcontinues
  rw [List.nil_append, ← declaration_toList, String.ofList_toList, declaration_toList,
    Text.deepen_append, Text.deepen_oneLine v.comment_plain.oneLine, Text.deepen_lineBreak,
    Text.deepen_oneLine v.line_plain.oneLine] at hindent
  rw [hindent]
  simp [lines, Passage.printLines, Passage.newLine, Passage.ofString]

/-- No line of a declaration begins with a blank. -/
theorem lines_first (v : Variable) : ∀ p ∈ v.lines, p.StartsDark := by
  have hstring {s : String} (h : Text.StartsDark s.toList) : (Passage.ofString s).StartsDark := by
    obtain ⟨c, rest, hcons, hdark⟩ := h
    refine ⟨.sign c, rest.map .sign, ?_, by simpa [Text.Piece.isDark] using hdark⟩
    rw [Passage.ofString, hcons, List.map_cons]
  exact List.forall_mem_cons.2 ⟨hstring v.comment_first,
    List.forall_mem_singleton.2 (hstring v.line_first)⟩

/-- No line of a declaration has a line break in it. -/
theorem lines_tight (v : Variable) : ∀ p ∈ v.lines, ∀ x ∈ p, x.Tight :=
  List.forall_mem_cons.2 ⟨Passage.tight_ofString v.comment_plain.oneLine,
    List.forall_mem_singleton.2 (Passage.tight_ofString v.line_plain.oneLine)⟩

end Variable

/-! ## Functions -/

/-- The body of a function with its braces: the lines of its declarations, an empty line if there
are any, and its statements. -/
def bodyText (width : Nat) (vs : List Variable) (statements : List Passage) : List Char :=
  '{' :: (Passage.printLines width 1 (vs.flatMap Variable.lines) ++
    ((if vs.isEmpty then [] else ['\n']) ++
      (Passage.printLines width 1 (statements.map Passage.unspaced) ++ ['\n', '}', '\n'])))

/-- Indented lines are the indented text behind a line break. -/
theorem indentedLines_toList (texts : List String) :
    '\n' :: (indentedLines texts).toList = (Text.indented texts).toList ++ ['\n'] := by
  induction texts with
  | nil => rfl
  | cons s rest ih => simp [indentedLines, Text.indented, ← ih]

/-- Indented declarations are printed line by line with two spaces in front. -/
theorem indented_declarations (vs : List Variable) :
    (Text.indented (vs.map Variable.declaration)).toList =
      Passage.printLines 2 1 (vs.flatMap Variable.lines) := by
  induction vs with
  | nil => rfl
  | cons v vs ih =>
    rw [List.map_cons, Text.indented, List.flatMap_cons, Passage.printLines_append,
      ← v.indent_declaration, ← ih]
    simp

/-- A function is its head, and its body with two spaces for each scope. -/
theorem functionText_toList (head : String) (vs : List Variable) {texts : List String}
    {statements : List Passage} (h : List.Forall₂ PrintsStatement texts statements) :
    (functionText head (vs.map Variable.declaration) texts).toList =
      head.toList ++ bodyText 2 vs statements := by
  have hdeclarations := indentedLines_toList (vs.map Variable.declaration)
  have hstatements := indentedLines_toList texts
  rw [indented_declarations] at hdeclarations
  rw [Text.indented_toList h] at hstatements
  have hopen : (functionText head (vs.map Variable.declaration) texts).toList =
      head.toList ++ '{' :: (('\n' :: (indentedLines (vs.map Variable.declaration)).toList) ++
        ((if vs.isEmpty then [] else ['\n']) ++ ((indentedLines texts).toList ++ ['}', '\n']))) := by
    cases vs <;> simp [functionText]
  have hclose : '\n' :: ((indentedLines texts).toList ++ ['}', '\n']) =
      Passage.printLines 2 1 (statements.map Passage.unspaced) ++ ['\n', '}', '\n'] := by
    simpa using congrArg (· ++ ['}', '\n']) hstatements
  rw [hopen, hdeclarations, bodyText]
  cases vs <;> simp [hclose]

/-- Without the spaces in front of its lines a body is what is printed with no indentation. -/
theorem bodyText_unindent (vs : List Variable) {statements : List Passage}
    (h : ∀ s ∈ statements, s.Ended) :
    Text.unindent (bodyText 2 vs statements) = bodyText 0 vs statements := by
  have hdeclarations : Passage.Turns Text.unindent
      (Passage.printLines 2 1 (vs.flatMap Variable.lines))
        (Passage.printLines 0 1 (vs.flatMap Variable.lines)) :=
    Passage.printLines_unindent (List.forall_mem_flatMap.2 fun v _ => v.lines_first)
      (List.forall_mem_flatMap.2 fun v _ => v.lines_tight) 1
  have hstatements : Text.unindent
      (Passage.printLines 2 1 (statements.map Passage.unspaced) ++ ['\n', '}', '\n']) =
        Passage.printLines 0 1 (statements.map Passage.unspaced) ++ ['\n', '}', '\n'] :=
    Passage.printLines_unindent (List.forall_mem_map.2 fun s hs => (h s hs).bounded.first)
      (List.forall_mem_map.2 fun s hs => (h s hs).tight_unspaced) 1 ['\n', '}', '\n']
  have hblank : Text.unindent ('\n' ::
      (Passage.printLines 2 1 (statements.map Passage.unspaced) ++ ['\n', '}', '\n'])) =
        '\n' :: (Passage.printLines 0 1 (statements.map Passage.unspaced) ++ ['\n', '}', '\n']) := by
    rw [Text.unindent, if_pos rfl, hstatements]
    cases statements <;> rfl
  rw [bodyText, Text.unindent, if_neg (by decide), hdeclarations, bodyText]
  cases vs with
  | nil => exact congrArg _ (congrArg _ hstatements)
  | cons v vs => exact congrArg _ (congrArg _ hblank)

/-- What is printed for a function: every line begins with two spaces for each scope around it, and
without these spaces it is the text of its declaration, statement, head or brace. A statement in a
scope begins with what can be seen and ends in a semicolon or a scope, and only scopes break lines.
The names have to be plain, and the texts beside constants on one line, which is so in what either
dialect makes of a program. -/
theorem functionText_indented :
    (∀ layout statements, (∀ node ∈ statements, node.Every Code.Printable) → ∀ head vs,
      (functionText head (vs.map Variable.declaration)
          (Code.statementTexts layout statements)).toList =
        head.toList ++ bodyText 2 vs (Code.statementPassages layout statements) ∧
      Text.unindent (bodyText 2 vs (Code.statementPassages layout statements)) =
        bodyText 0 vs (Code.statementPassages layout statements) ∧
      ∀ s ∈ Code.statementPassages layout statements,
        s.unspaced.Bounded ∧ ∀ x ∈ s.unspaced, x.Tight) ∧
    ∀ m p, Program.ofModule? m = .ok p → ∀ f ∈ p.functions,
      (∀ nodes, Direct.statements p f = .ok nodes →
        ∀ node ∈ nodes, node.Every fun c => ∀ text ∈ c.comments, OneLine text) ∧
      ∀ memory nodes st, Framed.statements (surroundings p memory f) = (.ok nodes, st) →
        ∀ node ∈ nodes, node.Every fun c => ∀ text ∈ c.comments, OneLine text := by
  refine ⟨fun layout statements h head vs => ?_, fun m p hp f hf => ?_⟩
  · have hprints : List.Forall₂ PrintsStatement (Code.statementTexts layout statements)
        (Code.statementPassages layout statements) := Code.statementTexts_prints h
    have hended := Text.ended_of_prints hprints
    exact ⟨functionText_toList head vs hprints, bodyText_unindent vs hended,
      fun s hs => ⟨(hended s hs).bounded, (hended s hs).tight_unspaced⟩⟩
  · have hproper : ∀ body, f.body? = some body → body.All Expr.Proper := fun _ hbody =>
      Program.proper_of_mem hp hf hbody
    exact ⟨fun nodes h => Direct.comments_oneLine hproper h,
      fun memory nodes st h => Framed.comments_oneLine hproper h⟩

/-- A loop with a conditional in it, and a conditional in an assignment. -/
def nested : List Code :=
  [.loop (some ⟨1⟩) (.block none
      [.ite (.param 0) (.br ⟨1⟩ none none) none false,
        .assign (.globalVar "g") (.const (.i32 0x400) (some "\x7d a"))]),
    .assign (.localVar 2) (.ite (.call "f" []) (.block none [.param 0, .ret none]) none false)]

/-- A text beside a constant may hold a brace, and a conditional may stand in an assignment, which
then takes no semicolon. -/
theorem functionText_indented_nested :
    (∀ node ∈ nested, node.Every Code.Printable) ∧
    (functionText "int f(int param0) " [(Variable.plain 2 .i32).declaration]
      (Code.statementTexts {} nested)).toList =
        ["int f(int param0) \x7b",
          "  // local index=2",
          "  int local2;",
          "",
          "  label$1: while (1) \x7b",
          "    if (param0) \x7b",
          "      continue label$1;",
          "    \x7d",
          "    g = 0x400 /* \"\x7d a\" */;",
          "    break label$1;",
          "  \x7d",
          "  local2 = if (f()) \x7b",
          "    param0;",
          "    return;",
          "  \x7d",
          "\x7d"].flatMap fun line => line.toList ++ ['\n'] := by
  have hprintable : ∀ node ∈ nested, node.Every Code.Printable := by
    have leaf {c : Code} (hown : c.Printable) (hchildren : c.children = []) :
        c.Every Code.Printable := .node hown (by simp [hchildren])
    have hparam : (Code.param 0).Every Code.Printable := leaf ⟨by decide, by decide⟩ rfl
    have hjump : (Code.br ⟨1⟩ none none).Every Code.Printable := leaf ⟨by decide, by decide⟩ rfl
    have hreturn : (Code.ret none).Every Code.Printable := leaf ⟨by decide, by decide⟩ rfl
    have hassign : (Code.assign (.globalVar "g")
        (.const (.i32 0x400) (some "\x7d a"))).Every Code.Printable :=
      .node ⟨by decide, by decide⟩ (List.forall_mem_cons.2 ⟨leaf ⟨by decide, by decide⟩ rfl,
        List.forall_mem_singleton.2 (leaf ⟨by decide, by decide⟩ rfl)⟩)
    refine List.forall_mem_cons.2 ⟨.node ⟨by decide, by decide⟩ ?_, List.forall_mem_singleton.2
      (.node ⟨by decide, by decide⟩ ?_)⟩
    · refine List.forall_mem_singleton.2 (.node ⟨by decide, by decide⟩ ?_)
      have hguard : (Code.ite (.param 0) (.br ⟨1⟩ none none) none false).Every Code.Printable :=
        .node ⟨by decide, by decide⟩
          (List.forall_mem_cons.2 ⟨hparam, List.forall_mem_singleton.2 hjump⟩)
      exact List.forall_mem_cons.2 ⟨hguard, List.forall_mem_singleton.2 hassign⟩
    · have hcall : (Code.call "f" []).Every Code.Printable := leaf ⟨by decide, by decide⟩ rfl
      have harm : (Code.block none [.param 0, .ret none]).Every Code.Printable :=
        .node ⟨by decide, by decide⟩
          (List.forall_mem_cons.2 ⟨hparam, List.forall_mem_singleton.2 hreturn⟩)
      have hvalue : (Code.ite (.call "f" []) (.block none [.param 0, .ret none]) none
          false).Every Code.Printable :=
        .node ⟨by decide, by decide⟩
          (List.forall_mem_cons.2 ⟨hcall, List.forall_mem_singleton.2 harm⟩)
      exact List.forall_mem_cons.2 ⟨leaf ⟨by decide, by decide⟩ rfl,
        List.forall_mem_singleton.2 hvalue⟩
  refine ⟨hprintable, ?_⟩
  obtain ⟨htext, -, -⟩ := functionText_indented.1 {} nested hprintable "int f(int param0) "
    [.plain 2 .i32]
  rw [List.map_singleton] at htext
  rw [htext]
  decide +kernel

end Listing

end WasmLift
