import WasmLift.Code.Render

/-!
# Scopes on the page

A label is in scope between the braces that it stands before. `Code.lexical` prints a node inside
given scopes and says of each of them what is on the page: plain braces, which are left by `break`,
or `while (1)`, which is gone through again by `continue` (`Code.Enclosure`). It knows these scopes
and nothing else, and it prints nothing if a jump names a label that is not in scope. The printer
goes by what a label was last given to instead. Where every jump names a label around it and no
label is given again inside its own scope (`Code.Scoped`), the two print the same
(`Code.lexicalLines_eq`).

The jumps meant here are the printed branches. A loop that control may come to the end of is closed
by a `break` of its own, which is no branch and jumps to no label: it is the last line between the
braces of the loop, and it leaves the loop that it names.
-/

namespace WasmLift

namespace Code

/-- The nodes that a node is printed from. -/
def children : Code → List Code
  | .deref address _ _ => [address]
  | .assign target value => [target, value]
  | .call _ args => args
  | .callIndirect target args => target :: args
  | .unary _ value => [value]
  | .binary _ left right => [left, right]
  | .select condition ifTrue ifFalse => [condition, ifTrue, ifFalse]
  | .ret value => value.toList
  | .block _ children => children
  | .ite condition ifTrue ifFalse _ => condition :: ifTrue :: ifFalse.toList
  | .loop _ body => [body]
  | .br _ condition value => condition.toList ++ value.toList
  | .switch _ _ condition value => value.toList ++ [condition]
  | .memoryGrow delta => [delta]
  | .memoryCopy target source length => [target, source, length]
  | .memoryFill target value length => [target, value, length]
  | _ => []

/-- The label that a scope bears. -/
def label? : Code → Option Label
  | .block label _ | .loop label _ => label
  | _ => none

/-- The labels that a jump names. -/
def targets : Code → List Label
  | .br label _ _ => [label]
  | .switch labels fallback _ _ => labels ++ fallback.toList
  | _ => []

/-- A child is smaller than its node. -/
theorem sizeOf_child {node c : Code} (hc : c ∈ node.children) : sizeOf c < sizeOf node := by
  have hlist : ∀ {nodes : List Code}, c ∈ nodes → sizeOf c < sizeOf nodes := List.sizeOf_lt_of_mem
  have hoption : ∀ {o : Option Code}, c ∈ o.toList → sizeOf c < sizeOf o := by
    rintro (_ | d) hd
    · simp at hd
    · simp_all
  cases node <;> simp [children] at hc ⊢ <;> grind

/-- A node has a property if every node has it whenever its children do. -/
theorem induct {P : Code → Prop} (h : ∀ node, (∀ c ∈ node.children, P c) → P node) (node : Code) :
    P node :=
  h node fun c _ => induct h c
termination_by sizeOf node
decreasing_by exact sizeOf_child ‹_›

/-- Every jump in the node names a label around it, or one of the given labels, and no scope bears a
label that is in scope already. -/
inductive Scoped : List Label → Code → Prop where
  | node {env : List Label} {node : Code} (targets : ∀ l ∈ node.targets, l ∈ env)
      (fresh : ∀ l ∈ node.label?, l ∉ env)
      (children : ∀ c ∈ node.children, Scoped (node.label?.toList ++ env) c) : Scoped env node

/-- A jump in scope names a label around it. -/
theorem Scoped.targets {env : List Label} {node : Code} (h : node.Scoped env) :
    ∀ l ∈ node.targets, l ∈ env := by
  cases h with | node targets _ _ => exact targets

/-- A label in scope is none of those around it. -/
theorem Scoped.fresh {env : List Label} {node : Code} (h : node.Scoped env) :
    ∀ l ∈ node.label?, l ∉ env := by
  cases h with | node _ fresh _ => exact fresh

/-- A child is in scope inside the label of its node. -/
theorem Scoped.child {env : List Label} {node c : Code} (h : node.Scoped env)
    (hc : c ∈ node.children) : c.Scoped (node.label?.toList ++ env) := by
  cases h with | node _ _ children => exact children c hc

/-! ## Printing inside scopes -/

/-- What a pair of braces that may bear a label is on the page. -/
inductive Enclosure where
  | braces
  | loop
deriving DecidableEq, Repr

/-- How the scope is opened, behind its label. -/
def Enclosure.opening : Enclosure → String
  | .braces => "\x7b"
  | .loop => "while (1) \x7b"

/-- The jump to the label of the scope: behind its end, or to its beginning again. -/
def Enclosure.jump : Enclosure → String
  | .braces => "break"
  | .loop => "continue"

/-- The scopes around a place on the page that bear labels, innermost first. -/
abbrev Scopes := List (Label × Enclosure)

/-- The scopes inside a construct: its own, if it bears a label, and those around it. -/
def enter (label : Option Label) (kind : Enclosure) (scopes : Scopes) : Scopes :=
  label.toList.map (·, kind) ++ scopes

/-- A scope on the page: its label, if it bears one, and its statements between braces. -/
def enclosed (label : Option Label) (kind : Enclosure) (lines : List String) : String :=
  (label.map fun l => l.text ++ ": ").getD "" ++ kind.opening ++ Text.indented lines ++ "\n\x7d"

/-- The last line of a loop that control may come to the end of: it leaves the loop. -/
def closing : Option Label → String
  | none => "break;"
  | some label => "break " ++ label.text ++ ";"

/-- The jump to a label, if the label is in scope. -/
def jumpTo? (scopes : Scopes) (label : Label) : Option String :=
  (scopes.lookup label).map Enclosure.jump

/-- The cases of a branch table from the given number on, if all their labels are in scope. -/
def lexicalCases (scopes : Scopes) (value : String) : (number : Nat) → List Label →
    Option (List String)
  | _, [] => some []
  | number, label :: rest => do
    let jump ← jumpTo? scopes label
    let texts ← lexicalCases scopes value (number + 1) rest
    return s!"case {number}: {jump}{value} {label.text};" :: texts

/-- The last case of a branch table, if its label is in scope. -/
def lexicalDefault (scopes : Scopes) (value : String) : Option Label → Option (List String)
  | none => some []
  | some label => do
    let jump ← jumpTo? scopes label
    return [s!"default: {jump}{value} {label.text};"]

mutual

/-- Prints a node inside the given scopes. A branch to a label is printed as the scope that bears
the label asks for, and there has to be one. -/
def lexical (layout : FrameLayout) (scopes : Scopes) : Code → Option Rendered
  | .deref address arg ty => do
    let a ← lexical layout scopes address
    return .ofText (derefText (asOperand layout address a.text) arg ty)
  | .assign target value => do
    let t ← lexical layout scopes target
    let v ← lexical layout scopes value
    return .ofText s!"{t.text} = {v.text}"
  | .call name args => do
    let texts ← lexicalArgs layout scopes args
    return .ofText s!"{name}({Text.commaList texts})"
  | .callIndirect target args => do
    let t ← lexical layout scopes target
    let texts ← lexicalArgs layout scopes args
    return .ofText s!"__function_table[{t.text}]({Text.commaList texts})"
  | .unary op value => do
    let v ← lexical layout scopes value
    let operand := if isUnaryCall op then v.text else asOperand layout value v.text
    return .ofText (Spelling.applyUnary op operand)
  | .binary op left right => do
    let l ← lexical layout scopes left
    let r ← lexical layout scopes right
    if isBinaryCall op then return .ofText (Spelling.applyBinary op l.text r.text)
    return .ofText
      (Spelling.applyBinary op (asOperand layout left l.text) (asOperand layout right r.text))
  | .select condition ifTrue ifFalse => do
    let c ← lexical layout scopes condition
    let t ← lexical layout scopes ifTrue
    let e ← lexical layout scopes ifFalse
    return .ofText (ternaryText (asOperand layout condition c.text)
      (asOperand layout ifTrue t.text) (asOperand layout ifFalse e.text))
  | .ret (some value) => do
    let v ← lexical layout scopes value
    return .ofText s!"return {v.text}"
  | .block label children => do
    let lines ← lexicalLines layout (enter label .braces scopes) children
    let text := enclosed label .braces lines
    return ⟨text, if label.isNone then lines else Text.statement text⟩
  | .ite condition ifTrue none _ => do
    let c ← lexical layout scopes condition
    let t ← lexical layout scopes ifTrue
    return .ofText (Text.scope s!"if ({c.text}) \x7b" t.lines)
  | .ite condition ifTrue (some ifFalse) isValue => do
    let c ← lexical layout scopes condition
    let t ← lexical layout scopes ifTrue
    let e ← lexical layout scopes ifFalse
    if isTernary ifTrue (some ifFalse) isValue then
      return .ofText (ternaryText (asOperand layout condition c.text)
        (asOperand layout ifTrue t.text) (asOperand layout ifFalse e.text))
    return .ofText
      (Text.scope s!"if ({c.text}) \x7b" t.lines ++ " " ++ Text.scope "else \x7b" e.lines)
  | .loop label body => do
    let b ← lexical layout (enter label .loop scopes) body
    let last := if body.endsInTerminator then [] else [closing label]
    return .ofText (enclosed label .loop (b.lines ++ last))
  | .br label condition value => do
    let c ← lexicalOption layout scopes condition
    let v ← lexicalOption layout scopes value
    let guardText := (c.map fun text => s!"if ({text}) ").getD ""
    let jump ← jumpTo? scopes label
    return .ofText s!"{guardText}{jump}{carriedText v} {label.text}"
  | .switch labels fallback condition value => do
    let v ← lexicalOption layout scopes value
    let cases ← lexicalCases scopes (carriedText v) 0 labels
    let last ← lexicalDefault scopes (carriedText v) fallback
    let c ← lexical layout scopes condition
    return .ofText (Text.scope s!"switch ({c.text}) \x7b" (cases ++ last))
  | .memoryGrow delta => do
    let d ← lexical layout scopes delta
    return .ofText s!"__grow_memory_size({d.text})"
  | .memoryCopy target source length => do
    let t ← lexical layout scopes target
    let s ← lexical layout scopes source
    let l ← lexical layout scopes length
    return .ofText s!"__memory_copy({t.text}, {s.text}, {l.text})"
  | .memoryFill target value length => do
    let t ← lexical layout scopes target
    let v ← lexical layout scopes value
    let l ← lexical layout scopes length
    return .ofText s!"__memory_fill({t.text}, {v.text}, {l.text})"
  -- What is left has no children and no labels.
  | leaf => return ((render layout leaf).run []).1
termination_by structural node => node

/-- Prints the arguments of a call. -/
def lexicalArgs (layout : FrameLayout) (scopes : Scopes) : List Code → Option (List String)
  | [] => return []
  | node :: rest => do
    let r ← lexical layout scopes node
    let texts ← lexicalArgs layout scopes rest
    return r.text :: texts
termination_by structural nodes => nodes

/-- Prints the statements of a scope. -/
def lexicalLines (layout : FrameLayout) (scopes : Scopes) : List Code → Option (List String)
  | [] => return []
  | node :: rest => do
    let r ← lexical layout scopes node
    let lines ← lexicalLines layout scopes rest
    return Text.statement r.text ++ lines
termination_by structural nodes => nodes

/-- Prints a node that may be missing. -/
def lexicalOption (layout : FrameLayout) (scopes : Scopes) : Option Code → Option (Option String)
  | none => return none
  | some node => do
    let r ← lexical layout scopes node
    return some r.text
termination_by structural node => node

end

/-! ## Agreement -/

/-- The table says of every label in scope whether its innermost scope is a loop. -/
def Shows (scopes : Scopes) (uses : LabelUses) : Prop :=
  ∀ l ∈ scopes.map Prod.fst, uses.lookup l = (scopes.lookup l).map (· = Enclosure.loop : _ → Bool)

section
variable {α β : Type} {scopes : Scopes}

/-- Printing with a table of labels gives what printing inside scopes gives, as long as the table
says what the scopes are, and it says so afterwards. -/
def Agrees (scopes : Scopes) (x : StateM LabelUses α) (y : Option α) : Prop :=
  ∀ uses, Shows scopes uses → y = some (x uses).1 ∧ Shows scopes (x uses).2

/-- What is printed at once agrees with itself. -/
theorem Agrees.pure {a : α} : Agrees scopes (pure a) (some a) :=
  fun _ huses => ⟨rfl, huses⟩

/-- What agrees in two steps agrees together. -/
theorem Agrees.bind {x : StateM LabelUses α} {y : Option α} {f : α → StateM LabelUses β}
    {g : α → Option β} (hx : Agrees scopes x y) (hf : ∀ a, Agrees scopes (f a) (g a)) :
    Agrees scopes (x >>= f) (y >>= g) := by
  intro uses huses
  obtain ⟨hy, hafter⟩ := hx uses huses
  obtain ⟨hg, hlast⟩ := hf (x uses).1 (x uses).2 hafter
  exact ⟨by rw [hy]; exact hg, hlast⟩

/-- What is read off the table is read off the scopes. -/
theorem Agrees.get {f : LabelUses → StateM LabelUses α} {y : Option α}
    (hf : ∀ uses, Shows scopes uses → Agrees scopes (f uses) y) : Agrees scopes (get >>= f) y :=
  fun uses huses => hf uses huses uses huses

/-- Inside a new scope its label is looked up first, and no other lookup changes. -/
theorem Agrees.enter {label : Option Label} (kind : Enclosure) {x : StateM LabelUses α}
    {y : Option α} (hfresh : ∀ l ∈ label, l ∉ scopes.map Prod.fst)
    (hx : Agrees (enter label kind scopes) x y) :
    Agrees scopes (recordLabel label (kind = .loop) >>= fun _ => x) y := by
  cases label with
  | none => exact hx
  | some label =>
    intro uses huses
    have hfresh := hfresh label rfl
    have hinside : Shows (Code.enter (some label) kind scopes)
        ((label, decide (kind = .loop)) :: uses) := by
      intro l hl
      by_cases heq : l = label
      · simp [Code.enter, heq]
      · have hl : l ∈ scopes.map Prod.fst := by simpa [Code.enter, heq] using hl
        have hne : (l == label) = false := by simpa using heq
        simp [Code.enter, List.lookup_cons, hne, huses l hl]
    obtain ⟨hy, hafter⟩ := hx _ hinside
    refine ⟨hy, fun l hl => ?_⟩
    have hne : (l == label) = false := by
      simp only [beq_eq_false_iff_ne]
      rintro rfl
      exact hfresh hl
    have hsame := hafter l (by simp [Code.enter, hl])
    exact hsame.trans (by simp [Code.enter, List.lookup_cons, hne])

variable {uses : LabelUses}

/-- A jump to a label in scope is the one that the scope asks for. -/
theorem jumpTo?_eq (huses : Shows scopes uses) {label : Label}
    (hlabel : label ∈ scopes.map Prod.fst) :
    jumpTo? scopes label = some (jumpText uses label) := by
  obtain ⟨kind, hkind⟩ : ∃ kind, scopes.lookup label = some kind := by
    refine Option.isSome_iff_exists.1 (List.lookup_isSome_iff.2 ?_)
    simpa using hlabel
  rw [jumpTo?, jumpText, huses label hlabel, hkind]
  cases kind <;> rfl

/-- The cases of a switch are the same where their labels are in scope. -/
theorem lexicalCases_eq (huses : Shows scopes uses) (value : String) (number : Nat)
    {labels : List Label} (hlabels : ∀ l ∈ labels, l ∈ scopes.map Prod.fst) :
    lexicalCases scopes value number labels = some (caseTexts uses value number labels) := by
  induction labels generalizing number with
  | nil => rfl
  | cons label rest ih =>
    obtain ⟨hlabel, hrest⟩ := List.forall_mem_cons.1 hlabels
    rw [lexicalCases, jumpTo?_eq huses hlabel, ih (number + 1) hrest]
    rfl

/-- The default of a switch is the same where its label is in scope. -/
theorem lexicalDefault_eq (huses : Shows scopes uses) (value : String) {fallback : Option Label}
    (hfallback : ∀ l ∈ fallback, l ∈ scopes.map Prod.fst) :
    lexicalDefault scopes value fallback = some (fallbackTexts uses value fallback) := by
  cases fallback with
  | none => rfl
  | some label =>
    rw [lexicalDefault, jumpTo?_eq huses (hfallback label rfl)]
    rfl

end

section
variable {layout : FrameLayout} {scopes : Scopes} {nodes : List Code}

/-- Arguments are printed the same if each of them is. -/
theorem renderArgs_agrees
    (h : ∀ c ∈ nodes, Agrees scopes (render layout c) (lexical layout scopes c)) :
    Agrees scopes (renderArgs layout nodes) (lexicalArgs layout scopes nodes) := by
  induction nodes with
  | nil => exact .pure
  | cons node rest ih =>
    refine (h node (.head _)).bind fun _ => ?_
    exact (ih fun c hc => h c (.tail _ hc)).bind fun _ => .pure

/-- Statements are printed the same if each of them is. -/
theorem renderLines_agrees
    (h : ∀ c ∈ nodes, Agrees scopes (render layout c) (lexical layout scopes c)) :
    Agrees scopes (renderLines layout nodes) (lexicalLines layout scopes nodes) := by
  induction nodes with
  | nil => exact .pure
  | cons node rest ih =>
    refine (h node (.head _)).bind fun _ => ?_
    exact (ih fun c hc => h c (.tail _ hc)).bind fun _ => .pure

/-- An optional node is printed the same if it is where it is there. -/
theorem renderOption_agrees {node : Option Code}
    (h : ∀ c ∈ node.toList, Agrees scopes (render layout c) (lexical layout scopes c)) :
    Agrees scopes (renderOption layout node) (lexicalOption layout scopes node) := by
  cases node with
  | none => exact .pure
  | some node => exact (h node (by simp)).bind fun _ => .pure

/-- A node whose jumps name labels around it is printed the same either way. -/
theorem render_agrees {node : Code} (h : node.Scoped (scopes.map Prod.fst)) :
    Agrees scopes (render layout node) (lexical layout scopes node) := by
  induction node using induct generalizing scopes with
  | h node ih =>
  have hinside : ∀ label kind, node.label? = label → ∀ c ∈ node.children,
      Agrees (enter label kind scopes) (render layout c)
        (lexical layout (enter label kind scopes) c) := by
    rintro label kind rfl c hc
    refine ih c hc ?_
    have hchild := h.child hc
    cases hlabel : node.label? <;> simpa [enter, hlabel] using hchild
  have hchild (hnone : node.label? = none) : ∀ c ∈ node.children,
      Agrees scopes (render layout c) (lexical layout scopes c) :=
    hinside none .braces hnone
  cases node with
  | block label children =>
    refine Agrees.enter .braces h.fresh ?_
    exact (renderLines_agrees (hinside label .braces rfl)).bind fun _ => by
      cases label <;> exact .pure
  | loop label body =>
    refine Agrees.enter .loop h.fresh ?_
    exact (hinside label .loop rfl body (.head _)).bind fun _ => by
      cases label <;> exact .pure
  | br label condition value =>
    refine (renderOption_agrees fun c hc =>
      hchild rfl c (List.mem_append_left _ hc)).bind fun _ => ?_
    refine (renderOption_agrees fun c hc =>
      hchild rfl c (List.mem_append_right _ hc)).bind fun _ => ?_
    refine Agrees.get fun uses huses => ?_
    rw [jumpTo?_eq huses (h.targets label (.head _))]
    exact .pure
  | switch labels fallback condition value =>
    refine (renderOption_agrees fun c hc =>
      hchild rfl c (List.mem_append_left _ hc)).bind fun v => ?_
    refine Agrees.get fun uses huses => ?_
    rw [lexicalCases_eq huses _ _ fun l hl => h.targets l (List.mem_append_left _ hl),
      lexicalDefault_eq huses _ fun l hl =>
        h.targets l (List.mem_append_right _ (Option.mem_toList.2 hl))]
    exact (hchild rfl condition (by simp [children])).bind fun _ => .pure
  | call name args => exact (renderArgs_agrees (hchild rfl)).bind fun _ => .pure
  | callIndirect target args =>
    refine (hchild rfl target (.head _)).bind fun _ => ?_
    exact (renderArgs_agrees fun c hc => hchild rfl c (.tail _ hc)).bind fun _ => .pure
  | ite condition ifTrue ifFalse isValue =>
    cases ifFalse with
    | none =>
      refine (hchild rfl condition (.head _)).bind fun _ => ?_
      exact (hchild rfl ifTrue (.tail _ (.head _))).bind fun _ => .pure
    | some ifFalse =>
      refine (hchild rfl condition (.head _)).bind fun _ => ?_
      refine (hchild rfl ifTrue (.tail _ (.head _))).bind fun _ => ?_
      refine (hchild rfl ifFalse (.tail _ (.tail _ (.head _)))).bind fun _ => ?_
      split <;> exact .pure
  | binary op left right =>
    refine (hchild rfl left (.head _)).bind fun _ => ?_
    refine (hchild rfl right (.tail _ (.head _))).bind fun _ => ?_
    split <;> exact .pure
  | ret value =>
    cases value with
    | none => exact .pure
    | some value => exact (hchild rfl value (.head _)).bind fun _ => .pure
  | const value text => cases text <;> exact .pure
  | deref x | unary _ x | memoryGrow x =>
    exact (hchild rfl x (.head _)).bind fun _ => .pure
  | assign x y =>
    refine (hchild rfl x (.head _)).bind fun _ => ?_
    exact (hchild rfl y (.tail _ (.head _))).bind fun _ => .pure
  | select x y z | memoryCopy x y z | memoryFill x y z =>
    refine (hchild rfl x (.head _)).bind fun _ => ?_
    refine (hchild rfl y (.tail _ (.head _))).bind fun _ => ?_
    exact (hchild rfl z (.tail _ (.tail _ (.head _)))).bind fun _ => .pure
  | _ => exact .pure

/-- Statements whose jumps name labels around them are printed as inside their scopes. -/
theorem lexicalLines_eq (h : ∀ node ∈ nodes, node.Scoped []) :
    lexicalLines layout [] nodes = some (statementTexts layout nodes) := by
  have hagrees : Agrees [] (renderLines layout nodes) (lexicalLines layout [] nodes) :=
    renderLines_agrees fun c hc => render_agrees (h c hc)
  exact (hagrees [] nofun).1

/-- A loop that goes on by a branch, and its closing `break`. -/
example : lexicalLines {} [] [.loop (some ⟨1⟩) (.br ⟨1⟩ (some (.param 0)) none)] =
    some ["label$1: while (1) \x7b\n  if (param0) continue label$1;\n  break label$1;\n\x7d"] := by
  decide +kernel

end

end Code

end WasmLift
