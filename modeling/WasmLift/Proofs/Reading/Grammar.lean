import WasmLift.Proofs.Reading.Tokens

/-!
# How C reads an expression

The tokens of an expression are read from left to right by operator precedence (`C.parse?`): an
operator waits on a stack until an operator that binds less tightly, or a closing bracket, comes
after its operand. A text without an operator outside brackets, apart from signs and casts in front,
is read the same way wherever it stands (`C.Operand`); any other one has to stand inside brackets,
after an assignment sign or on its own (`C.Enclosed`).

The comma operator, members, increments behind an operand, `sizeof`, compound assignments, strings
and characters are left out: tokens that need them are no expression here.
-/

namespace WasmLift.C

/-- An expression: what is applied to what, without its brackets. -/
inductive Tree where
  | name (text : String)
  | number (text : String)
  | prefixed (op : String) (operand : Tree)
  | cast (type : String) (operand : Tree)
  | infixed (op : String) (left right : Tree)
  | conditional (condition ifTrue ifFalse : Tree)
  | index (array position : Tree)
  | call (callee : Tree) (args : List Tree)
deriving Repr

/-- The words that stand in the name of a type. -/
def typeWords : List String :=
  ["void", "char", "short", "int", "long", "float", "double", "signed", "unsigned", "const",
    "volatile", "_Atomic", "_Bool", "_Complex"]

/-- The words that are no identifiers. -/
def keywords : List String :=
  typeWords ++ ["auto", "break", "case", "continue", "default", "do", "else", "enum", "extern",
    "for", "goto", "if", "inline", "register", "restrict", "return", "sizeof", "static", "struct",
    "switch", "typedef", "union", "while", "_Alignas", "_Alignof", "_Generic", "_Imaginary",
    "_Noreturn", "_Static_assert", "_Thread_local"]

/-- The operators that stand before their operand. -/
def prefixes : List String :=
  ["-", "+", "!", "~", "*", "&", "++", "--"]

/-- How tightly an operator between two operands binds. -/
def infixLevel? : String → Option Nat
  | "*" | "/" | "%" => some 13
  | "+" | "-" => some 12
  | "<<" | ">>" => some 11
  | "<" | ">" | "<=" | ">=" => some 10
  | "==" | "!=" => some 9
  | "&" => some 8
  | "^" => some 7
  | "|" => some 6
  | "&&" => some 5
  | "||" => some 4
  | "=" => some 2
  | _ => none

/-- Something begun that waits for the operand that is being read. -/
inductive Frame where
  | group
  | prefixed (op : String)
  | cast (type : String)
  | infixed (op : String) (left : Tree)
  /-- A conditional whose condition has been read. -/
  | question (condition : Tree)
  /-- A conditional of which only the last part is missing. -/
  | alternative (condition ifTrue : Tree)
  /-- A call with the arguments before the one that is being read. -/
  | arguments (callee : Tree) (args : List Tree)
  | subscript (array : Tree)

namespace Frame

/-- How tightly the frame binds the operand that it waits for. Only a bracket or a colon ends what
stands in brackets or in the middle of a conditional. -/
def level : Frame → Nat
  | .prefixed _ | .cast _ => 14
  | .infixed op _ => (infixLevel? op).getD 0
  | .alternative _ _ => 3
  | .group | .question _ | .arguments _ _ | .subscript _ => 0

/-- The expression that the frame and its operand are. -/
def apply : Frame → Tree → Tree
  | .prefixed op, t => .prefixed op t
  | .cast type, t => .cast type t
  | .infixed op left, t => .infixed op left t
  | .alternative condition ifTrue, t => .conditional condition ifTrue t
  | .group, t | .question _, t | .arguments _ _, t | .subscript _, t => t

end Frame

/-- Applies the frames that bind at least as tightly as the level. -/
def settle (level : Nat) : List Frame → Tree → List Frame × Tree
  | f :: stack, t => if level ≤ f.level then settle level stack (f.apply t) else (f :: stack, t)
  | [], t => ([], t)

/-- What is being read. -/
inductive Focus where
  | operand
  /-- The type of a cast, with its words so far. -/
  | type (words : List String)
  /-- What comes after an operand. -/
  | after (t : Tree)

/-- What is being read, and what waits for it, innermost first. -/
structure State where
  focus : Focus
  stack : List Frame

/-- Reads a token where an operand begins. A type after an opening parenthesis makes it a cast. -/
def stepOperand (stack : List Frame) : Token → Option State
  | .number text => some ⟨.after (.number text), stack⟩
  | .word text =>
    if typeWords.contains text then
      match stack with
      | .group :: rest => some ⟨.type [text], rest⟩
      | _ => none
    else if keywords.contains text then none
    else some ⟨.after (.name text), stack⟩
  | .symbol "(" => some ⟨.operand, .group :: stack⟩
  | .symbol ")" =>
    match stack with
    | .arguments callee [] :: rest => some ⟨.after (.call callee []), rest⟩
    | _ => none
  | .symbol op => if prefixes.contains op then some ⟨.operand, .prefixed op :: stack⟩ else none

/-- Reads a token in the type of a cast. -/
def stepType (words : List String) (stack : List Frame) : Token → Option State
  | .word text => if typeWords.contains text then some ⟨.type (words ++ [text]), stack⟩ else none
  | .symbol "*" => some ⟨.type (words ++ ["*"]), stack⟩
  | .symbol ")" => some ⟨.operand, .cast (" ".intercalate words) :: stack⟩
  | _ => none

/-- Reads a token that comes after an operand. Successive assignments are taken from the right, all
other operators of a level from the left. -/
def stepAfter (t : Tree) (stack : List Frame) : Token → Option State
  | .symbol "(" => some ⟨.operand, .arguments t [] :: stack⟩
  | .symbol "[" => some ⟨.operand, .subscript t :: stack⟩
  | .symbol ")" =>
    match settle 1 stack t with
    | (.group :: rest, t) => some ⟨.after t, rest⟩
    | (.arguments callee args :: rest, t) => some ⟨.after (.call callee (args ++ [t])), rest⟩
    | _ => none
  | .symbol "]" =>
    match settle 1 stack t with
    | (.subscript array :: rest, t) => some ⟨.after (.index array t), rest⟩
    | _ => none
  | .symbol "," =>
    match settle 1 stack t with
    | (.arguments callee args :: rest, t) =>
      some ⟨.operand, .arguments callee (args ++ [t]) :: rest⟩
    | _ => none
  | .symbol "?" =>
    let (rest, t) := settle 4 stack t
    some ⟨.operand, .question t :: rest⟩
  | .symbol ":" =>
    match settle 1 stack t with
    | (.question condition :: rest, t) => some ⟨.operand, .alternative condition t :: rest⟩
    | _ => none
  | .symbol "=" =>
    let (rest, t) := settle 3 stack t
    some ⟨.operand, .infixed "=" t :: rest⟩
  | .symbol op => do
    let level ← infixLevel? op
    let (rest, t) := settle level stack t
    some ⟨.operand, .infixed op t :: rest⟩
  | _ => none

/-- Reads a token. -/
def step : State → Token → Option State
  | ⟨.operand, stack⟩, token => stepOperand stack token
  | ⟨.type words, stack⟩, token => stepType words stack token
  | ⟨.after t, stack⟩, token => stepAfter t stack token

/-- Reads tokens. -/
def run (s : State) (ts : List Token) : Option State :=
  ts.foldlM step s

/-- The expression that the tokens are, if they are one. -/
def parse? (ts : List Token) : Option Tree := do
  match ← run ⟨.operand, []⟩ ts with
  | ⟨.after t, stack⟩ =>
    match settle 1 stack t with
    | ([], t) => some t
    | _ => none
  | _ => none

example : parse? (tokens "a = b = (int) -x[0] * 2 + 1") =
    some (.infixed "=" (.name "a") (.infixed "=" (.name "b") (.infixed "+" (.infixed "*"
      (.cast "int" (.prefixed "-" (.index (.name "x") (.number "0")))) (.number "2"))
      (.number "1")))) := by
  rfl

/-! ## Runs -/

/-- Nothing is read of no tokens. -/
@[simp] theorem run_nil (s : State) : run s [] = some s :=
  rfl

/-- Tokens are read one by one. -/
theorem run_cons {s s' : State} {token : Token} (h : step s token = some s') (ts : List Token) :
    run s (token :: ts) = run s' ts := by
  simp [run, h]

/-- Tokens are read in two goes. -/
theorem run_append {s s' : State} {ts : List Token} (h : run s ts = some s') (ts' : List Token) :
    run s (ts ++ ts') = run s' ts' := by
  simp only [run] at h ⊢
  simp [List.foldlM_append, h]

/-- The innermost frame binds less tightly than the level. -/
def Below (level : Nat) (stack : List Frame) : Prop :=
  ∀ f ∈ stack.head?, f.level < level

/-- The level of the innermost frame decides. -/
theorem below_cons {level : Nat} {f : Frame} {stack : List Frame} :
    Below level (f :: stack) ↔ f.level < level := by
  simp [Below]

/-- What binds less tightly than a level does so than a tighter one. -/
theorem Below.mono {m n : Nat} {stack : List Frame} (h : Below m stack) (hmn : m ≤ n) :
    Below n stack :=
  fun f hf => Nat.lt_of_lt_of_le (h f hf) hmn

/-- Frames that bind less tightly than the level wait on. -/
theorem settle_below {level : Nat} {stack : List Frame} (h : Below level stack) (t : Tree) :
    settle level stack t = (stack, t) := by
  cases stack with
  | nil => rfl
  | cons f stack => rw [settle, if_neg (Nat.not_le.2 (h f rfl))]

/-- A frame that binds at least as tightly as the level is applied. -/
theorem settle_cons {level : Nat} {f : Frame} (h : level ≤ f.level) (stack : List Frame)
    (t : Tree) : settle level (f :: stack) t = settle level stack (f.apply t) := by
  rw [settle, if_pos h]

/-! ## Texts that are read the same everywhere -/

/-- The tokens are read as the tree, and nothing waits for it that did not wait before. -/
def Primary (ts : List Token) (tree : Tree) : Prop :=
  ∀ stack, run ⟨.operand, stack⟩ ts = some ⟨.after tree, stack⟩

/-- The tokens are read as the tree, wherever they stand. -/
def Operand (ts : List Token) (tree : Tree) : Prop :=
  ∀ stack, ∃ stack' t, run ⟨.operand, stack⟩ ts = some ⟨.after t, stack'⟩ ∧
    ∀ n ≤ 14, settle n stack' t = settle n stack tree

variable {ts ts' ts'' : List Token} {tree tree' tree'' : Tree}

/-- What leaves nothing waiting is read the same everywhere. -/
theorem Primary.operand (h : Primary ts tree) : Operand ts tree :=
  fun stack => ⟨stack, tree, h stack, fun _ _ => rfl⟩

/-- A number is a primary expression. -/
theorem primary_number (text : String) : Primary [.number text] (.number text) :=
  fun _ => rfl

/-- A name is a primary expression. -/
theorem primary_name {text : String} (h : text ∉ keywords) : Primary [.word text] (.name text) := by
  intro stack
  have htype : text ∉ typeWords := fun hmem => h (List.mem_append_left _ hmem)
  simp [run, step, stepOperand, htype, h]

/-- A sign in front of an operand makes an operand. -/
theorem Operand.prefixed {op : String} (hop : op ∈ prefixes) (h : Operand ts tree) :
    Operand (.symbol op :: ts) (.prefixed op tree) := by
  intro stack
  obtain ⟨stack', t, hrun, hsettle⟩ := h (.prefixed op :: stack)
  have hstep : step ⟨.operand, stack⟩ (.symbol op) = some ⟨.operand, .prefixed op :: stack⟩ := by
    simp only [prefixes, List.mem_cons, List.not_mem_nil, or_false] at hop
    rcases hop with rfl | rfl | rfl | rfl | rfl | rfl | rfl | rfl <;> rfl
  refine ⟨stack', t, (run_cons hstep ts).trans hrun, fun n hn => ?_⟩
  rw [hsettle n hn, settle_cons hn]
  rfl

/-- The tokens are those of a type. -/
def IsType (ts : List Token) (type : String) : Prop :=
  ∀ stack, run ⟨.operand, .group :: stack⟩ (ts ++ [.symbol ")"]) =
    some ⟨.operand, .cast type :: stack⟩

/-- The words of a type are collected. -/
theorem run_typeWords {words : List String} (h : ∀ w ∈ words, w ∈ typeWords) (before : List String)
    (stack : List Frame) :
    run ⟨.type before, stack⟩ (words.map .word) = some ⟨.type (before ++ words), stack⟩ := by
  induction words generalizing before with
  | nil => simp
  | cons w words ih =>
    obtain ⟨hw, hwords⟩ := List.forall_mem_cons.1 h
    have hstep : step ⟨.type before, stack⟩ (.word w) = some ⟨.type (before ++ [w]), stack⟩ := by
      simp [step, stepType, hw]
    rw [List.map_cons, run_cons hstep, ih hwords, List.append_assoc]
    rfl

/-- A word of a type after an opening parenthesis begins a cast. -/
theorem run_type {words : List String} (hne : words ≠ []) (h : ∀ w ∈ words, w ∈ typeWords)
    (stack : List Frame) :
    run ⟨.operand, .group :: stack⟩ (words.map .word) = some ⟨.type words, stack⟩ := by
  cases words with
  | nil => exact absurd rfl hne
  | cons w words =>
    obtain ⟨hw, hwords⟩ := List.forall_mem_cons.1 h
    have hstep : step ⟨.operand, .group :: stack⟩ (.word w) = some ⟨.type [w], stack⟩ := by
      simp [step, stepOperand, hw]
    rw [List.map_cons, run_cons hstep, run_typeWords hwords]
    rfl

/-- The words of a type are a type. -/
theorem isType_words {words : List String} (hne : words ≠ []) (h : ∀ w ∈ words, w ∈ typeWords) :
    IsType (words.map .word) (" ".intercalate words) := by
  intro stack
  rw [run_append (run_type hne h stack)]
  rfl

/-- The words of a type with a star behind them are a type. -/
theorem isType_pointer {words : List String} (hne : words ≠ []) (h : ∀ w ∈ words, w ∈ typeWords) :
    IsType (words.map .word ++ [.symbol "*"]) (" ".intercalate (words ++ ["*"])) := by
  intro stack
  rw [List.append_assoc, run_append (run_type hne h stack)]
  rfl

/-- A cast in front of an operand makes an operand. -/
theorem Operand.cast {type : String} (htype : IsType ts type) (h : Operand ts' tree) :
    Operand (.symbol "(" :: (ts ++ .symbol ")" :: ts')) (.cast type tree) := by
  intro stack
  obtain ⟨stack', t, hrun, hsettle⟩ := h (.cast type :: stack)
  refine ⟨stack', t, ?_, fun n hn => ?_⟩
  · have hopen : step ⟨.operand, stack⟩ (.symbol "(") = some ⟨.operand, .group :: stack⟩ := rfl
    have hclose := run_append (htype stack) ts'
    rw [List.append_assoc, List.singleton_append] at hclose
    rw [run_cons hopen, hclose, hrun]
  · rw [hsettle n hn, settle_cons hn]
    rfl

/-! ## Texts inside brackets -/

namespace Tree

/-- The assignments that wait for the value of the last one, the last one first. -/
def pending : Tree → List Frame
  | .infixed "=" target value => value.pending ++ [.infixed "=" target]
  | _ => []

/-- The value of the last one of successive assignments. -/
def final : Tree → Tree
  | .infixed "=" _ value => value.final
  | t => t

/-- No assignment waits in what is none. -/
theorem pending_plain {t : Tree} (h : ∀ l r, t ≠ .infixed "=" l r) : t.pending = [] := by
  rw [pending.eq_2 _ h]

/-- What is no assignment is its own value. -/
theorem final_plain {t : Tree} (h : ∀ l r, t ≠ .infixed "=" l r) : t.final = t := by
  rw [final.eq_2 _ h]

/-- Successive assignments are put together when they end. -/
theorem settle_pending {n : Nat} (hn : n ≤ 2) (t : Tree) (stack : List Frame) :
    settle n (t.pending ++ stack) t.final = settle n stack t := by
  fun_induction pending t generalizing stack with
  | case1 target value ih =>
    rw [List.append_assoc, final, ih]
    exact settle_cons hn stack value
  | case2 t h =>
    rw [final_plain h]
    rfl

/-- The value of the last one of successive assignments takes the place of an operand. -/
def graft : Tree → Tree → Tree
  | .infixed "=" target value, t => .infixed "=" target (value.graft t)
  | target, t => .infixed "=" target t

/-- An operand that is no assignment becomes the target of one. -/
theorem graft_plain {target : Tree} (h : ∀ l r, target ≠ .infixed "=" l r) (value : Tree) :
    target.graft value = .infixed "=" target value := by
  rw [graft.eq_2 _ _ h]

/-- With a new value behind it, what was the value before becomes a target that waits. -/
theorem pending_graft (target value : Tree) :
    (target.graft value).pending =
      value.pending ++ .infixed "=" target.final :: target.pending := by
  fun_induction graft target value with
  | case1 target value t ih => rw [pending, ih, final, pending, List.append_assoc]; rfl
  | case2 target t h => rw [pending, pending_plain h, final_plain h]

/-- The value of the last assignment is that of what was put behind. -/
theorem final_graft (target value : Tree) : (target.graft value).final = value.final := by
  fun_induction graft target value with
  | case1 target value t ih => rw [final, ih]
  | case2 target t h => rw [final]

/-- Assignments that wait bind less tightly than every other operator. -/
theorem below_pending (t : Tree) {stack : List Frame} (h : Below 3 stack) :
    Below 3 (t.pending ++ stack) := by
  fun_induction pending t generalizing stack with
  | case1 target value ih =>
    rw [List.append_assoc]
    exact ih (below_cons.2 (show 2 < 3 by omega))
  | case2 => exact h

end Tree

/-- The tokens are read as the tree if they stand at the beginning, after an opening bracket, or
after an assignment sign. The assignments among them are not yet put together. -/
def Enclosed (ts : List Token) (tree : Tree) : Prop :=
  ∀ stack, Below 3 stack → ∃ stack' t, run ⟨.operand, stack⟩ ts = some ⟨.after t, stack'⟩ ∧
    ∀ n ≤ 3, settle n stack' t = settle n (tree.pending ++ stack) tree.final

/-- An operand that is no assignment in parentheses. -/
theorem Operand.enclosed (h : Operand ts tree) (hplain : ∀ l r, tree ≠ .infixed "=" l r) :
    Enclosed ts tree := by
  intro stack _
  obtain ⟨stack', t, hrun, hsettle⟩ := h stack
  refine ⟨stack', t, hrun, fun n hn => ?_⟩
  rw [hsettle n (by omega), Tree.pending_plain hplain, Tree.final_plain hplain]
  rfl

/-- What is read in brackets is read on its own. -/
theorem Enclosed.parse_eq (h : Enclosed ts tree) : parse? ts = some tree := by
  obtain ⟨stack', t, hrun, hsettle⟩ := h [] (by simp [Below])
  have hdone : settle 1 stack' t = ([], tree) := by
    rw [hsettle 1 (by omega), Tree.settle_pending (by omega)]
    rfl
  simp [parse?, hrun, hdone]

/-- What is read the same everywhere is read on its own. -/
theorem Operand.parse_eq (h : Operand ts tree) : parse? ts = some tree := by
  obtain ⟨stack', t, hrun, hsettle⟩ := h []
  have hdone : settle 1 stack' t = ([], tree) := hsettle 1 (by omega)
  simp [parse?, hrun, hdone]

/-- What has been read inside brackets is put together where they end. -/
theorem Enclosed.run_inside (h : Enclosed ts tree) {f : Frame} (hf : f.level = 0)
    (stack : List Frame) : ∃ stack' t, run ⟨.operand, f :: stack⟩ ts = some ⟨.after t, stack'⟩ ∧
      settle 1 stack' t = (f :: stack, tree) := by
  obtain ⟨stack', t, hrun, hsettle⟩ := h (f :: stack) (by simp [below_cons, hf])
  refine ⟨stack', t, hrun, ?_⟩
  rw [hsettle 1 (by omega), Tree.settle_pending (by omega),
    settle_below (below_cons.2 (by omega))]

/-- What is read in brackets is a primary expression with them. -/
theorem Enclosed.group (h : Enclosed ts tree) :
    Primary (.symbol "(" :: (ts ++ [.symbol ")"])) tree := by
  intro stack
  obtain ⟨stack', t, hrun, hsettle⟩ := h.run_inside (f := .group) rfl stack
  have hopen : step ⟨.operand, stack⟩ (.symbol "(") = some ⟨.operand, .group :: stack⟩ := rfl
  have hclose : step ⟨.after t, stack'⟩ (.symbol ")") = some ⟨.after tree, stack⟩ := by
    simp [step, stepAfter, hsettle]
  rw [run_cons hopen, run_append hrun, run_cons hclose, run_nil]

/-- An index in brackets behind a primary expression makes one. -/
theorem Primary.index (harray : Primary ts tree) (h : Enclosed ts' tree') :
    Primary (ts ++ .symbol "[" :: (ts' ++ [.symbol "]"])) (.index tree tree') := by
  intro stack
  obtain ⟨stack', t, hrun, hsettle⟩ := h.run_inside (f := .subscript tree) rfl stack
  have hopen : step ⟨.after tree, stack⟩ (.symbol "[") =
      some ⟨.operand, .subscript tree :: stack⟩ := rfl
  have hclose : step ⟨.after t, stack'⟩ (.symbol "]") =
      some ⟨.after (.index tree tree'), stack⟩ := by
    simp [step, stepAfter, hsettle]
  rw [run_append (harray stack), run_cons hopen, run_append hrun, run_cons hclose, run_nil]

/-- The arguments of a call, up to its closing parenthesis. -/
theorem run_arguments {tss : List (List Token)} {trees : List Tree}
    (h : List.Forall₂ Enclosed tss trees) (hts : Enclosed ts tree) (callee : Tree)
    (args : List Tree) (stack : List Frame) :
    run ⟨.operand, .arguments callee args :: stack⟩
        ([.symbol ","].intercalate (ts :: tss) ++ [.symbol ")"]) =
      some ⟨.after (.call callee (args ++ tree :: trees)), stack⟩ := by
  -- The frame holds the arguments so far, so the induction goes over those that are still to come.
  induction h generalizing ts tree args with
  | nil =>
    obtain ⟨stack', t, hrun, hsettle⟩ := hts.run_inside (f := .arguments callee args) rfl stack
    have hclose : step ⟨.after t, stack'⟩ (.symbol ")") =
        some ⟨.after (.call callee (args ++ [tree])), stack⟩ := by
      simp [step, stepAfter, hsettle]
    rw [List.intercalate_singleton, run_append hrun, run_cons hclose, run_nil]
  | @cons ts' tree' tss trees h' _ ih =>
    obtain ⟨stack', t, hrun, hsettle⟩ := hts.run_inside (f := .arguments callee args) rfl stack
    have hcomma : step ⟨.after t, stack'⟩ (.symbol ",") =
        some ⟨.operand, .arguments callee (args ++ [tree]) :: stack⟩ := by
      simp [step, stepAfter, hsettle]
    have hrest := ih h' (args ++ [tree])
    rw [List.intercalate_cons_cons, List.append_assoc, List.append_assoc, run_append hrun,
      List.singleton_append, run_cons hcomma, hrest, List.append_assoc]
    rfl

/-- Arguments in brackets behind a primary expression make one. -/
theorem Primary.call {tss : List (List Token)} {trees : List Tree} (hcallee : Primary ts tree)
    (h : List.Forall₂ Enclosed tss trees) :
    Primary (ts ++ .symbol "(" :: ([.symbol ","].intercalate tss ++ [.symbol ")"]))
      (.call tree trees) := by
  intro stack
  have hopen : step ⟨.after tree, stack⟩ (.symbol "(") =
      some ⟨.operand, .arguments tree [] :: stack⟩ := rfl
  rw [run_append (hcallee stack), run_cons hopen]
  cases h with
  | nil => rfl
  | cons h' h => exact run_arguments h h' tree [] stack

/-- An operator applies what binds at least as tightly, and then waits. -/
theorem step_infixed {op : String} {n : Nat} (hop : infixLevel? op = some n) (hn : 4 ≤ n)
    (t : Tree) (stack : List Frame) :
    step ⟨.after t, stack⟩ (.symbol op) =
      some ⟨.operand, .infixed op (settle n stack t).2 :: (settle n stack t).1⟩ := by
  unfold infixLevel? at hop
  split at hop <;> cases hop <;> first | rfl | omega

/-- An operator between two operands may stand in brackets. -/
theorem Operand.infixed {op : String} {n : Nat} (hop : infixLevel? op = some n) (hn : 4 ≤ n)
    (hleft : Operand ts tree) (hright : Operand ts' tree') :
    Enclosed (ts ++ .symbol op :: ts') (.infixed op tree tree') := by
  intro stack hbelow
  obtain ⟨stack₁, t₁, hrun₁, hsettle₁⟩ := hleft stack
  obtain ⟨stack₂, t₂, hrun₂, hsettle₂⟩ := hright (.infixed op tree :: stack)
  have hlevel : (Frame.infixed op tree).level = n := by
    simp [Frame.level, hop]
  have hn' : n ≤ 14 := by
    unfold infixLevel? at hop
    split at hop <;> cases hop <;> decide
  -- What waits in front of the text binds less tightly than any operator, so only the signs and
  -- casts of the left operand are applied when the operator comes.
  have hstep := step_infixed hop hn t₁ stack₁
  rw [hsettle₁ n hn', settle_below (hbelow.mono (show 3 ≤ n by omega))] at hstep
  refine ⟨stack₂, t₂, ?_, fun k hk => ?_⟩
  · rw [run_append hrun₁, run_cons hstep, hrun₂]
  · have hplain : ∀ l r, Tree.infixed op tree tree' ≠ .infixed "=" l r := by
      rintro l r ⟨⟩
      cases hop
      omega
    rw [hsettle₂ k (by omega), settle_cons (by omega), Tree.pending_plain hplain,
      Tree.final_plain hplain]
    rfl

/-- A conditional of three operands may stand in brackets. -/
theorem Operand.conditional (hcondition : Operand ts tree) (htrue : Operand ts' tree')
    (hfalse : Operand ts'' tree'') :
    Enclosed (ts ++ .symbol "?" :: (ts' ++ .symbol ":" :: ts''))
      (.conditional tree tree' tree'') := by
  intro stack hbelow
  obtain ⟨stack₁, t₁, hrun₁, hsettle₁⟩ := hcondition stack
  obtain ⟨stack₂, t₂, hrun₂, hsettle₂⟩ := htrue (.question tree :: stack)
  obtain ⟨stack₃, t₃, hrun₃, hsettle₃⟩ := hfalse (.alternative tree tree' :: stack)
  have hquestion : step ⟨.after t₁, stack₁⟩ (.symbol "?") =
      some ⟨.operand, .question tree :: stack⟩ := by
    simp [step, stepAfter, hsettle₁, settle_below (hbelow.mono (show 3 ≤ 4 by omega))]
  have hcolon : step ⟨.after t₂, stack₂⟩ (.symbol ":") =
      some ⟨.operand, .alternative tree tree' :: stack⟩ := by
    have hinside : Below 1 (.question tree :: stack) := below_cons.2 Nat.one_pos
    simp [step, stepAfter, hsettle₂, settle_below hinside]
  refine ⟨stack₃, t₃, ?_, fun n hn => ?_⟩
  · rw [run_append hrun₁, run_cons hquestion, run_append hrun₂, run_cons hcolon, hrun₃]
  · rw [hsettle₃ n (by omega), settle_cons hn]
    rfl

/-- An assignment to an operand may stand in brackets, and its value may be an assignment again. -/
theorem Enclosed.assign (htarget : Enclosed ts tree) (hvalue : Enclosed ts' tree') :
    Enclosed (ts ++ .symbol "=" :: ts') (tree.graft tree') := by
  intro stack hbelow
  obtain ⟨stack₁, t₁, hrun₁, hsettle₁⟩ := htarget stack hbelow
  -- The assignments of the target stay on the stack: the new one binds no less tightly than they
  -- do.
  have hpending := Tree.below_pending tree hbelow
  obtain ⟨stack₂, t₂, hrun₂, hsettle₂⟩ :=
    hvalue (.infixed "=" tree.final :: (tree.pending ++ stack))
      (below_cons.2 (show 2 < 3 by omega))
  have hstep : step ⟨.after t₁, stack₁⟩ (.symbol "=") =
      some ⟨.operand, .infixed "=" tree.final :: (tree.pending ++ stack)⟩ := by
    simp [step, stepAfter, hsettle₁, settle_below hpending]
  refine ⟨stack₂, t₂, ?_, fun n hn => ?_⟩
  · rw [run_append hrun₁, run_cons hstep, hrun₂]
  · rw [hsettle₂ n hn, Tree.pending_graft, Tree.final_graft, List.append_assoc]
    rfl

end WasmLift.C
