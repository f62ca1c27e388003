import WasmLift.Code.Framed
import WasmLift.Proofs.Execution.Acts

/-!
# Writing a node after its children

Except for a block, a conditional and a loop, a node is written by writing its children one after
the other and then putting their codes together (`Walk.expr_simple`), in the order in which they
run. What holds of putting each node together holds of the whole walk over a tree
(`Walk.expr_lasting`), such as not to change what the state shows (`Walk.expr_keeps`).
-/

namespace WasmLift

namespace Walk

variable {σ : Type} {p : Program} {d : Dialect σ}

/-- Puts the codes of the children of a node together. -/
def compose (p : Program) (d : Dialect σ) : Expr → List Code → Walk σ Code
  | .localGet index _, [] => d.localGet index
  | .localSet index _ tee _, [v] => d.localSet index v tee
  | .globalGet index _, [] => return d.globalGet index
  | .globalSet index _, [v] => return d.globalSet index v
  | .call target _ _, as => return .call (p.names.get target).name as
  | .callIndirect _ _ _, cs => return .callIndirect (cs.getLast?.getD .nop) cs.dropLast
  | .const value, [] => return d.const value
  | .unary op _, [v] => return .unary op v
  | .binary op _ _, [l, r] => return d.binary op l r
  | .select _ _ _ _, [t, e, c] => return .select c t e
  | .drop _, [v] => return v
  | .ret _, cs => return .ret cs.head?
  | .unreachable, [] => return .unreachable
  | .br label none _, cs => return .br label none cs.head?
  | .br label (some _) none, [c] => return .br label (some c) none
  | .br label (some _) (some _), [v, c] => return .br label (some c) (some v)
  | .switch labels fallback _ none, [c] => return .switch labels fallback c none
  | .switch labels fallback _ (some _), [v, c] => return .switch labels fallback c (some v)
  | .load _ arg ty, [a] => d.load a arg ty
  | .store _ value arg, [a, v] => d.store a v value.ty arg
  | .memorySize, [] => return .memorySize
  | .memoryGrow _, [v] => return .memoryGrow v
  | .memoryCopy _ _ _, [t, s, l] => return .memoryCopy t s l
  | .memoryFill _ _ _, [t, v, l] => return .memoryFill t v l
  | _, _ => return .nop

/-- Two lists of trees are written one after the other. -/
theorem exprs_append (xs ys : List Expr) :
    exprs p d (xs ++ ys) = do
      let cs ← exprs p d xs
      let ds ← exprs p d ys
      return cs ++ ds := by
  induction xs with
  | nil => simp [exprs]
  | cons e rest ih => simp [exprs, ih]

/-- A simple node is written by writing its children and putting their codes together. -/
theorem expr_simple {e : Expr} (he : e.isSimple = true) :
    expr p d e = exprs p d e.children >>= compose p d e := by
  cases e with
  | block | ite | loop => cases he
  | ret value => cases value <;> simp [expr, option, Expr.children, exprs, compose]
  | br label condition value =>
    cases condition <;> cases value <;> simp [expr, option, Expr.children, exprs, compose]
  | switch labels fallback condition value =>
    cases value <;> simp [expr, option, Expr.children, exprs, compose]
  | call target args ty => rfl
  | callIndirect target args ty =>
    simp [expr, Expr.children, exprs, exprs_append, compose]
  | _ => simp [expr, Expr.children, exprs, compose]

/-! ## What writing keeps -/

/-- A property of walks that holds of two in a row if it holds of each, and of one that writes
nothing. -/
structure Lasting (K : (α : Type) → Walk σ α → Prop) : Prop where
  pure : ∀ {α : Type} {a : α}, K α (pure a)
  bind : ∀ {α β : Type} {x : Walk σ α} {f : α → Walk σ β}, K α x → (∀ a, K β (f a)) → K β (x >>= f)

section
variable {K : (α : Type) → Walk σ α → Prop}

/-- What lasts while each tree is written lasts while all are. -/
theorem exprs_lasting (hK : Lasting K) {es : List Expr} (hes : ∀ e ∈ es, K Code (expr p d e)) :
    K (List Code) (exprs p d es) := by
  induction es with
  | nil => exact hK.pure
  | cons e rest ih =>
    refine hK.bind (hes e (.head _)) fun _ => ?_
    exact hK.bind (ih fun e he => hes e (.tail _ he)) fun _ => hK.pure

/-- What lasts while each tree is written lasts while the statements are. -/
theorem statements_lasting (hK : Lasting K) {es : List Expr}
    (hes : ∀ e ∈ es, K Code (expr p d e)) : K (List Code) (statements p d es) := by
  induction es with
  | nil => exact hK.pure
  | cons e rest ih =>
    refine hK.bind (hes e (.head _)) fun _ => ?_
    exact hK.bind (ih fun e he => hes e (.tail _ he)) fun _ => hK.pure

/-- What lasts while each tree is written lasts while the body is. -/
theorem bodyStatements_lasting (hK : Lasting K) {es : List Expr}
    (hes : ∀ e ∈ es, K Code (expr p d e)) : K (List (Code × Bool)) (bodyStatements p d es) := by
  induction es with
  | nil => exact hK.pure
  | cons e rest ih =>
    refine hK.bind (hes e (.head _)) fun _ => ?_
    exact hK.bind (ih fun e he => hes e (.tail _ he)) fun _ => hK.pure

/-- Writing a tree has a lasting property if putting together each of its nodes does. -/
theorem expr_lasting (hK : Lasting K) {e : Expr}
    (he : e.All fun e => ∀ cs, K Code (compose p d e cs)) : K Code (expr p d e) := by
  induction he with
  | @node e own _ ih =>
  cases hsimple : e.isSimple with
  | true =>
    rw [expr_simple hsimple]
    exact hK.bind (exprs_lasting hK ih) own
  | false =>
    cases e with
    | block label children ty => exact hK.bind (statements_lasting hK ih) fun _ => hK.pure
    | ite condition ifTrue ifFalse ty =>
      refine hK.bind (ih condition (.head _)) fun _ => ?_
      refine hK.bind (ih ifTrue (.tail _ (.head _))) fun _ => ?_
      cases ifFalse with
      | none => exact hK.bind hK.pure fun _ => hK.pure
      | some e =>
        have he : K Code (expr p d e) := ih e (.tail _ (.tail _ (.head _)))
        exact hK.bind (hK.bind he fun _ => hK.pure) fun _ => hK.pure
    | loop label body ty => exact hK.bind (ih body (.head _)) fun _ => hK.pure
    | _ => cases hsimple

/-- Writing a function has a lasting property if putting together each node of its body does. -/
theorem function_lasting (hK : Lasting K) {f : Function}
    (hf : ∀ body, f.body? = some body → body.All fun e => ∀ cs, K Code (compose p d e cs)) :
    K (List Code) (function p d f) := by
  unfold function
  split
  · exact hK.pure
  · next label children ty hbody =>
    refine hK.bind (bodyStatements_lasting hK fun e he => ?_) fun _ => hK.pure
    exact expr_lasting hK ((hf _ hbody).child he)
  · exact hK.pure
  · next body _ _ hbody => exact hK.bind (expr_lasting hK (hf body hbody)) fun _ => hK.pure

end

variable {P : σ → Prop}

/-- To keep what the state shows is something that lasts. -/
theorem keeps_lasting : Lasting fun α (x : Walk σ α) => Keeps P x :=
  ⟨.pure, .bind⟩

/-- Writing trees keeps what writing each of them does. -/
theorem exprs_keeps {es : List Expr} (hes : ∀ e ∈ es, Keeps P (expr p d e)) :
    Keeps P (exprs p d es) :=
  exprs_lasting keeps_lasting hes

/-- Writing a tree keeps true what writing each of its nodes keeps true. -/
theorem expr_keeps {e : Expr} (he : e.All fun e => ∀ cs, Keeps P (compose p d e cs)) :
    Keeps P (expr p d e) :=
  expr_lasting keeps_lasting he

/-! ## What was written -/

section
variable {st st' : σ} {code : Code}

/-- A list of trees is written by writing the first and then the rest. -/
theorem exprs_cons {e : Expr} {rest : List Expr} {codes : List Code} {st₁ : σ}
    (he : expr p d e st = (.ok code, st₁)) (hrest : exprs p d rest st₁ = (.ok codes, st')) :
    exprs p d (e :: rest) st = (.ok (code :: codes), st') := by
  rw [exprs, bind_of_ok he, bind_of_ok hrest]
  rfl

/-- A single tree is written as it is. -/
theorem exprs_single {e : Expr} (he : expr p d e st = (.ok code, st')) :
    exprs p d [e] st = (.ok [code], st') :=
  exprs_cons he rfl

/-- If a list of trees was written, so was the first, and then the rest. -/
theorem exprs_cons_ok {e : Expr} {rest : List Expr} {codes : List Code}
    (hes : exprs p d (e :: rest) st = (.ok codes, st')) :
    ∃ c st₁ cs, expr p d e st = (.ok c, st₁) ∧ exprs p d rest st₁ = (.ok cs, st') ∧
      codes = c :: cs := by
  obtain ⟨c, st₁, he, hrest⟩ := bind_ok hes
  obtain ⟨cs, st₂, hrest, hcons⟩ := bind_ok hrest
  cases hcons
  exact ⟨c, st₁, cs, he, hrest, rfl⟩

/-- There are as many codes as trees. -/
theorem exprs_length {es : List Expr} {codes : List Code}
    (hes : exprs p d es st = (.ok codes, st')) : codes.length = es.length := by
  induction es generalizing st codes with
  | nil =>
    cases hes
    rfl
  | cons e rest ih =>
    obtain ⟨c, st₁, cs, -, hrest, rfl⟩ := exprs_cons_ok hes
    simp [ih hrest]

/-- A statement list is its written nodes without those that print nothing. -/
theorem statements_ok {es : List Expr} {nodes : List Code}
    (hes : statements p d es st = (.ok nodes, st')) :
    ∃ codes, exprs p d es st = (.ok codes, st') ∧ nodes = codes.filter (!·.isNop) := by
  induction es generalizing st nodes with
  | nil =>
    cases hes
    exact ⟨[], rfl, rfl⟩
  | cons e rest ih =>
    obtain ⟨code, st₁, he, hrest⟩ := bind_ok hes
    obtain ⟨nodes, st₂, hrest, hkeep⟩ := bind_ok hrest
    cases hkeep
    obtain ⟨codes, hcodes, rfl⟩ := ih hrest
    refine ⟨code :: codes, ?_, ?_⟩
    · rw [exprs, bind_of_ok he, bind_of_ok hcodes]
      rfl
    · rw [keep, List.filter_cons]
      cases code.isNop <;> rfl

/-- The statements of a body are those of a list, each with whether it has a value. -/
theorem bodyStatements_ok {es : List Expr} {nodes : List (Code × Bool)}
    (hes : bodyStatements p d es st = (.ok nodes, st')) :
    statements p d es st = (.ok (nodes.map Prod.fst), st') := by
  induction es generalizing st nodes with
  | nil =>
    cases hes
    rfl
  | cons e rest ih =>
    obtain ⟨code, st₁, he, hrest⟩ := bind_ok hes
    obtain ⟨nodes, st₂, hrest, hkeep⟩ := bind_ok hrest
    cases hkeep
    rw [statements, bind_of_ok he, bind_of_ok (ih hrest), keep]
    cases code.isNop <;> rfl

/-- The walk over a function is the walk over its body. -/
theorem function_ok {f : Function} {body : Expr} {nodes : List Code} (hbody : f.body? = some body)
    (hf : function p d f st = (.ok nodes, st')) : ∃ c, expr p d body st = (.ok c, st') := by
  rw [function, hbody] at hf
  cases body with
  | block label children ty =>
    obtain ⟨nodes, st₁, hnodes, hpure⟩ := bind_ok hf
    cases hpure
    rw [expr, bind_of_ok (bodyStatements_ok hnodes)]
    exact ⟨_, rfl⟩
  | nop =>
    cases hf
    exact ⟨_, rfl⟩
  | _ =>
    obtain ⟨c, st₁, hc, hpure⟩ := bind_ok hf
    cases hpure
    exact ⟨c, hc⟩

/-- If a simple node was written, so were its children, and then they were put together. -/
theorem simple_ok {e : Expr} (he : e.isSimple = true) (hwrite : expr p d e st = (.ok code, st')) :
    ∃ codes st₁, exprs p d e.children st = (.ok codes, st₁) ∧
      compose p d e codes st₁ = (.ok code, st') := by
  rw [expr_simple he] at hwrite
  exact bind_ok hwrite

/-- If a block was written, so were its children, and it has an effect. -/
theorem block_ok {label : Option Label} {children : List Expr} {ty : Ty}
    (hwrite : expr p d (.block label children ty) st = (.ok code, st')) :
    code.hasEffects = true ∧ ∃ codes, exprs p d children st = (.ok codes, st') := by
  obtain ⟨nodes, st₁, hchildren, hblock⟩ := bind_ok hwrite
  cases hblock
  obtain ⟨codes, hcodes, -⟩ := statements_ok hchildren
  exact ⟨rfl, codes, hcodes⟩

/-- If a conditional was written, so were its condition and arms, and it has an effect. -/
theorem ite_ok {condition ifTrue : Expr} {ifFalse : Option Expr} {ty : Ty}
    (hwrite : expr p d (.ite condition ifTrue ifFalse ty) st = (.ok code, st')) :
    code.hasEffects = true ∧ ∃ c st₁ t st₂ fs, expr p d condition st = (.ok c, st₁) ∧
      expr p d ifTrue st₁ = (.ok t, st₂) ∧ exprs p d ifFalse.toList st₂ = (.ok fs, st') := by
  obtain ⟨c, st₁, hcondition, hwrite⟩ := bind_ok hwrite
  obtain ⟨t, st₂, htrue, hwrite⟩ := bind_ok hwrite
  obtain ⟨f, st₃, hfalse, hwrite⟩ := bind_ok hwrite
  cases hwrite
  cases ifFalse with
  | none =>
    cases hfalse
    exact ⟨rfl, c, st₁, t, st', [], hcondition, htrue, rfl⟩
  | some e =>
    obtain ⟨node, st₃, he, hsome⟩ := bind_ok hfalse
    cases hsome
    exact ⟨rfl, c, st₁, t, st₂, [node], hcondition, htrue, exprs_single he⟩

/-- If a loop was written, so was its body, and it has an effect. -/
theorem loop_ok {label : Option Label} {body : Expr} {ty : Ty}
    (hwrite : expr p d (.loop label body ty) st = (.ok code, st')) :
    code.hasEffects = true ∧ ∃ c, expr p d body st = (.ok c, st') := by
  obtain ⟨c, st₁, hbody, hloop⟩ := bind_ok hwrite
  cases hloop
  exact ⟨rfl, c, hbody⟩

end

end Walk

end WasmLift
