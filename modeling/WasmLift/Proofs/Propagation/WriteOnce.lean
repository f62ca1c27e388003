import WasmLift.Proofs.Propagation.Steps

/-!
# Locals that are written once

Unoptimized code assigns every local in one place, and on every way to a use of the local it comes
through that place first. The judgement `WriteOnce` says so of a list of nodes: it keeps track of
the places passed in the text and of the locals surely assigned, which are those assigned on every
way. Running such nodes leaves the locals alone that were assigned before them in the text
(`WriteOnce.keepsLocal`), and writing them leaves alone what is known of these
(`WriteOnce.keepsEntry`). A `scan` finds a derivation of the judgement (`scan_once`).
-/

namespace WasmLift

namespace Framed

/-- The locals assigned before a node: those with an assignment above it in the text, and those
assigned on every way to it. -/
structure Assigned where
  places : List Nat
  surely : List Nat

/-- What a simple node asks of the locals assigned after its children, and what it adds to them.
Nothing comes after a node that never goes on, so anything may count as surely assigned there. -/
def Own (params : Nat) (targets : Label → List Nat) (a b : Assigned) : Expr → Prop
  | .localGet index _ => (index < params ∨ index ∈ a.surely) ∧ b = a
  | .localSet index _ tee ty =>
    tee = (ty != .void) ∧
      ((index < params ∧ b = a) ∨
        (params ≤ index ∧ index ∉ a.places ∧ b = ⟨index :: a.places, index :: a.surely⟩))
  | .br label none _ => targets label ⊆ a.surely ∧ b.places = a.places
  | .br label (some _) _ => targets label ⊆ a.surely ∧ b = a
  | .switch labels fallback _ _ =>
    (∀ label ∈ labels ++ fallback.toList, targets label ⊆ a.surely) ∧ b.places = a.places
  | .ret _ | .unreachable => b.places = a.places
  | _ => b = a

/-- The locals surely assigned at the targets of branches, inside a construct with a label. -/
def within (label : Option Label) (surely : List Nat) (targets : Label → List Nat) :
    Label → List Nat :=
  fun l => if label = some l then surely else targets l

/-- Every local other than a parameter is assigned in one place at most, and assigned on every way
to a use of it. -/
inductive WriteOnce (params : Nat) :
    (Label → List Nat) → Assigned → List Expr → Assigned → Prop where
  | nil {targets : Label → List Nat} {a : Assigned} : WriteOnce params targets a [] a
  | simple {targets : Label → List Nat} {a a₁ a₂ b : Assigned} {e : Expr} {rest : List Expr}
      (he : e.isSimple = true) (hchildren : WriteOnce params targets a e.children a₁)
      (hown : Own params targets a₁ a₂ e) (hrest : WriteOnce params targets a₂ rest b) :
      WriteOnce params targets a (e :: rest) b
  | block {targets : Label → List Nat} {a a₁ b : Assigned} {label : Option Label}
      {children rest : List Expr} {ty : Ty} {surely : List Nat}
      (hchildren : WriteOnce params (within label surely targets) a children a₁)
      (hsurely : surely ⊆ a₁.surely) (hrest : WriteOnce params targets ⟨a₁.places, surely⟩ rest b) :
      WriteOnce params targets a (.block label children ty :: rest) b
  | ite {targets : Label → List Nat} {a a₁ a₂ a₃ b : Assigned} {condition ifTrue : Expr}
      {ifFalse : Option Expr} {ty : Ty} {rest : List Expr} {surely : List Nat}
      (hcondition : WriteOnce params targets a [condition] a₁)
      (htrue : WriteOnce params targets a₁ [ifTrue] a₂)
      (hfalse : WriteOnce params targets ⟨a₂.places, a₁.surely⟩ ifFalse.toList a₃)
      (hsurely : surely ⊆ a₂.surely ∧ surely ⊆ a₃.surely)
      (hrest : WriteOnce params targets ⟨a₃.places, surely⟩ rest b) :
      WriteOnce params targets a (.ite condition ifTrue ifFalse ty :: rest) b
  | loop {targets : Label → List Nat} {a a₁ b : Assigned} {label : Option Label} {body : Expr}
      {ty : Ty} {rest : List Expr}
      (hbody : WriteOnce params (within label a.surely targets) a [body] a₁)
      (hrest : WriteOnce params targets a₁ rest b) :
      WriteOnce params targets a (.loop label body ty :: rest) b

/-! ## What is left alone -/

/-- The node assigns no local of the list other than a parameter. -/
def Spares (params : Nat) (locals : List Nat) (e : Expr) : Prop :=
  ∀ index value tee ty, e = .localSet index value tee ty → index < params ∨ index ∉ locals

section
variable {params : Nat} {targets : Label → List Nat} {a b : Assigned} {es : List Expr}

/-- Only an assignment passes a place. -/
theorem Own.places_eq {e : Expr} (he : Own params targets a b e)
    (hset : ∀ index value tee ty, e ≠ .localSet index value tee ty) : b.places = a.places := by
  unfold Own at he
  split at he
  case h_2 index value tee ty => exact absurd rfl (hset index value tee ty)
  all_goals simp [he]

/-- A place that was passed stays so at a node. -/
theorem Own.places {e : Expr} (he : Own params targets a b e) : a.places ⊆ b.places := by
  by_cases hset : ∃ index value tee ty, e = .localSet index value tee ty
  · obtain ⟨index, value, tee, ty, rfl⟩ := hset
    rcases he.2 with ⟨-, rfl⟩ | ⟨-, -, rfl⟩ <;> simp
  · have hset : ∀ index value tee ty, e ≠ .localSet index value tee ty :=
      fun index value tee ty heq => hset ⟨index, value, tee, ty, heq⟩
    simp [he.places_eq hset]

/-- A place that was passed stays so along a list of nodes. -/
theorem WriteOnce.places (hes : WriteOnce params targets a es b) : a.places ⊆ b.places := by
  induction hes with
  | nil => exact fun _ hi => hi
  | simple _ _ hown _ ihchildren ihrest =>
    exact fun i hi => ihrest (hown.places (ihchildren hi))
  | block _ _ _ ihchildren ihrest => exact fun i hi => ihrest (ihchildren hi)
  | ite _ _ _ _ _ ihcondition ihtrue ihfalse ihrest =>
    exact fun i hi => ihrest (ihfalse (ihtrue (ihcondition hi)))
  | loop _ _ ihbody ihrest => exact fun i hi => ihrest (ihbody hi)

/-- The place of a local is new before its assignment, and passed after it. -/
theorem Own.assigns {index : Nat} {value : Expr} {tee : Bool} {ty : Ty}
    (hset : Own params targets a b (.localSet index value tee ty)) (hparams : params ≤ index) :
    index ∉ a.places ∧ index ∈ b.places := by
  rcases hset.2 with ⟨hparam, -⟩ | ⟨-, hnew, rfl⟩
  · omega
  · exact ⟨hnew, .head _⟩

/-- An assignment is the first place of its local. -/
theorem WriteOnce.assigns {index : Nat} {value : Expr} {tee : Bool} {ty : Ty}
    (hset : WriteOnce params targets a [.localSet index value tee ty] b)
    (hparams : params ≤ index) :
    index ∉ a.places ∧ index ∈ b.places := by
  cases hset with | simple _ hchildren hown hnil =>
  cases hnil
  exact (hown.assigns hparams).imp_left fun hnew hmem => hnew (hchildren.places hmem)

/-- What spares some locals spares fewer of them. -/
theorem Spares.mono {locals locals' : List Nat} (hsub : locals ⊆ locals') {e : Expr}
    (he : e.All (Spares params locals')) : e.All (Spares params locals) :=
  he.mono fun _ hx index value tee ty heq =>
    (hx index value tee ty heq).imp_right fun hnot hmem => hnot (hsub hmem)

/-- A node spares the locals that were assigned before it in the text. -/
theorem Own.spares {e : Expr} (he : Own params targets a b e) : Spares params a.places e := by
  rintro index value tee ty rfl
  rcases he.2 with ⟨hlt, -⟩ | ⟨-, hnot, -⟩
  · exact .inl hlt
  · exact .inr hnot

/-- No local is assigned for which a place was passed before. -/
theorem WriteOnce.spares (hes : WriteOnce params targets a es b) :
    ∀ e ∈ es, e.All (Spares params a.places) := by
  induction hes with
  | nil => nofun
  | @simple _ a a₁ a₂ _ e rest he hchildren hown hrest ihchildren ihrest =>
    have hsub := hchildren.places
    refine List.forall_mem_cons.2 ⟨.node ?_ ihchildren, fun x hx => ?_⟩
    · exact fun index value tee ty heq =>
        (hown.spares index value tee ty heq).imp_right fun hnot hmem => hnot (hsub hmem)
    · exact Spares.mono (fun i hi => hown.places (hsub hi)) (ihrest x hx)
  | @block _ a _ _ label children rest ty _ hchildren _ hrest ihchildren ihrest =>
    refine List.forall_mem_cons.2 ⟨.node nofun ihchildren, fun x hx => ?_⟩
    exact Spares.mono hchildren.places (ihrest x hx)
  | @ite _ a _ _ _ _ condition ifTrue ifFalse ty rest _ hcondition htrue hfalse _ hrest
      ihcondition ihtrue ihfalse ihrest =>
    have hsub := hcondition.places
    have hsub₂ := fun i hi => htrue.places (hsub (a := i) hi)
    refine List.forall_mem_cons.2 ⟨.node nofun ?_, fun x hx => ?_⟩
    · refine List.forall_mem_cons.2 ⟨ihcondition _ (.head _), List.forall_mem_cons.2 ⟨?_, ?_⟩⟩
      · exact Spares.mono hsub (ihtrue _ (.head _))
      · exact fun x hx => Spares.mono hsub₂ (ihfalse x hx)
    · exact Spares.mono (fun i hi => hfalse.places (hsub₂ i hi)) (ihrest x hx)
  | @loop _ a _ _ label body ty rest hbody hrest ihbody ihrest =>
    refine List.forall_mem_cons.2 ⟨.node nofun ihbody, fun x hx => ?_⟩
    exact Spares.mono hbody.places (ihrest x hx)

/-- What spares a local does not assign it. -/
theorem Spares.ne {locals : List Nat} {e : Expr} (he : Spares params locals e) {index : Nat}
    (hparams : params ≤ index) (hindex : index ∈ locals) :
    ∀ value tee ty, e ≠ .localSet index value tee ty := by
  intro value tee ty heq
  rcases he index value tee ty heq with hlt | hnot
  · omega
  · exact hnot hindex

/-- A branch finds assigned what is surely assigned at its target. -/
theorem Own.jump {e : Expr} (he : Own params targets a b e) {label : Label}
    (hlabel : label ∈ e.branchTargets) : targets label ⊆ a.surely := by
  cases e with
  | br target condition value =>
    cases List.mem_singleton.1 hlabel
    cases condition with
    | none => exact he.1
    | some condition => exact he.1
  | switch labels fallback condition value => exact he.1 label hlabel
  | _ => cases hlabel

/-- What does not assign a local leaves its value alone. -/
theorem act_keepsLocal {h : Host} {resolve : NameId → Nat} {index : Nat} {v : Value} {e : Expr}
    (he : ∀ value tee ty, e ≠ .localSet index value tee ty) (vs : List Value) :
    Keeps (fun w : World h => w.locals index = v) (e.act h resolve vs) := by
  have hperform : ∀ effect,
      Keeps (fun w : World h => w.locals index = v) (Run.perform effect : Run h Label Value) := by
    intro effect w hw
    have hanswer : Keeps (fun w : World h => w.locals index = v)
        (Run.ofExcept (h.perform effect w.store).1 : Run h Label Value) := .ofExcept
    exact hanswer _ hw
  unfold Expr.act
  split
  case h_2 i value tee ty v' =>
    have hne : index ≠ i := fun heq => he value tee ty (heq ▸ rfl)
    intro w hw
    show (w.setLocal i v').locals index = v
    simp [World.setLocal, hne, hw]
  all_goals first
    | exact fun w hw => hw
    | exact (hperform _).bind fun _ => .pure
    | exact Keeps.demand.bind fun _ => (hperform _).bind fun _ => .pure
    | exact .map .ofExcept
    | exact .map (hperform _)
    -- The conditional branches.
    | split <;> exact fun w hw => hw
    -- The branch table.
    | refine Keeps.demand.bind fun _ => ?_
      split <;> exact .throw

/-- Running nodes leaves the locals alone for which a place was passed before. -/
theorem WriteOnce.keepsLocal {h : Host} {resolve : NameId → Nat} {bound : Nat}
    (hes : WriteOnce params targets a es b) {index : Nat} {v : Value} (hparams : params ≤ index)
    (hindex : index ∈ a.places) :
    ∀ e ∈ es, Keeps (fun w : World h => w.locals index = v) (e.eval h resolve bound) := by
  intro e he
  refine Expr.eval_keeps ((hes.spares e he).mono fun x hx vs => ?_)
  exact act_keepsLocal (hx.ne hparams hindex) vs

/-- A run of nodes leaves the locals alone that were assigned before them in the text. -/
theorem WriteOnce.locals_runAll {h : Host} {resolve : NameId → Nat} {bound : Nat}
    (hes : WriteOnce params targets a es b) {index : Nat} (hparams : params ≤ index)
    (hindex : index ∈ a.places) {w w' : World h}
    {r : Except (Exit Label) (List (Option Value))}
    (hrun : Expr.runAll h resolve bound es w = (r, w')) : w'.locals index = w.locals index :=
  (Expr.runAll_keeps (hes.keepsLocal hparams hindex)).after rfl hrun

/-- A node leaves the locals alone that were assigned before it in the text. -/
theorem WriteOnce.locals_eval {h : Host} {resolve : NameId → Nat} {bound : Nat} {e : Expr}
    (he : WriteOnce params targets a [e] b) {index : Nat} (hparams : params ≤ index)
    (hindex : index ∈ a.places) {w w' : World h} {r : Except (Exit Label) (Option Value)}
    (hrun : e.eval h resolve bound w = (r, w')) : w'.locals index = w.locals index :=
  (he.keepsLocal hparams hindex e (.head _)).after rfl hrun

end

section
variable {s : Surroundings} {targets : Label → List Nat} {a b : Assigned} {es : List Expr}

/-- Writing what does not assign a local leaves alone what is known of it. -/
theorem compose_keepsEntry {index : Nat} {known : Option Code}
    (hindex : s.function.params.length ≤ index) {e : Expr}
    (he : ∀ value tee ty, e ≠ .localSet index value tee ty) (cs : List Code) :
    Keeps (fun st => known? s st index = some known)
      (Walk.compose s.program (dialect s) e cs) := by
  unfold Walk.compose
  split
  case h_1 => exact localGet_keepsEntry hindex
  case h_2 i value tee ty c =>
    exact localSet_keepsEntry hindex (fun heq => he value tee ty (heq ▸ rfl)) c tee
  all_goals first
    | exact .pure
    | exact access_keepsEntry _ _ _
    | exact (access_keepsEntry _ _ _).bind fun _ => .pure

/-- Writing nodes leaves alone what is known of the locals for which a place was passed before. -/
theorem WriteOnce.keepsEntry (hes : WriteOnce s.function.params.length targets a es b)
    {index : Nat} {known : Option Code} (hparams : s.function.params.length ≤ index)
    (hindex : index ∈ a.places) :
    ∀ e ∈ es, Keeps (fun st => known? s st index = some known) (write s e) := by
  intro e he
  refine Walk.expr_keeps ((hes.spares e he).mono fun x hx cs => ?_)
  exact compose_keepsEntry hparams (hx.ne hparams hindex) cs

/-! ## What is known -/

/-- The locals are no parameters, and the walk knows something of each. -/
def Knows (s : Surroundings) (st : FrameState) (places : List Nat) : Prop :=
  ∀ index ∈ places, s.function.params.length ≤ index ∧ ∃ known, known? s st index = some known

/-- What is known of the locals in the first state is known in the second. -/
def Extends (s : Surroundings) (places : List Nat) (st st' : FrameState) : Prop :=
  ∀ index ∈ places, ∀ known, known? s st index = some known → known? s st' index = some known

/-- Writing nodes leaves alone what is known of the locals assigned before them. -/
theorem WriteOnce.extends_all (hes : WriteOnce s.function.params.length targets a es b)
    {st st' : FrameState} {cs : List Code} (hst : Knows s st a.places)
    (hwrite : writeAll s es st = (.ok cs, st')) : Extends s a.places st st' := by
  intro index hindex known hknown
  exact (Walk.exprs_keeps (hes.keepsEntry (hst index hindex).1 hindex)).after hknown hwrite

/-- What is known of places stays known where they are left alone. -/
theorem Knows.extend {st st' : FrameState} {places : List Nat} (hst : Knows s st places)
    (hextends : Extends s places st st') : Knows s st' places := by
  intro index hindex
  obtain ⟨hparams, known, hknown⟩ := hst index hindex
  exact ⟨hparams, known, hextends index hindex known hknown⟩

/-- Putting a node together leaves alone what is known of the locals assigned before it. -/
theorem Own.extends {e : Expr} (hown : Own s.function.params.length targets a b e)
    {st st' : FrameState} {codes : List Code} {c : Code} (hst : Knows s st a.places)
    (hcompose : Walk.compose s.program (dialect s) e codes st = (.ok c, st')) :
    Extends s a.places st st' := by
  intro index hindex known hknown
  have hparams := (hst index hindex).1
  exact (compose_keepsEntry hparams (hown.spares.ne hparams hindex) codes).after hknown hcompose

/-- When a node is put together, the place that it passes is known as well. -/
theorem Own.knows {e : Expr} (hown : Own s.function.params.length targets a b e)
    {st st₁ st' : FrameState} {codes : List Code} {c : Code} (hst : Knows s st₁ a.places)
    (hchildren : writeAll s e.children st = (.ok codes, st₁))
    (hcompose : Walk.compose s.program (dialect s) e codes st₁ = (.ok c, st')) :
    Knows s st' b.places := by
  have hst' := hst.extend (hown.extends hst hcompose)
  by_cases he : ∃ index value tee ty, e = .localSet index value tee ty
  · obtain ⟨index, value, tee, ty, rfl⟩ := he
    obtain ⟨d, st₂, cs, -, hnil, rfl⟩ := Walk.exprs_cons_ok hchildren
    cases hnil
    rcases hown.2 with ⟨hparam, rfl⟩ | ⟨hparams, hnew, rfl⟩
    · exact hst'
    · refine List.forall_mem_cons.2 ⟨⟨hparams, ?_⟩, hst'⟩
      rcases localSet_ok hparams hcompose with ⟨hentry, -⟩ | ⟨-, hentry, -⟩
      · exact ⟨none, hentry⟩
      · exact ⟨some d, hentry⟩
  · have he : ∀ index value tee ty, e ≠ .localSet index value tee ty :=
      fun index value tee ty heq => he ⟨index, value, tee, ty, heq⟩
    rw [hown.places_eq he]
    exact hst'

/-- After nodes have been written, something is known of every local for which a place was
passed. -/
theorem WriteOnce.knows (hes : WriteOnce s.function.params.length targets a es b)
    {st st' : FrameState} {cs : List Code} (hst : Knows s st a.places)
    (hwrite : writeAll s es st = (.ok cs, st')) : Knows s st' b.places := by
  induction hes generalizing st st' cs with
  | nil =>
    cases hwrite
    exact hst
  | simple he hchildren hown hrest ihchildren ihrest =>
    obtain ⟨c, st₂, cs, hwrite, hwrites, -⟩ := Walk.exprs_cons_ok hwrite
    obtain ⟨codes, st₁, hcodes, hcompose⟩ := Walk.simple_ok he hwrite
    exact ihrest (hown.knows (ihchildren hst hcodes) hcodes hcompose) hwrites
  | block _ _ _ ihchildren ihrest =>
    obtain ⟨c, st₁, cs, hwrite, hwrites, -⟩ := Walk.exprs_cons_ok hwrite
    obtain ⟨-, codes, hcodes⟩ := Walk.block_ok hwrite
    exact ihrest (ihchildren hst hcodes) hwrites
  | ite _ _ _ _ _ ihcondition ihtrue ihfalse ihrest =>
    obtain ⟨c, st₁, cs, hwrite, hwrites, -⟩ := Walk.exprs_cons_ok hwrite
    obtain ⟨-, c, st₁, t, st₂, fs, hc, ht, hfs⟩ := Walk.ite_ok hwrite
    have hst₁ := ihcondition hst (Walk.exprs_single hc)
    have hst₂ := ihtrue hst₁ (Walk.exprs_single ht)
    exact ihrest (ihfalse hst₂ hfs) hwrites
  | loop _ _ ihbody ihrest =>
    obtain ⟨c, st₁, cs, hwrite, hwrites, -⟩ := Walk.exprs_cons_ok hwrite
    obtain ⟨-, code, hcode⟩ := Walk.loop_ok hwrite
    exact ihrest (ihbody hst (Walk.exprs_single hcode)) hwrites

end

/-! ## Checking -/

section
variable (params : Nat)

/-- The locals assigned after a simple node, if it assigns and uses them as it should. -/
def scanNode (targets : Label → List Nat) (a : Assigned) : Expr → Option Assigned
  | .localGet index _ => if index < params ∨ index ∈ a.surely then some a else none
  | .localSet index _ tee ty =>
    if tee = (ty != .void) ∧ (index < params ∨ index ∉ a.places) then
      some (if index < params then a else ⟨index :: a.places, index :: a.surely⟩)
    else none
  | .br label _ _ => if targets label ⊆ a.surely then some a else none
  | .switch labels fallback _ _ =>
    if ∀ label ∈ labels ++ fallback.toList, targets label ⊆ a.surely then some a else none
  | _ => some a

/-- The locals assigned after a node, by means of those assigned after the nodes below it. After a
block with a label, those are surely assigned that were before it. -/
def scanStep (scan : (Label → List Nat) → Assigned → List Expr → Option Assigned)
    (targets : Label → List Nat) (a : Assigned) : Expr → Option Assigned
  | .block none children _ => scan targets a children
  | .block (some label) children _ => do
    let b ← scan (within (some label) a.surely targets) a children
    if a.surely ⊆ b.surely then some ⟨b.places, a.surely⟩ else none
  | .ite condition ifTrue ifFalse _ => do
    let a₁ ← scan targets a [condition]
    let a₂ ← scan targets a₁ [ifTrue]
    let a₃ ← scan targets ⟨a₂.places, a₁.surely⟩ ifFalse.toList
    some ⟨a₃.places, a₂.surely.filter (· ∈ a₃.surely)⟩
  | .loop label body _ => scan (within label a.surely targets) a [body]
  | e => do
    let b ← scan targets a e.children
    scanNode params targets b e

/-- The locals assigned after nodes that are nested to a depth of `n` at most, if each is assigned
in one place and on every way to its uses. -/
def scan : (n : Nat) → (Label → List Nat) → Assigned → List Expr → Option Assigned
  | _, _, a, [] => some a
  | 0, _, _, _ :: _ => none
  | n + 1, targets, a, e :: rest => do
    let b ← scanStep params (scan n) targets a e
    scan n targets b rest

end

section
variable {params : Nat} {targets : Label → List Nat} {a b : Assigned}

/-- A node that the scan lets pass has the place it should have. -/
theorem scanNode_own {e : Expr} (he : scanNode params targets a e = some b) :
    Own params targets a b e := by
  cases e with
  | localGet index ty =>
    simp only [scanNode, Option.ite_none_right_eq_some, Option.some.injEq] at he
    obtain ⟨hassigned, rfl⟩ := he
    exact ⟨hassigned, rfl⟩
  | localSet index value tee ty =>
    simp only [scanNode, Option.ite_none_right_eq_some, Option.some.injEq] at he
    obtain ⟨⟨htee, hplace⟩, rfl⟩ := he
    refine ⟨htee, ?_⟩
    by_cases hparam : index < params
    · exact .inl ⟨hparam, by simp [hparam]⟩
    · exact .inr ⟨Nat.not_lt.1 hparam, hplace.resolve_left hparam, by simp [hparam]⟩
  | br label condition value =>
    simp only [scanNode, Option.ite_none_right_eq_some, Option.some.injEq] at he
    obtain ⟨htarget, rfl⟩ := he
    cases condition with
    | none => exact ⟨htarget, rfl⟩
    | some condition => exact ⟨htarget, rfl⟩
  | switch labels fallback condition value =>
    simp only [scanNode, Option.ite_none_right_eq_some, Option.some.injEq] at he
    obtain ⟨htargets, rfl⟩ := he
    exact ⟨htargets, rfl⟩
  | _ =>
    cases he
    rfl

/-- Nodes that pass the scan write their locals once. -/
theorem scan_once {n : Nat} {es : List Expr} (hes : scan params n targets a es = some b) :
    WriteOnce params targets a es b := by
  induction n generalizing targets a b es with
  | zero =>
    cases es with
    | nil =>
      cases hes
      exact .nil
    | cons => cases hes
  | succ n ih =>
    cases es with
    | nil =>
      cases hes
      exact .nil
    | cons e rest =>
      obtain ⟨c, he, hrest⟩ := Option.bind_eq_some_iff.1 hes
      cases e with
      | block label children ty =>
        cases label with
        | none => exact .block (ih he) (List.Subset.refl _) (ih hrest)
        | some label =>
          obtain ⟨b', hchildren, hb⟩ := Option.bind_eq_some_iff.1 he
          simp only [Option.ite_none_right_eq_some, Option.some.injEq] at hb
          obtain ⟨hsurely, rfl⟩ := hb
          exact .block (ih hchildren) hsurely (ih hrest)
      | ite condition ifTrue ifFalse ty =>
        obtain ⟨a₁, hcondition, he⟩ := Option.bind_eq_some_iff.1 he
        obtain ⟨a₂, htrue, he⟩ := Option.bind_eq_some_iff.1 he
        obtain ⟨a₃, hfalse, he⟩ := Option.bind_eq_some_iff.1 he
        cases he
        refine .ite (ih hcondition) (ih htrue) (ih hfalse) ⟨?_, ?_⟩ (ih hrest)
        · exact fun i hi => (List.mem_filter.1 hi).1
        · exact fun i hi => by simpa using (List.mem_filter.1 hi).2
      | loop label body ty => exact .loop (ih he) (ih hrest)
      | _ =>
        obtain ⟨b', hchildren, hown⟩ := Option.bind_eq_some_iff.1 he
        exact .simple rfl (ih hchildren) (scanNode_own hown) (ih hrest)

end

end Framed

end WasmLift
