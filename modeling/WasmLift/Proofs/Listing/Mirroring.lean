import WasmLift.Proofs.Listing.Effects
import WasmLift.Proofs.Propagation.Steps

/-!
# Pseudocode that mirrors a tree

The code that a tree is written as has the shape of the tree, except where a value without effects
takes the place of a node (`Code.Mirrors`): a recorded value for a local, an address in the frame
for a sum, a slot for an access. A dialect is transparent (`Dialect.Transparent`) if its steps are
of this kind, and then every tree is written as code that mirrors it (`Walk.expr_mirrors`). So what
the nodes contribute can be compared node by node (`Code.Mirrors.gather`). Both dialects are
transparent: the plain one prints every effect, and that of unoptimized functions leaves out
assignments to locals, and to the stack pointer with all that is in the value.
-/

namespace WasmLift

/-- How many of its operands, the first ones, are printed where they run on one outcome of a
condition only: the arms of a choice, and the value of a conditional jump. -/
def Code.guarded : Code → Nat
  | .select _ _ _ => 2
  | .br _ (some _) (some _) => 1
  | _ => 0

/-- How many of its children, the first ones, run before a condition decides what becomes of them:
the arms of a choice, and the value that a conditional branch carries. -/
def Expr.guarded : Expr → Nat
  | .select _ _ _ _ => 2
  | .br _ (some _) (some _) => 1
  | _ => 0

open Walk (Arrival arrivals)

namespace Code

/-- No child of a node that is printed as an assignment is guarded. -/
theorem StandsFor.guarded {σ : Type} {p : Program} {d : Dialect σ} {target c : Code} {a : Arrival σ}
    (h : (Code.assign target c).StandsFor p d a) : a.node.guarded = 0 := by
  obtain ⟨node, state⟩ := a
  obtain ⟨cs, -, henacts⟩ := h
  cases henacts <;> rfl

section
variable {σ : Type} (p : Program) (d : Dialect σ) (hidden : Option Nat) (mute : Expr → Prop)

/-- The node is of the same kind as the node that the walk comes to, which is not left out. -/
structure Counterpart (c : Code) (a : Arrival σ) : Prop where
  shown : a.node.assigns hidden = false
  effect : c.isEffect = a.node.isEffect
  stands : a.node.isEffect = true → c.StandsFor p d a
  guarded : c.guarded = a.node.guarded

/-- A value without effects can take the place of the node. -/
structure Replaceable (e : Expr) : Prop where
  shown : e.assigns hidden = false
  effect : e.isEffect = true → mute e
  guarded : e.guarded = 0

/-- The code is what a tree is written as where the walk comes to it. An assignment to the hidden
global prints nothing. -/
inductive Mirrors : Code → Arrival σ → Prop where
  | node {c : Code} {a : Arrival σ} (own : c.Counterpart p d hidden a)
      (length : c.operands.length = (a.below p d).length)
      (operands : ∀ {x y}, (x, y) ∈ c.operands.zip (a.below p d) → Mirrors x y) : Mirrors c a
  /-- The statements of a block that print nothing are left out. -/
  | block {label : Option Label} {codes : List Code} {children : List Expr} {ty : Ty} {st : σ}
      (length : codes.length = (arrivals p d children st).length)
      (written : ∀ {x y}, (x, y) ∈ codes.zip (arrivals p d children st) → Mirrors x y) :
      Mirrors (.block label (codes.filter (!·.isNop))) ⟨.block label children ty, st⟩
  /-- A variable is assigned the last of the operands, and the others have no effects. -/
  | assign {target c : Code} {a : Arrival σ} {codes : List Code}
      (shown : a.node.assigns hidden = false) (stands : (Code.assign target c).StandsFor p d a)
      (isVariable : target.hasEffects = false) (unused : ∀ x ∈ codes, x.hasEffects = false)
      (length : (codes ++ [c]).length = (a.below p d).length)
      (written : ∀ {x y}, (x, y) ∈ (codes ++ [c]).zip (a.below p d) → Mirrors x y) :
      Mirrors (.assign target c) a
  | store {b c : Code} {address value : Expr} {arg : MemArg} {st st' : σ}
      (stands :
        (Code.assign (.deref b arg value.ty) c).StandsFor p d ⟨.store address value arg, st⟩)
      (located : Mirrors b ⟨address, st⟩) (valued : Mirrors c ⟨value, st'⟩)
      (after : st' = (Walk.expr p d address st).2) :
      Mirrors (.assign (.deref b arg value.ty) c) ⟨.store address value arg, st⟩
  | drop {c : Code} {e : Expr} {st : σ} (valued : Mirrors c ⟨e, st⟩) : Mirrors c ⟨.drop e, st⟩
  /-- A value without effects stands for operands without effects. -/
  | replaced {c : Code} {a : Arrival σ} {codes : List Code} (own : Replaceable hidden mute a.node)
      (pure : c.hasEffects = false) (unused : ∀ x ∈ codes, x.hasEffects = false)
      (length : codes.length = (a.below p d).length)
      (written : ∀ {x y}, (x, y) ∈ codes.zip (a.below p d) → Mirrors x y) : Mirrors c a
  | hidden {index : Nat} {value : Expr} {st : σ} (assigns : hidden = some index) :
      Mirrors .nop ⟨.globalSet index value, st⟩

/-- What is gathered from code and from the arrivals of the walk can be compared node by node. -/
structure Comparable (gc : Code → List Code) (ga : Arrival σ → List (Arrival σ)) : Prop where
  node : ∀ {c a}, c.Counterpart p d hidden a →
    List.Forall₂ (Mirrors p d hidden mute) c.operands (a.below p d) →
    Echoes p d mute (gc c) (ga a)
  assign : ∀ {target c a}, (Code.assign target c).StandsFor p d a →
    Echoes p d mute (gc (.assign target c)) (ga a)
  replaced : ∀ {a}, Replaceable hidden mute a.node → Echoes p d mute [] (ga a)
  pure : ∀ {c : Code}, c.hasEffects = false → gc c = []
  deref : ∀ b arg ty, gc (.deref b arg ty) = []
  block : ∀ label children, gc (.block label children) = []

end

section
variable {σ : Type} {p : Program} {d : Dialect σ} {hidden : Option Nat} {mute : Expr → Prop}
  {c : Code} {a : Arrival σ}

theorem Mirrors.ofOperands (own : c.Counterpart p d hidden a)
    (h : List.Forall₂ (Mirrors p d hidden mute) c.operands (a.below p d)) :
    Mirrors p d hidden mute c a :=
  .node own h.length_eq (List.forall₂_iff_zip.1 h).2

theorem Mirrors.ofAssign {target : Code} (codes : List Code) (shown : a.node.assigns hidden = false)
    (stands : (Code.assign target c).StandsFor p d a) (isVariable : target.hasEffects = false)
    (unused : ∀ x ∈ codes, x.hasEffects = false)
    (h : List.Forall₂ (Mirrors p d hidden mute) (codes ++ [c]) (a.below p d)) :
    Mirrors p d hidden mute (.assign target c) a :=
  .assign shown stands isVariable unused h.length_eq (List.forall₂_iff_zip.1 h).2

variable {gc : Code → List Code} {ga : Arrival σ → List (Arrival σ)}

theorem Comparable.unused (hg : Comparable p d hidden mute gc ga) {codes : List Code}
    (h : ∀ x ∈ codes, x.hasEffects = false) : codes.flatMap (gather gc) = [] :=
  List.flatMap_eq_nil_iff.2 fun x hx => gather_of_pure (fun _ => hg.pure) (h x hx)

theorem Comparable.filter_nop (hg : Comparable p d hidden mute gc ga) (codes : List Code) :
    (codes.filter (!·.isNop)).flatMap (gather gc) = codes.flatMap (gather gc) := by
  induction codes with
  | nil => rfl
  | cons c rest ih =>
    cases hnop : c.isNop with
    | false =>
      rw [List.filter_cons_of_pos (by simp [hnop]), List.flatMap_cons, List.flatMap_cons, ih]
    | true =>
      have hpure : c.hasEffects = false := by
        cases c with
        | nop => rfl
        | _ => cases hnop
      rw [List.filter_cons_of_neg (by simp [hnop]), List.flatMap_cons,
        gather_of_pure (fun _ => hg.pure) hpure, ih]
      rfl

/-- What the nodes that the walk comes to contribute, those of the code do. -/
theorem Mirrors.gather (h : Mirrors p d hidden mute c a)
    (hg : Comparable p d hidden mute gc ga) :
    Echoes p d mute (c.gather gc) (a.gather p d hidden ga) := by
  have hpure {c : Code} (hc : c.hasEffects = false) : c.gather gc = [] :=
    gather_of_pure (fun _ => hg.pure) hc
  induction h with
  | node own length operands ih =>
    rw [gather_eq, Arrival.gather_eq _ own.shown]
    have hown := hg.node own (List.forall₂_iff_zip.2 ⟨length, operands⟩)
    exact (Echoes.flatMap (List.forall₂_iff_zip.2 ⟨length, ih⟩)).append hown
  | @block label codes children ty st length _ ih =>
    have hown : Echoes p d mute [] (ga ⟨.block label children ty, st⟩) :=
      hg.replaced ⟨rfl, by rintro ⟨⟩, rfl⟩
    have hchildren := Echoes.flatMap (List.forall₂_iff_zip.2 ⟨length, ih⟩)
    rw [← hg.filter_nop] at hchildren
    rw [gather_eq, Arrival.gather_eq _ rfl, hg.block]
    exact hchildren.append hown
  | @assign target c a codes shown stands isVariable unused length _ ih =>
    have hchildren := Echoes.flatMap (List.forall₂_iff_zip.2 ⟨length, ih⟩)
    rw [List.flatMap_append, hg.unused unused] at hchildren
    rw [gather_eq, Arrival.gather_eq _ shown]
    refine Echoes.append ?_ (hg.assign stands)
    show Echoes p d mute ([target, c].flatMap (Code.gather gc)) _
    rw [List.flatMap_cons, hpure isVariable]
    exact hchildren
  | @store b c address value arg st st' stands _ _ after ihAddress ihValue =>
    subst after
    rw [gather_eq, Arrival.gather_eq _ rfl]
    refine Echoes.append ?_ (hg.assign stands)
    show Echoes p d mute ([deref b arg value.ty, c].flatMap (Code.gather gc))
      ((arrivals p d [address, value] st).flatMap (Arrival.gather p d hidden ga))
    have htarget : (deref b arg value.ty).gather gc = b.gather gc := by
      rw [gather_eq, hg.deref, List.append_nil]
      exact List.flatMap_singleton ..
    simp only [arrivals, List.flatMap_cons, List.flatMap_nil, List.append_nil, htarget]
    exact ihAddress.append ihValue
  | @drop c e st _ ih =>
    have hown : Echoes p d mute [] (ga ⟨.drop e, st⟩) := hg.replaced ⟨rfl, by rintro ⟨⟩, rfl⟩
    rw [Arrival.gather_eq _ rfl]
    simpa [Arrival.below, arrivals, Expr.children] using ih.append hown
  | replaced own pure unused length _ ih =>
    have hchildren := Echoes.flatMap (List.forall₂_iff_zip.2 ⟨length, ih⟩)
    rw [hg.unused unused] at hchildren
    rw [hpure pure, Arrival.gather_eq _ own.shown]
    exact hchildren.append (hg.replaced own)
  | @hidden index value st assigns =>
    have hnone : (Arrival.mk (.globalSet index value) st).visits p d hidden = [] := by
      rw [Arrival.visits_eq, if_pos (by simp [Expr.assigns, assigns])]
    rw [hpure rfl, Arrival.gather, hnone]
    exact .nil

end

end Code

/-! ## The walk -/

open Code

/-- Where the dialect puts a value in place of a node, the value has no effects, and neither has any
operand that is not printed; only assignments to the hidden global lose what they are given. -/
structure Dialect.Transparent {σ : Type} (P : σ → Prop) (p : Program) (hidden : Option Nat)
    (mute : Expr → Prop) (d : Dialect σ) : Prop where
  localGet : ∀ {index st c st'}, P st → d.localGet index st = (.ok c, st') →
    P st' ∧ c.hasEffects = false
  localSet : ∀ {index value tee st c st'}, P st → d.localSet index value tee st = (.ok c, st') →
    P st' ∧ ((c = .assign (.param index) value ∨ c = .assign (.localVar index) value) ∨
      (c.hasEffects = false ∧ value.hasEffects = false ∧
        ∀ e tee ty, mute (.localSet index e tee ty)))
  globalGet : ∀ index, (d.globalGet index).hasEffects = false
  globalSet : ∀ index value, d.globalSet index value =
    if hidden = some index then .nop else .assign (.globalVar (Walk.globalText p index)) value
  const : ∀ value, (d.const value).hasEffects = false
  binary : ∀ op left right, d.binary op left right = .binary op left right ∨
    ((d.binary op left right).hasEffects = false ∧ left.hasEffects = false ∧
      right.hasEffects = false)
  load : ∀ {address arg ty st c st'}, P st → d.load address arg ty st = (.ok c, st') →
    P st' ∧ (c = .deref address arg ty ∨ (c.hasEffects = false ∧ address.hasEffects = false))
  store : ∀ {address value ty arg st c st'}, P st → d.store address value ty arg st = (.ok c, st') →
    P st' ∧ (c = .assign (.deref address arg ty) value ∨
      ∃ place, c = .assign (.slot place) value ∧ address.hasEffects = false ∧
        Framed.frameOffset? address arg.offset = some (place.offset + place.diff))

namespace Walk

section
variable {σ : Type} {P : σ → Prop} {p : Program} {hidden : Option Nat} {mute : Expr → Prop}
  {d : Dialect σ} {st st₁ st' : σ}

/-- A return mirrors the tree if what was written for its value does. -/
theorem ret_mirrors {value : Option Expr} {cs : List Code} {c : Code}
    (hlength : cs.length = (Expr.ret value).children.length)
    (hcs : List.Forall₂ (Mirrors p d hidden mute) cs (arrivals p d (Expr.ret value).children st))
    (hst₁ : P st₁) (hc : compose p d (.ret value) cs st₁ = (.ok c, st')) :
    P st' ∧ Mirrors p d hidden mute c ⟨.ret value, st⟩ := by
  cases value with
  | none =>
    obtain rfl := List.length_eq_zero_iff.1 hlength
    cases hc
    exact ⟨hst₁, .ofOperands ⟨rfl, rfl, by rintro ⟨⟩, rfl⟩ hcs⟩
  | some value =>
    obtain ⟨v, rfl⟩ := List.length_eq_one_iff.1 hlength
    cases hc
    exact ⟨hst₁, .ofOperands ⟨rfl, rfl, by rintro ⟨⟩, rfl⟩ hcs⟩

/-- A branch mirrors the tree if what was written for its value and condition does. -/
theorem br_mirrors {label : Label} {condition value : Option Expr} {cs : List Code} {c : Code}
    (hlength : cs.length = (Expr.br label condition value).children.length)
    (hcs : List.Forall₂ (Mirrors p d hidden mute) cs
      (arrivals p d (Expr.br label condition value).children st))
    (hst₁ : P st₁) (hc : compose p d (.br label condition value) cs st₁ = (.ok c, st')) :
    P st' ∧ Mirrors p d hidden mute c ⟨.br label condition value, st⟩ := by
  cases condition with
  | none =>
    cases value with
    | none =>
      obtain rfl := List.length_eq_zero_iff.1 hlength
      cases hc
      exact ⟨hst₁, .ofOperands ⟨rfl, rfl, by rintro ⟨⟩, rfl⟩ hcs⟩
    | some value =>
      obtain ⟨v, rfl⟩ := List.length_eq_one_iff.1 hlength
      cases hc
      exact ⟨hst₁, .ofOperands ⟨rfl, rfl, by rintro ⟨⟩, rfl⟩ hcs⟩
  | some condition =>
    cases value with
    | none =>
      obtain ⟨v, rfl⟩ := List.length_eq_one_iff.1 hlength
      cases hc
      exact ⟨hst₁, .ofOperands ⟨rfl, rfl, by rintro ⟨⟩, rfl⟩ hcs⟩
    | some value =>
      obtain ⟨v, c, rfl⟩ := List.length_eq_two.1 hlength
      cases hc
      exact ⟨hst₁, .ofOperands ⟨rfl, rfl, by rintro ⟨⟩, rfl⟩ hcs⟩

/-- A switch mirrors the tree if what was written for its value and condition does. -/
theorem switch_mirrors {labels : List Label} {fallback : Option Label} {condition : Expr}
    {value : Option Expr} {cs : List Code} {c : Code}
    (hlength : cs.length = (Expr.switch labels fallback condition value).children.length)
    (hcs : List.Forall₂ (Mirrors p d hidden mute) cs
      (arrivals p d (Expr.switch labels fallback condition value).children st))
    (hst₁ : P st₁)
    (hc : compose p d (.switch labels fallback condition value) cs st₁ = (.ok c, st')) :
    P st' ∧ Mirrors p d hidden mute c ⟨.switch labels fallback condition value, st⟩ := by
  cases value with
  | none =>
    obtain ⟨c, rfl⟩ := List.length_eq_one_iff.1 hlength
    cases hc
    exact ⟨hst₁, .ofOperands ⟨rfl, rfl, by rintro ⟨⟩, rfl⟩ hcs⟩
  | some value =>
    obtain ⟨v, c, rfl⟩ := List.length_eq_two.1 hlength
    cases hc
    exact ⟨hst₁, .ofOperands ⟨rfl, rfl, by rintro ⟨⟩, rfl⟩ hcs⟩

/-- A simple node is written as code that mirrors it if its children are. -/
theorem compose_mirrors (hd : d.Transparent P p hidden mute) {e : Expr} {cs : List Code} {c : Code}
    (hsimple : e.isSimple = true) (hwritten : exprs p d e.children st = (.ok cs, st₁))
    (hcs : List.Forall₂ (Mirrors p d hidden mute) cs (arrivals p d e.children st))
    (hst₁ : P st₁) (hc : compose p d e cs st₁ = (.ok c, st')) :
    P st' ∧ Mirrors p d hidden mute c ⟨e, st⟩ := by
  have hcodes : List.Forall₂ (IsWritten p d) cs (Arrival.below p d ⟨e, st⟩) :=
    exprs_isWritten hwritten
  have hlength : cs.length = e.children.length := hcs.length_eq.trans length_arrivals
  have stands {c : Code} (henacts : c.Enacts p e cs) : c.StandsFor p d ⟨e, st⟩ :=
    ⟨cs, hcodes, henacts⟩
  have replaced (own : Replaceable hidden mute e) (pure : c.hasEffects = false)
      (unused : ∀ x ∈ cs, x.hasEffects = false) : Mirrors p d hidden mute c ⟨e, st⟩ :=
    .replaced own pure unused hcs.length_eq (List.forall₂_iff_zip.1 hcs).2
  cases e with
  | block | ite | loop => cases hsimple
  | localGet index ty =>
    obtain rfl := List.length_eq_zero_iff.1 hlength
    obtain ⟨hst', hpure⟩ := hd.localGet hst₁ hc
    exact ⟨hst', replaced ⟨rfl, by rintro ⟨⟩, rfl⟩ hpure (List.forall_mem_nil _)⟩
  | localSet index value tee ty =>
    obtain ⟨v, rfl⟩ := List.length_eq_one_iff.1 hlength
    obtain ⟨hst', hassign | ⟨hpure, hv, hmute⟩⟩ := hd.localSet hst₁ hc
    · refine ⟨hst', ?_⟩
      obtain rfl | rfl := hassign
      · exact .ofAssign [] rfl (stands .param) rfl (List.forall_mem_nil _) hcs
      · exact .ofAssign [] rfl (stands .localVar) rfl (List.forall_mem_nil _) hcs
    · exact ⟨hst', replaced ⟨rfl, fun _ => hmute _ _ _, rfl⟩ hpure (List.forall_mem_singleton.2 hv)⟩
  | globalGet index ty =>
    obtain rfl := List.length_eq_zero_iff.1 hlength
    cases hc
    exact ⟨hst₁, replaced ⟨rfl, by rintro ⟨⟩, rfl⟩ (hd.globalGet _) (List.forall_mem_nil _)⟩
  | globalSet index value =>
    obtain ⟨v, rfl⟩ := List.length_eq_one_iff.1 hlength
    cases hc
    refine ⟨hst₁, ?_⟩
    rw [hd.globalSet]
    split
    next hhidden => exact .hidden hhidden
    next hshown =>
      exact .ofAssign [] (decide_eq_false hshown) (stands .globalVar) rfl (List.forall_mem_nil _)
        hcs
  | call target args ty =>
    cases hc
    exact ⟨hst₁, .ofOperands ⟨rfl, rfl, fun _ => stands .call, rfl⟩ hcs⟩
  | callIndirect target args ty =>
    cases hc
    have hne : cs ≠ [] := by
      rintro rfl
      simp [Expr.children] at hlength
    have hoperands : cs.dropLast ++ [cs.getLast?.getD .nop] = cs := by
      rw [List.getLast?_eq_some_getLast hne]
      exact List.dropLast_append_getLast hne
    have hcall : (Code.callIndirect (cs.getLast?.getD .nop) cs.dropLast).StandsFor p d
        ⟨.callIndirect target args ty, st⟩ :=
      ⟨_, by rw [hoperands]; exact hcodes, .callIndirect⟩
    refine ⟨hst₁, .ofOperands ⟨rfl, rfl, fun _ => hcall, rfl⟩ ?_⟩
    show List.Forall₂ _ (cs.dropLast ++ [cs.getLast?.getD .nop]) _
    rw [hoperands]
    exact hcs
  | const value =>
    obtain rfl := List.length_eq_zero_iff.1 hlength
    cases hc
    exact ⟨hst₁, replaced ⟨rfl, by rintro ⟨⟩, rfl⟩ (hd.const _) (List.forall_mem_nil _)⟩
  | unary op value =>
    obtain ⟨v, rfl⟩ := List.length_eq_one_iff.1 hlength
    cases hc
    exact ⟨hst₁, .ofOperands ⟨rfl, rfl, by rintro ⟨⟩, rfl⟩ hcs⟩
  | binary op left right =>
    obtain ⟨l, r, rfl⟩ := List.length_eq_two.1 hlength
    cases hc
    refine ⟨hst₁, ?_⟩
    obtain heq | ⟨hpure, hl, hr⟩ := hd.binary op l r
    · rw [heq]
      exact .ofOperands ⟨rfl, rfl, by rintro ⟨⟩, rfl⟩ hcs
    · exact replaced ⟨rfl, by rintro ⟨⟩, rfl⟩ hpure (by simp [hl, hr])
  | select condition ifTrue ifFalse ty =>
    obtain ⟨t, f, c, rfl⟩ := List.length_eq_three.1 hlength
    cases hc
    exact ⟨hst₁, .ofOperands ⟨rfl, rfl, by rintro ⟨⟩, rfl⟩ hcs⟩
  | drop value =>
    obtain ⟨v, rfl⟩ := List.length_eq_one_iff.1 hlength
    cases hc
    cases hcs with
    | cons hv _ => exact ⟨hst₁, .drop hv⟩
  | ret value => exact ret_mirrors hlength hcs hst₁ hc
  | nop | unreachable | memorySize =>
    obtain rfl := List.length_eq_zero_iff.1 hlength
    cases hc
    exact ⟨hst₁, .ofOperands ⟨rfl, rfl, by rintro ⟨⟩, rfl⟩ hcs⟩
  | br label condition value => exact br_mirrors hlength hcs hst₁ hc
  | switch labels fallback condition value => exact switch_mirrors hlength hcs hst₁ hc
  | load address arg ty =>
    obtain ⟨a, rfl⟩ := List.length_eq_one_iff.1 hlength
    obtain ⟨hst', rfl | ⟨hpure, ha⟩⟩ := hd.load hst₁ hc
    · exact ⟨hst', .ofOperands ⟨rfl, rfl, by rintro ⟨⟩, rfl⟩ hcs⟩
    · exact ⟨hst', replaced ⟨rfl, by rintro ⟨⟩, rfl⟩ hpure (List.forall_mem_singleton.2 ha)⟩
  | store address value arg =>
    obtain ⟨a, v, rfl⟩ := List.length_eq_two.1 hlength
    obtain ⟨hst', rfl | ⟨place, rfl, ha, inFrame⟩⟩ := hd.store hst₁ hc
    · cases hcs with
      | cons ha hrest =>
        cases hrest with
        | cons hv _ => exact ⟨hst', .store (stands .deref) ha hv rfl⟩
    · exact ⟨hst', .ofAssign [a] rfl (stands (.slot inFrame)) rfl (List.forall_mem_singleton.2 ha)
        hcs⟩
  | memoryGrow delta =>
    obtain ⟨v, rfl⟩ := List.length_eq_one_iff.1 hlength
    cases hc
    exact ⟨hst₁, .ofOperands ⟨rfl, rfl, fun _ => stands .memoryGrow, rfl⟩ hcs⟩
  | memoryCopy target source length =>
    obtain ⟨t, s, l, rfl⟩ := List.length_eq_three.1 hlength
    cases hc
    exact ⟨hst₁, .ofOperands ⟨rfl, rfl, fun _ => stands .memoryCopy, rfl⟩ hcs⟩
  | memoryFill target value length =>
    obtain ⟨t, v, l, rfl⟩ := List.length_eq_three.1 hlength
    cases hc
    exact ⟨hst₁, .ofOperands ⟨rfl, rfl, fun _ => stands .memoryFill, rfl⟩ hcs⟩

theorem exprs_mirrors {es : List Expr} {cs : List Code}
    (hes : ∀ e ∈ es, ∀ {st st' c}, P st → expr p d e st = (.ok c, st') →
      P st' ∧ Mirrors p d hidden mute c ⟨e, st⟩)
    (hst : P st) (hcs : exprs p d es st = (.ok cs, st')) :
    P st' ∧ List.Forall₂ (Mirrors p d hidden mute) cs (arrivals p d es st) := by
  induction es generalizing st cs with
  | nil =>
    cases hcs
    exact ⟨hst, .nil⟩
  | cons e rest ih =>
    obtain ⟨c, st₁, cs, he, hrest, rfl⟩ := exprs_cons_ok hcs
    obtain ⟨hst₁, hc⟩ := hes e (.head _) hst he
    obtain ⟨hst', hcs⟩ := ih (fun e he => hes e (.tail _ he)) hst₁ hrest
    refine ⟨hst', .cons hc ?_⟩
    rw [he]
    exact hcs

/-- Every tree is written as code that mirrors it. -/
theorem expr_mirrors (hd : d.Transparent P p hidden mute) {e : Expr} {c : Code} (hst : P st)
    (hwrite : expr p d e st = (.ok c, st')) : P st' ∧ Mirrors p d hidden mute c ⟨e, st⟩ := by
  induction e using Expr.induct generalizing st c st' with
  | h e ih =>
  cases hsimple : e.isSimple with
  | true =>
    obtain ⟨codes, st₁, hcodes, hcompose⟩ := simple_ok hsimple hwrite
    obtain ⟨hst₁, hcs⟩ := exprs_mirrors ih hst hcodes
    exact compose_mirrors hd hsimple hcodes hcs hst₁ hcompose
  | false =>
    cases e with
    | block label children ty =>
      obtain ⟨nodes, st₁, hnodes, hpure⟩ := bind_ok hwrite
      cases hpure
      obtain ⟨codes, hcodes, rfl⟩ := statements_ok hnodes
      obtain ⟨hst', hcs⟩ := exprs_mirrors ih hst hcodes
      exact ⟨hst', .block hcs.length_eq (List.forall₂_iff_zip.1 hcs).2⟩
    | ite condition ifTrue ifFalse ty =>
      obtain ⟨c, st₁, hcondition, hrest⟩ := bind_ok hwrite
      obtain ⟨t, st₂, htrue, hrest⟩ := bind_ok hrest
      obtain ⟨f, st₃, hfalse, hpure⟩ := bind_ok hrest
      cases hpure
      have harm : exprs p d ifFalse.toList st₂ = (.ok f.toList, st') := by
        cases ifFalse with
        | none =>
          cases hfalse
          rfl
        | some ifFalse =>
          obtain ⟨node, st₄, hnode, hsome⟩ := bind_ok hfalse
          cases hsome
          exact exprs_single hnode
      have hcodes := exprs_cons hcondition (exprs_cons htrue harm)
      obtain ⟨hst', hcs⟩ := exprs_mirrors ih hst hcodes
      exact ⟨hst', .ofOperands ⟨rfl, rfl, by rintro ⟨⟩, rfl⟩ hcs⟩
    | loop label body ty =>
      obtain ⟨b, st₁, hbody, hpure⟩ := bind_ok hwrite
      cases hpure
      obtain ⟨hst', hb⟩ := ih body (.head _) hst hbody
      exact ⟨hst', .ofOperands ⟨rfl, rfl, by rintro ⟨⟩, rfl⟩ (.cons hb .nil)⟩
    | _ => cases hsimple

end

end Walk

/-! ## Both dialects -/

namespace Direct

variable {p : Program} {f : Function}

/-- In the plain dialect every effect is printed. -/
theorem dialect_transparent : (dialect p f).Transparent (fun _ => True) p none fun _ => False where
  localGet _ h := by
    refine ⟨trivial, ?_⟩
    obtain rfl | ⟨rfl, -⟩ := variableOf_cases h <;> rfl
  localSet _ h := by
    obtain ⟨target, st₁, htarget, hpure⟩ := bind_ok h
    cases hpure
    refine ⟨trivial, .inl ?_⟩
    obtain rfl | ⟨rfl, -⟩ := variableOf_cases htarget
    · exact .inl rfl
    · exact .inr rfl
  globalGet _ := rfl
  globalSet _ _ := rfl
  const _ := rfl
  binary _ _ _ := .inl rfl
  load _ h := by
    cases h
    exact ⟨trivial, .inl rfl⟩
  store _ h := by
    cases h
    exact ⟨trivial, .inl rfl⟩

end Direct

namespace Framed

variable {s : Surroundings}

/-- Every register that holds a node holds one without effects. -/
def Pure (st : FrameState) : Prop :=
  ∀ c, some c ∈ st.registers → c.hasEffects = false

theorem Pure.set {st : FrameState} (hst : Pure st) {slot : Nat} {value : Option Code}
    (hvalue : ∀ c ∈ value, c.hasEffects = false) {plain : List Nat} :
    Pure { st with plain := plain, registers := st.registers.set slot value } := by
  intro c hc
  rcases List.mem_or_eq_of_mem_set hc with hc | hc
  · exact hst c hc
  · exact hvalue c hc.symm

theorem hasEffects_of_frameOffset? {address : Code} {offset sum : Nat}
    (h : frameOffset? address offset = some sum) : address.hasEffects = false := by
  obtain ⟨k, hk, -⟩ := frameOffset?_some h
  exact hasEffects_of_distance? hk

/-- In the dialect of unoptimized functions, assignments to locals may print nothing, and those to
the stack pointer never print anything. -/
theorem dialect_transparent :
    (dialect s).Transparent Pure s.program s.stackPointer fun e => e.isLocalSet = true where
  localGet hst h := by
    cases localGet_cases h with
    | param | plain | unknown => exact ⟨hst, rfl⟩
    | recorded register => exact ⟨hst, hst _ register⟩
  localSet hst h := by
    cases localSet_cases h with
    | param => exact ⟨hst, .inl (.inl rfl)⟩
    | assigned => exact ⟨hst.set (by simp), .inl (.inr rfl)⟩
    | recorded pure =>
      refine ⟨hst.set (by simpa using pure), .inr ⟨?_, pure, fun _ _ _ => rfl⟩⟩
      split
      · exact pure
      · rfl
  globalGet index := by
    show (globalGet s index).hasEffects = false
    unfold globalGet
    split <;> rfl
  globalSet _ _ := rfl
  const _ := rfl
  binary op left right := by
    have hframe (hpure : (binary op left right).hasEffects = false) :
        (binary op left right).hasEffects = false ∧ left.hasEffects = false ∧
          right.hasEffects = false :=
      ⟨hpure, binary_operands hpure⟩
    rcases binary_cases op left right with heq | ⟨heq, -⟩ | ⟨_, _, _, _, _, -, -, heq, -⟩
    · exact .inl heq
    · exact .inr (hframe (by rw [heq]; rfl))
    · exact .inr (hframe (by rw [heq]; rfl))
  load hst h := by
    cases access_cases h with
    | slot inFrame => exact ⟨hst, .inr ⟨rfl, hasEffects_of_frameOffset? inFrame⟩⟩
    | deref => exact ⟨hst, .inl rfl⟩
  store hst h := by
    obtain ⟨target, haccess, rfl⟩ := store_cases h
    cases haccess with
    | slot inFrame placed =>
      refine ⟨hst, .inr ⟨_, rfl, hasEffects_of_frameOffset? inFrame, ?_⟩⟩
      rw [inFrame, FrameLayout.place_sum placed]
    | deref => exact ⟨hst, .inl rfl⟩

theorem initial_pure : Pure (initial s) := by
  intro c hc
  cases List.eq_of_mem_replicate hc

end Framed

end WasmLift
