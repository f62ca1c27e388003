import Mathlib.Data.List.Forall2
import WasmLift.Proofs.Propagation.Addresses
import WasmLift.Proofs.Propagation.WriteOnce

/-!
# Recorded values along a run

The invariant behind the propagation of recorded values. Where locals are written once, what is
recorded for a surely assigned local was worth the local's value when it was recorded, and the
variables it reads have not changed since (`Sure`). Every node keeps this (`WriteOnce.sound`),
whether a run goes on after the node or leaves it by a branch, provided that the points on the way
are `Proper`: a recorded value that is read is still worth the local, and the names on the page mean
what they were written for. All of it can be asked of some codes only, as long as these are closed
under taking parts (`Closed`).
-/

namespace WasmLift

namespace Framed

variable {h : Host}

/-! ## The invariant -/

/-- Constants and addresses in the frame count, and so do the parts of a code that counts. -/
structure Closed (Counts : Code → Prop) : Prop where
  const : ∀ v text, Counts (.const v text)
  address : ∀ {c k}, distance? c = some k → Counts c
  unary : ∀ {op c}, Counts (.unary op c) → Counts c
  binary : ∀ {op l r}, Counts (.binary op l r) → Counts l ∧ Counts r
  select : ∀ {c t e}, Counts (.select c t e) → Counts c ∧ Counts t ∧ Counts e
  deref : ∀ {c arg ty}, Counts (.deref c arg ty) → Counts c

/-- All codes are closed under taking parts. -/
theorem Closed.all : Closed fun _ => True :=
  ⟨fun _ _ => trivial, fun _ => trivial, fun _ => trivial, fun _ => ⟨trivial, trivial⟩,
    fun _ => ⟨trivial, trivial, trivial⟩, fun _ => trivial⟩

section
variable (s : Surroundings) (page : Page h) (resolve : NameId → Nat) (bound : Nat)
  (Counts : Code → Prop) (Seen : Nat → Code → World h → Prop)

/-- In some world that was seen when the code was recorded, it was worth what the local holds now,
if it counts, and its variables have not changed since. -/
def Trusted (index : Nat) (c : Code) (w : World h) : Prop :=
  ∃ w₀, Seen index c w₀ ∧ (Counts c → value s page w₀ c = some (w.locals index)) ∧
    ∀ i ∈ c.localVars, w₀.locals i = w.locals i

/-- What is recorded for a surely assigned local can be trusted. -/
structure Sure (places surely : List Nat) (p : Point h) : Prop where
  placed : surely ⊆ places
  trusted : ∀ index ∈ surely, ∀ c, known? s p.state index = some (some c) →
    c.hasEffects = false ∧ (∀ i ∈ c.localVars, i ∈ places ∧ known? s p.state i = some none) ∧
      Trusted s page Counts Seen index c p.world

/-- The names that a node is written with mean what the node gives: a global its value, the frame
base the sum it stands for, and a stack slot what is loaded from it. -/
def Named (p : Point h) : Expr → Prop
  | .globalGet index _ =>
    s.stackPointer ≠ some index → page.global (Walk.globalText s.program index) = index
  | .binary op left right =>
    ∀ v q, Passes s resolve bound (.binary op left right) p .stackBase (some v) q → v = page.base
  | .load address arg ty =>
    ∀ place v q, Passes s resolve bound (.load address arg ty) p (.slot place) (some v) q →
      page.slot place q.world.store.memory = some v
  | _ => True

/-- The names that count mean what the node gives. -/
def NamedFor (p : Point h) : Expr → Prop
  | .globalGet index _ =>
    Counts (.globalVar (Walk.globalText s.program index)) → s.stackPointer ≠ some index →
      page.global (Walk.globalText s.program index) = index
  | .binary op left right =>
    ∀ v q, Passes s resolve bound (.binary op left right) p .stackBase (some v) q → v = page.base
  | .load address arg ty =>
    ∀ place v q, Counts (.slot place) →
      Passes s resolve bound (.load address arg ty) p (.slot place) (some v) q →
      page.slot place q.world.store.memory = some v
  | _ => True

/-- What is asked of a point before a node: names mean what they should, a recorded value that
counts and is read is worth the local, and the world in which a value is recorded is one seen. -/
structure Proper (e : Expr) (p : Point h) : Prop where
  named : NamedFor s page resolve bound Counts p e
  read : ∀ index ty, e = .localGet index ty → s.function.params.length ≤ index →
    ∀ c, known? s p.state index = some (some c) → Trusted s page Counts Seen index c p.world →
      Counts c → value s page p.world c = some (p.world.locals index)
  seen : ∀ index e' tee ty, e = .localSet index e' tee ty → s.function.params.length ≤ index →
    ∀ c v q, Passes s resolve bound e' p c (some v) q → c.hasEffects = false →
      Seen index c q.world

/-- The worlds differ in locals other than parameters only. -/
structure Quiet (w w' : World h) : Prop where
  store : w.store = w'.store
  params : ∀ i, i < s.function.params.length → w.locals i = w'.locals i

/-- The code is worth the value, if it counts, and reads variables only that are known as such. -/
structure Worth (places : List Nat) (p : Point h) (c : Code) (v : Value) : Prop where
  vars : ∀ i ∈ c.localVars, i ∈ places ∧ known? s p.state i = some none
  value : Counts c → value s page p.world c = some v

end

section
variable {s : Surroundings} {page : Page h} {resolve : NameId → Nat} {bound : Nat}
  {Counts : Code → Prop} {Seen : Nat → Code → World h → Prop}
  {places places' surely : List Nat} {p q : Point h}

/-- Names that mean what they were written for do so for any codes. -/
theorem Named.namedFor {e : Expr} (he : Named s page resolve bound p e) :
    NamedFor s page resolve bound Counts p e := by
  cases e with
  | globalGet => exact fun _ => he
  | binary => exact he
  | load => exact fun place v q _ => he place v q
  | _ => trivial

/-- A world is quiet from itself. -/
theorem Quiet.refl (w : World h) : Quiet s w w := ⟨rfl, fun _ _ => rfl⟩

/-- What is quiet from one world to the next is so all along. -/
theorem Quiet.trans {w₁ w₂ w₃ : World h} (h₁ : Quiet s w₁ w₂) (h₂ : Quiet s w₂ w₃) :
    Quiet s w₁ w₃ :=
  ⟨h₁.store.trans h₂.store, fun i hi => (h₁.params i hi).trans (h₂.params i hi)⟩

/-- Where nothing changes, no inputs do. -/
theorem Quiet.sameInputs {w w' : World h} (hw : Quiet s w w') : SameInputs s w w' :=
  ⟨hw.params, fun _ _ => by rw [hw.store]⟩

/-- Trust outlasts a step that leaves alone the locals with a place and what is known of them. -/
theorem Sure.step (hp : Sure s page Counts Seen places surely p) (hsub : places ⊆ places')
    (hknows : Knows s p.state places) (hstate : Extends s places p.state q.state)
    (hlocals : ∀ i ∈ places, q.world.locals i = p.world.locals i) :
    Sure s page Counts Seen places' surely q := by
  refine ⟨fun i hi => hsub (hp.placed hi), fun index hindex c hc => ?_⟩
  have hplace := hp.placed hindex
  obtain ⟨-, known, hknown⟩ := hknows index hplace
  have hsame := hstate index hplace known hknown
  rw [hc] at hsame
  cases hsame
  obtain ⟨hpure, hvars, w₀, hseen, hvalue, hagree⟩ := hp.trusted index hindex c hknown
  refine ⟨hpure, fun i hi => ?_, w₀, hseen, ?_, fun i hi => ?_⟩
  · exact ⟨hsub (hvars i hi).1, hstate i (hvars i hi).1 none (hvars i hi).2⟩
  · rw [hlocals index hplace]
    exact hvalue
  · rw [hagree i hi, hlocals i (hvars i hi).1]

/-- What a code is worth outlasts such a step, if it is quiet too. -/
theorem Worth.step {c : Code} {v : Value} (hp : Worth s page Counts places p c v)
    (hsub : places ⊆ places') (hstate : Extends s places p.state q.state)
    (hlocals : ∀ i ∈ places, q.world.locals i = p.world.locals i)
    (hquiet : Quiet s p.world q.world) : Worth s page Counts places' q c v := by
  refine ⟨fun i hi => ?_, ?_⟩
  · obtain ⟨hplace, hentry⟩ := hp.vars i hi
    exact ⟨hsub hplace, hstate i hplace none hentry⟩
  · intro hc
    rw [← hp.value hc]
    have hkept : Kept s page p.world q.world c := hquiet.sameInputs.kept (.inr hquiet.store)
    exact (hkept.value_eq fun i hi => (hlocals i (hp.vars i hi).1).symm).symm

end

/-! ## Sound nodes -/

section
variable (s : Surroundings) (page : Page h) (resolve : NameId → Nat) (bound : Nat)
  (Counts : Code → Prop) (Seen : Nat → Code → World h → Prop) (targets : Label → List Nat)
  (a b : Assigned)

/-- Nodes keep trust: a run that goes on after them can trust what is recorded then, and one that
leaves them can at the target of its branch. Codes without effects are worth the values of their
nodes. -/
def SoundAll (es : List Expr) : Prop :=
  ∀ (p : Point h) (cs : List Code) (st : FrameState), Knows s p.state a.places →
    Sure s page Counts Seen a.places a.surely p →
    (∀ x z, Reaches s resolve bound es p x z → Proper s page resolve bound Counts Seen x z) →
    writeAll s es p.state = (.ok cs, st) →
    (∀ vs w, Expr.runAll h resolve bound es p.world = (.ok vs, w) →
      Sure s page Counts Seen b.places b.surely ⟨st, w⟩ ∧
      ((∀ c ∈ cs, c.hasEffects = false) → ∀ xs : List Value, vs = xs.map some →
        Quiet s p.world w ∧ List.Forall₂ (Worth s page Counts b.places ⟨st, w⟩) cs xs)) ∧
    ∀ label v w, Expr.runAll h resolve bound es p.world = (.error (.jump label v), w) →
      Sure s page Counts Seen b.places (targets label) ⟨st, w⟩

/-- A node keeps trust. -/
def SoundOne (e : Expr) : Prop :=
  ∀ (p : Point h) (c : Code) (st : FrameState), Knows s p.state a.places →
    Sure s page Counts Seen a.places a.surely p →
    (∀ x z, Reaches s resolve bound [e] p x z → Proper s page resolve bound Counts Seen x z) →
    write s e p.state = (.ok c, st) →
    (∀ v w, e.eval h resolve bound p.world = (.ok v, w) →
      Sure s page Counts Seen b.places b.surely ⟨st, w⟩ ∧
      (c.hasEffects = false → ∀ x, v = some x →
        Quiet s p.world w ∧ Worth s page Counts b.places ⟨st, w⟩ c x)) ∧
    ∀ label v w, e.eval h resolve bound p.world = (.error (.jump label v), w) →
      Sure s page Counts Seen b.places (targets label) ⟨st, w⟩

end

section
variable {s : Surroundings} {page : Page h} {resolve : NameId → Nat} {bound : Nat}
  {Counts : Code → Prop} {Seen : Nat → Code → World h → Prop} {targets : Label → List Nat}
  {a a₁ b : Assigned}

/-- No nodes are sound. -/
theorem SoundAll.nil : SoundAll s page resolve bound Counts Seen targets a a [] := by
  intro p cs st _ hsure _ hwrite
  cases hwrite
  refine ⟨fun vs w hrun => ?_, fun label v w hrun => ?_⟩
  · cases hrun
    refine ⟨hsure, fun _ xs hxs => ?_⟩
    cases xs with
    | nil => exact ⟨.refl _, .nil⟩
    | cons => cases hxs
  · cases hrun

/-- Nodes are sound one after the other. -/
theorem SoundAll.cons {e : Expr} {rest : List Expr}
    (honce : WriteOnce s.function.params.length targets a [e] a₁)
    (hrestOnce : WriteOnce s.function.params.length targets a₁ rest b)
    (he : SoundOne s page resolve bound Counts Seen targets a a₁ e)
    (hrest : SoundAll s page resolve bound Counts Seen targets a₁ b rest) :
    SoundAll s page resolve bound Counts Seen targets a b (e :: rest) := by
  intro p codes st hknows hsure hproper hall
  obtain ⟨c, st₁, cs, hwrite, hwrites, rfl⟩ := Walk.exprs_cons_ok hall
  have hknows₁ := honce.knows hknows (Walk.exprs_single hwrite)
  have hextends := hrestOnce.extends_all hknows₁ hwrites
  obtain ⟨hgoes, hleaves⟩ := he p c st₁ hknows hsure (fun x z hx => hproper x z (hx.weaken rfl))
    hwrite
  have hafter : ∀ v w, e.eval h resolve bound p.world = (.ok v, w) → _ := fun v w heval =>
    hrest ⟨st₁, w⟩ cs st hknows₁ (hgoes v w heval).1
      (fun x z hx => hproper x z (.later ⟨hwrite, heval⟩ hx)) hwrites
  refine ⟨fun vs w hrun => ?_, fun label v w hrun => ?_⟩
  · obtain ⟨v, w₁, vs, heval, hruns, rfl⟩ := Expr.runAll_cons_ok hrun
    obtain ⟨hsure, hworth⟩ := (hafter v w₁ heval).1 vs w hruns
    refine ⟨hsure, fun hpure xs hxs => ?_⟩
    cases xs with
    | nil => cases hxs
    | cons x xs =>
      cases hxs
      obtain ⟨hc, hcs⟩ := List.forall_mem_cons.1 hpure
      obtain ⟨hquiet, hworth₁⟩ := (hgoes _ w₁ heval).2 hc x rfl
      obtain ⟨hquiets, hworths⟩ := hworth hcs xs rfl
      refine ⟨hquiet.trans hquiets, .cons ?_ hworths⟩
      refine hworth₁.step hrestOnce.places hextends (fun i hi => ?_) hquiets
      exact hrestOnce.locals_runAll (hknows₁ i hi).1 hi hruns
  · rcases Expr.runAll_cons_error hrun with hjump | ⟨v₁, w₁, heval, hjump⟩
    · exact (hleaves label v w hjump).step hrestOnce.places hknows₁ hextends fun _ _ => rfl
    · exact (hafter v₁ w₁ heval).2 label v w hjump

/-! ## Constructs -/

/-- A list of one sound node makes the node sound. -/
theorem SoundAll.one {e : Expr} (he : SoundAll s page resolve bound Counts Seen targets a b [e]) :
    SoundOne s page resolve bound Counts Seen targets a b e := by
  intro p c st hknows hsure hproper hwrite
  obtain ⟨hgoes, hleaves⟩ := he p [c] st hknows hsure hproper (Walk.exprs_single hwrite)
  refine ⟨fun v w heval => ?_, fun label v w heval => hleaves label v w (bind_of_error heval _)⟩
  obtain ⟨hsure', hworth⟩ := hgoes [v] w (Expr.runAll_single heval)
  refine ⟨hsure', fun hpure x hx => ?_⟩
  obtain ⟨hquiet, hworths⟩ := hworth (by simpa [Code.hasEffects] using hpure) [x] (by simp [hx])
  cases hworths with | cons hworth _ => exact ⟨hquiet, hworth⟩

/-- What is sure of some locals is sure of fewer. -/
theorem Sure.weaken {places surely surely' : List Nat} {p : Point h}
    (hp : Sure s page Counts Seen places surely p) (hsub : surely' ⊆ surely) :
    Sure s page Counts Seen places surely' p :=
  ⟨fun _ hi => hp.placed (hsub hi), fun index hindex => hp.trusted index (hsub hindex)⟩

/-- A code with effects is not asked what it is worth. -/
theorem hasEffects_elim {c : Code} {P : Prop} (hc : c.hasEffects = true)
    (hpure : c.hasEffects = false) : P := by
  rw [hc] at hpure
  cases hpure

/-- A block is sound if its children are, with the locals that are sure where it is left. -/
theorem SoundOne.block {label : Option Label} {children : List Expr} {ty : Ty}
    {surely : List Nat} (hsurely : surely ⊆ a₁.surely)
    (hchildren : SoundAll s page resolve bound Counts Seen (within label surely targets) a a₁
      children) :
    SoundOne s page resolve bound Counts Seen targets a ⟨a₁.places, surely⟩
      (.block label children ty) := by
  intro p c st hknows hsure hproper hwrite
  obtain ⟨heffects, codes, hcodes⟩ := Walk.block_ok hwrite
  obtain ⟨hgoes, hleaves⟩ := hchildren p codes st hknows hsure
    (fun x z hx => hproper x z (.block hx)) hcodes
  refine ⟨fun v w hrun => ⟨?_, hasEffects_elim heffects⟩, fun l v w hrun => ?_⟩
  · obtain ⟨o, w₁, hrun, hsettle⟩ := bind_ok hrun
    cases Expr.settle_ok hsettle
    rcases Expr.catching_ok hrun with hend | ⟨target, hlabel, hjump⟩
    · obtain ⟨vs, hvs⟩ := Expr.statements_ok hend
      exact (hgoes vs w hvs).1.weaken hsurely
    · have htarget := hleaves target o w (Expr.statements_jump hjump)
      rwa [within, if_pos hlabel] at htarget
  · rcases bind_error hrun with hrun | ⟨o, w₁, -, hsettle⟩
    · obtain ⟨hjump, hlabel⟩ := Expr.catching_jump hrun
      have htarget := hleaves l v w (Expr.statements_jump hjump)
      rwa [within, if_neg hlabel] at htarget
    · exact absurd hsettle Expr.settle_jump

/-- A loop is sound if its body is, round by round. -/
theorem SoundOne.loop {label : Option Label} {body : Expr} {ty : Ty}
    (honce : WriteOnce s.function.params.length (within label a.surely targets) a [body] a₁)
    (hbody : SoundOne s page resolve bound Counts Seen (within label a.surely targets) a a₁ body) :
    SoundOne s page resolve bound Counts Seen targets a a₁ (.loop label body ty) := by
  intro p c st hknows hsure hproper hwrite
  obtain ⟨heffects, d, hd⟩ := Walk.loop_ok hwrite
  -- A restart finds the walk where it entered the loop, and what counted there as it was.
  have hrounds : ∀ w w₁, Expr.Restarts label (body.eval h resolve bound) w w₁ →
      Sure s page Counts Seen a.places a.surely ⟨p.state, w⟩ →
      (∀ x z, Reaches s resolve bound [.loop label body ty] ⟨p.state, w⟩ x z →
        Proper s page resolve bound Counts Seen x z) →
      Sure s page Counts Seen a.places a.surely ⟨p.state, w₁⟩ ∧
      ∀ x z, Reaches s resolve bound [.loop label body ty] ⟨p.state, w₁⟩ x z →
        Proper s page resolve bound Counts Seen x z := by
    intro w w₁ hrestarts
    induction hrestarts with
    | refl => exact fun hsure hproper => ⟨hsure, hproper⟩
    | again hlabel hjump _ ih =>
      intro hsure hproper
      subst hlabel
      refine ih (hsure.step (fun _ hi => hi) hknows (fun _ _ _ hknown => hknown) ?_)
        (fun x z hx => hproper x z (.again hjump hx))
      exact fun i hi => honce.locals_eval (hknows i hi).1 hi hjump
  have hround : ∀ w₁, Expr.Restarts label (body.eval h resolve bound) p.world w₁ → _ :=
    fun w₁ hrestarts =>
      have hentry := hrounds p.world w₁ hrestarts hsure hproper
      hbody ⟨p.state, w₁⟩ d st hknows hentry.1 (fun x z hx => hentry.2 x z (.body hx)) hd
  refine ⟨fun v w hrun => ⟨?_, hasEffects_elim heffects⟩, fun l v w hrun => ?_⟩
  · obtain ⟨o, w₁, hrun, hsettle⟩ := bind_ok hrun
    cases Expr.settle_ok hsettle
    obtain ⟨w₁, hrestarts, hend⟩ := Expr.looping_ok hrun
    exact ((hround w₁ hrestarts).1 o w hend).1
  · rcases bind_error hrun with hrun | ⟨o, w₁, -, hsettle⟩
    · obtain ⟨w₁, hrestarts, hjump, hlabel⟩ := Expr.looping_jump hrun
      have htarget := (hround w₁ hrestarts).2 l v w hjump
      rwa [within, if_neg hlabel] at htarget
    · exact absurd hsettle Expr.settle_jump

/-- A conditional is sound if its condition and both arms are. -/
theorem SoundOne.ite {a₂ a₃ : Assigned} {condition ifTrue : Expr} {ifFalse : Option Expr} {ty : Ty}
    {surely : List Nat}
    (hconditionOnce : WriteOnce s.function.params.length targets a [condition] a₁)
    (htrueOnce : WriteOnce s.function.params.length targets a₁ [ifTrue] a₂)
    (hfalseOnce : WriteOnce s.function.params.length targets ⟨a₂.places, a₁.surely⟩
      ifFalse.toList a₃)
    (hsurely : surely ⊆ a₂.surely ∧ surely ⊆ a₃.surely)
    (hcondition : SoundOne s page resolve bound Counts Seen targets a a₁ condition)
    (htrue : SoundOne s page resolve bound Counts Seen targets a₁ a₂ ifTrue)
    (hfalse : SoundAll s page resolve bound Counts Seen targets ⟨a₂.places, a₁.surely⟩ a₃
      ifFalse.toList) :
    SoundOne s page resolve bound Counts Seen targets a ⟨a₃.places, surely⟩
      (.ite condition ifTrue ifFalse ty) := by
  intro p c st hknows hsure hproper hwrite
  obtain ⟨heffects, cc, st₁, tc, st₂, fs, hcc, htc, hfs⟩ := Walk.ite_ok hwrite
  have hknows₁ := hconditionOnce.knows hknows (Walk.exprs_single hcc)
  have hknows₂ := htrueOnce.knows hknows₁ (Walk.exprs_single htc)
  have hextends₂ := htrueOnce.extends_all hknows₁ (Walk.exprs_single htc)
  have hextends₃ : Extends s a₂.places st₂ st := hfalseOnce.extends_all hknows₂ hfs
  obtain ⟨hgoes, hleaves⟩ := hcondition p cc st₁ hknows hsure
    (fun x z hx => hproper x z (.condition hx)) hcc
  -- The two ways on, from the world after the condition.
  have htrueWay : ∀ v w, condition.eval h resolve bound p.world = (.ok (some v), w) →
      v.holds = true → _ := fun v w heval hv =>
    htrue ⟨st₁, w⟩ tc st₂ hknows₁ (hgoes _ w heval).1
      (fun x z hx => hproper x z (.ifTrue ⟨hcc, heval⟩ hv hx)) htc
  have hfalseWay : ∀ v w, condition.eval h resolve bound p.world = (.ok (some v), w) →
      v.holds = false → _ := fun v w heval hv =>
    hfalse ⟨st₂, w⟩ fs st hknows₂
      ((hgoes _ w heval).1.step htrueOnce.places hknows₁ hextends₂ fun _ _ => rfl)
      (fun x z hx => hproper x z (.ifFalse (b := ⟨st₁, w⟩) ⟨hcc, heval⟩ hv htc hx)) hfs
  refine ⟨fun v w hrun => ⟨?_, hasEffects_elim heffects⟩, fun l v w hrun => ?_⟩
  · obtain ⟨cv, w₁, hcv, hrun⟩ := bind_ok hrun
    have heval := Expr.operand_ok hcv
    obtain ⟨o, w₂, hrun, hsettle⟩ := bind_ok hrun
    cases Expr.settle_ok hsettle
    split at hrun
    · next hv =>
      have hend := ((htrueWay cv w₁ heval hv).1 o w hrun).1
      refine Sure.weaken ?_ hsurely.1
      exact hend.step hfalseOnce.places hknows₂ hextends₃ fun _ _ => rfl
    · next hv =>
      rw [Bool.not_eq_true] at hv
      obtain ⟨vs, hvs⟩ := Expr.arm_ok hrun
      exact ((hfalseWay cv w₁ heval hv).1 vs w hvs).1.weaken hsurely.2
  · rcases bind_error hrun with hjump | ⟨cv, w₁, hcv, hrun⟩
    · have hend := hleaves l v w (Expr.operand_jump hjump)
      have hend := hend.step htrueOnce.places hknows₁ hextends₂ (q := ⟨st₂, w⟩) fun _ _ => rfl
      exact hend.step hfalseOnce.places hknows₂ hextends₃ fun _ _ => rfl
    · have heval := Expr.operand_ok hcv
      rcases bind_error hrun with hrun | ⟨o, w₂, -, hsettle⟩
      · split at hrun
        · next hv =>
          have hend := (htrueWay cv w₁ heval hv).2 l v w hrun
          exact hend.step hfalseOnce.places hknows₂ hextends₃ fun _ _ => rfl
        · next hv =>
          rw [Bool.not_eq_true] at hv
          exact (hfalseWay cv w₁ heval hv).2 l v w (Expr.arm_jump hrun)
      · exact absurd hsettle Expr.settle_jump

/-! ## Simple nodes -/

/-- A node after which a run goes on, other than an assignment, assigns nothing. -/
theorem Own.ok {e : Expr} (hown : Own s.function.params.length targets a b e)
    (hset : ∀ index value tee ty, e ≠ .localSet index value tee ty) {vs : List Value}
    {v : Option Value} {w w' : World h} (hact : e.act h resolve vs w = (.ok v, w')) : b = a := by
  cases e with
  | localSet index value tee ty => exact absurd rfl (hset index value tee ty)
  | localGet index ty => exact hown.2
  | br label condition value =>
    cases condition with
    | none => cases hact
    | some condition => exact hown.2
  | switch labels fallback condition value =>
    obtain ⟨c, w₁, -, hact⟩ := bind_ok hact
    cases hlabel : labels[c.asIndex]?.or fallback with
    | none =>
      rw [hlabel] at hact
      cases hact
    | some target =>
      rw [hlabel] at hact
      cases hact
  | ret value => cases hact
  | unreachable => cases vs <;> cases hact
  | _ => exact hown

/-- What a simple node itself does keeps trust. -/
theorem Own.sure {e : Expr} (hown : Own s.function.params.length targets a₁ b e) {p q : Point h}
    {codes : List Code} {c : Code} {vs : List Value} {v : Option Value} {st : FrameState}
    (hknows : Knows s p.state a₁.places) (hsure : Sure s page Counts Seen a₁.places a₁.surely p)
    (hcodes : writeAll s e.children st = (.ok codes, p.state))
    (hcompose : Walk.compose s.program (dialect s) e codes p.state = (.ok c, q.state))
    (hact : e.act h resolve vs p.world = (.ok v, q.world))
    (hseen : ∀ index value tee ty, e = .localSet index value tee ty →
      s.function.params.length ≤ index → ∀ d y, codes = [d] → vs = [y] → d.hasEffects = false →
        Seen index d p.world ∧ Worth s page Counts a₁.places p d y) :
    Sure s page Counts Seen b.places b.surely q := by
  have hextends := hown.extends hknows hcompose
  have hlocals : ∀ i ∈ a₁.places, q.world.locals i = p.world.locals i := fun i hi =>
    have hi' := (hknows i hi).1
    (act_keepsLocal (hown.spares.ne hi' hi) vs).after rfl hact
  have hold := hsure.step hown.places hknows hextends hlocals
  by_cases he : ∃ index value tee ty, e = .localSet index value tee ty
  · obtain ⟨index, value, tee, ty, rfl⟩ := he
    rcases hown.2 with ⟨hparam, rfl⟩ | ⟨hparams, hnew, rfl⟩
    · exact hold
    · refine ⟨?_, List.forall_mem_cons.2 ⟨fun d hd => ?_, hold.trusted⟩⟩
      · exact List.cons_subset_cons _ hsure.placed
      · obtain ⟨d', st₂, cs, -, hnil, rfl⟩ := Walk.exprs_cons_ok hcodes
        cases hnil
        -- Only the recorded code is left: a variable has no recorded code.
        rcases localSet_ok hparams hcompose with ⟨hentry, -⟩ | ⟨hpure, hentry, -⟩
        · rw [hentry] at hd
          cases hd
        · rw [hentry] at hd
          cases hd
          obtain ⟨y, rfl⟩ : ∃ y, vs = [y] := by
            rcases vs with _ | ⟨y, _ | ⟨z, vs⟩⟩
            · cases hact
            · exact ⟨y, rfl⟩
            · cases hact
          obtain ⟨hseen, hworth⟩ := hseen index value tee ty rfl hparams d y rfl rfl hpure
          have hworld : q.world = p.world.setLocal index y := (congrArg Prod.snd hact).symm
          refine ⟨hpure, fun i hi => ?_, p.world, hseen, ?_, fun i hi => ?_⟩
          · obtain ⟨hplace, hvar⟩ := hworth.vars i hi
            exact ⟨.tail _ hplace, hextends i hplace none hvar⟩
          · intro hcounts
            rw [hworth.value hcounts, hworld]
            simp [World.setLocal]
          · exact (hlocals i (hworth.vars i hi).1).symm
  · have he : ∀ index value tee ty, e ≠ .localSet index value tee ty :=
      fun index value tee ty heq => he ⟨index, value, tee, ty, heq⟩
    cases hown.ok he hact
    exact hold

/-- What an operation is written as is worth its result, if that holds of the frame base. -/
theorem binary_worth (hadds : h.AddsWords) (hclosed : Closed Counts) {places : List Nat}
    {p : Point h} {op : BinOp} {l r : Code} {x y z : Value} (hl : Worth s page Counts places p l y)
    (hr : Worth s page Counts places p r z)
    (hop : h.binary op y z = .ok x) (hbase : binary op l r = .stackBase → x = page.base) :
    Worth s page Counts places p (binary op l r) x := by
  rcases binary_cases op l r with hc | ⟨hc, -, -⟩ | ⟨_, a, k, v, _, rfl, hv, hc, hcases⟩
  · rw [hc]
    refine ⟨fun i hi => ?_, fun hcounts => ?_⟩
    · rcases List.mem_append.1 hi with hi | hi
      · exact hl.vars i hi
      · exact hr.vars i hi
    · obtain ⟨hleft, hright⟩ := hclosed.binary hcounts
      simp [value, hl.value hleft, hr.value hright, hop, Except.toOption]
  · rw [hbase hc, hc]
    exact ⟨List.forall_mem_nil _, fun _ => rfl⟩
  · have hoperands : Counts l ∧ Counts r := by
      rcases hcases with ⟨hl, rfl⟩ | ⟨rfl, hr⟩
      · exact ⟨hclosed.address hl, hclosed.const _ _⟩
      · exact ⟨hclosed.const _ _, hclosed.address hr⟩
    rw [sum_address hadds hv hcases (hl.value hoperands.1) (hr.value hoperands.2) hop, hc]
    exact ⟨List.forall_mem_nil _, fun _ => rfl⟩

/-- What a use of an assigned local is written as is worth the local, if that holds of what is
recorded for it. -/
theorem localGet_worth {places surely : List Nat} {p : Point h} {index : Nat} {c : Code}
    {st : FrameState} (hknows : Knows s p.state places)
    (hsure : Sure s page Counts Seen places surely p)
    (hassigned : index < s.function.params.length ∨ index ∈ surely)
    (hread : s.function.params.length ≤ index → ∀ d, known? s p.state index = some (some d) →
      Trusted s page Counts Seen index d p.world → Counts d →
        value s page p.world d = some (p.world.locals index))
    (hget : localGet s index p.state = (.ok c, st)) :
    st = p.state ∧ Worth s page Counts places p c (p.world.locals index) := by
  by_cases hparam : index < s.function.params.length
  · cases (localGet_param hparam).symm.trans hget
    exact ⟨rfl, List.forall_mem_nil _, fun _ => by simp [value, hparam]⟩
  · have hindex := hassigned.resolve_left hparam
    rw [Nat.not_lt] at hparam
    obtain ⟨-, known, hknown⟩ := hknows index (hsure.placed hindex)
    obtain ⟨rfl, rfl⟩ := localGet_known hparam hknown hget
    refine ⟨rfl, ?_⟩
    cases known with
    | none =>
      refine ⟨fun i hi => ?_, fun _ => rfl⟩
      cases List.mem_singleton.1 hi
      exact ⟨hsure.placed hindex, hknown⟩
    | some d =>
      obtain ⟨-, hvars, htrusted⟩ := hsure.trusted index hindex d hknown
      exact ⟨hvars, hread hparam d hknown htrusted⟩

/-- A code without effects that a simple node is written as is worth the value of the node. -/
theorem Own.worth (hadds : h.AddsWords) (hclosed : Closed Counts) {e : Expr}
    (he : e.isSimple = true) (hown : Own s.function.params.length targets a₁ b e) {p : Point h}
    {st₁ st : FrameState}
    {w₁ w : World h} {codes : List Code} {c : Code} {xs : List Value} {x : Value}
    (hknows : Knows s st₁ a₁.places) (hsure : Sure s page Counts Seen a₁.places a₁.surely ⟨st₁, w₁⟩)
    (hproper : Proper s page resolve bound Counts Seen e p)
    (hcodes : writeAll s e.children p.state = (.ok codes, st₁))
    (hxs : Expr.operands h resolve bound e.children p.world = (.ok xs, w₁))
    (hworth : (∀ d ∈ codes, d.hasEffects = false) →
      Quiet s p.world w₁ ∧ List.Forall₂ (Worth s page Counts a₁.places ⟨st₁, w₁⟩) codes xs)
    (hcompose : Walk.compose s.program (dialect s) e codes st₁ = (.ok c, st))
    (hact : e.act h resolve xs w₁ = (.ok (some x), w))
    (hpass : Passes s resolve bound e p c (some x) ⟨st, w⟩) (hpure : c.hasEffects = false) :
    Quiet s p.world w ∧ Worth s page Counts b.places ⟨st, w⟩ c x := by
  have hlength := Walk.exprs_length hcodes
  have hvalue : e.isValue = true := (Expr.eval_isSome e _ _ _ hpass.run).symm
  have hextends := hown.extends hknows hcompose
  cases e with
  | localGet index ty =>
    cases hcodes
    cases hxs
    obtain ⟨v, w₂, hget, hkeep⟩ := bind_ok hact
    cases hget
    obtain ⟨hkept, rfl⟩ := Prod.mk.inj hkeep
    obtain ⟨rfl, -⟩ := Expr.keep_some (Except.ok.inj hkept)
    obtain ⟨hassigned, rfl⟩ := hown
    obtain ⟨rfl, hworth⟩ :=
      localGet_worth hknows hsure hassigned (hproper.read index ty rfl) hcompose
    exact ⟨.refl _, hworth⟩
  | localSet index value tee ty =>
    obtain ⟨d, rfl⟩ := List.length_eq_one_iff.1 hlength
    rcases hown with ⟨htee, ⟨hparam, rfl⟩ | ⟨hparams, hnew, rfl⟩⟩
    · have hset : localSet s index d tee st₁ = (.ok (.assign (.param index) d), st₁) := by
        rw [localSet, if_pos hparam]
        rfl
      cases hset.symm.trans hcompose
      cases hpure
    · rcases localSet_ok hparams hcompose with ⟨-, rfl⟩ | ⟨hd, -, rfl⟩
      · cases hpure
      · obtain ⟨hquiet, hworths⟩ := hworth (by simpa using hd)
        obtain ⟨y, hy, rfl⟩ : ∃ y, Worth s page Counts a₁.places ⟨st₁, w₁⟩ d y ∧ xs = [y] := by
          cases hworths with | cons hy hnil => cases hnil; exact ⟨_, hy, rfl⟩
        obtain ⟨hkeep, rfl⟩ : ty.keep y = some x ∧ w = w₁.setLocal index y :=
          ⟨Except.ok.inj (congrArg Prod.fst hact), (congrArg Prod.snd hact).symm⟩
        obtain ⟨rfl, hty⟩ := Expr.keep_some hkeep
        have htee : tee = true := by simp [htee, hty]
        have hquiet₁ : Quiet s w₁ (w₁.setLocal index y) := by
          refine ⟨rfl, fun i hi => ?_⟩
          have hne : i ≠ index := by omega
          simp [World.setLocal, hne]
        rw [if_pos htee]
        refine ⟨hquiet.trans hquiet₁, hy.step (fun _ hi => .tail _ hi) hextends ?_ hquiet₁⟩
        intro i hi
        have hne : i ≠ index := fun heq => hnew (heq ▸ hi)
        simp [World.setLocal, hne]
  | globalGet index ty =>
    cases hcodes
    cases hxs
    cases hcompose
    cases hown
    obtain ⟨v, w₂, hget, hkeep⟩ := bind_ok hact
    obtain ⟨hget, rfl⟩ := Expr.perform_ok hget
    cases hget
    obtain ⟨hkept, rfl⟩ := Prod.mk.inj hkeep
    obtain ⟨rfl, -⟩ := Expr.keep_some (Except.ok.inj hkept)
    refine ⟨⟨rfl, fun _ _ => rfl⟩, ?_⟩
    show Worth s page Counts _ _ (globalGet s index) _
    unfold globalGet
    split
    · next hsp => exact ⟨List.forall_mem_nil _, fun _ => by simp [value, hsp, Host.perform]⟩
    · next hsp =>
      exact ⟨List.forall_mem_nil _, fun hcounts => by
        simp [value, hproper.named hcounts hsp, Host.perform]⟩
  | const v =>
    cases hcodes
    cases hxs
    cases hcompose
    cases hown
    cases hact
    exact ⟨.refl _, List.forall_mem_nil _, fun _ => rfl⟩
  | unary op operand =>
    obtain ⟨d, rfl⟩ := List.length_eq_one_iff.1 hlength
    cases hcompose
    cases hown
    obtain ⟨hquiet, hworths⟩ := hworth (by simpa [Code.hasEffects] using hpure)
    cases hworths with | cons hy hnil =>
    cases hnil
    obtain ⟨hop, rfl⟩ := Expr.ofExcept_ok (Expr.map_some_ok hact)
    refine ⟨hquiet, hy.vars, fun hcounts => ?_⟩
    simp [value, hy.value (hclosed.unary hcounts), hop, Except.toOption]
  | binary op left right =>
    obtain ⟨l, r, rfl⟩ := List.length_eq_two.1 hlength
    cases hcompose
    cases hown
    obtain ⟨hquiet, hworths⟩ := hworth (by simpa using binary_operands hpure)
    cases hworths with | cons hl hworths =>
    cases hworths with | cons hr hnil =>
    cases hnil
    obtain ⟨hop, rfl⟩ := Expr.ofExcept_ok (Expr.map_some_ok hact)
    refine ⟨hquiet, binary_worth hadds hclosed hl hr hop fun hc => ?_⟩
    rw [show (dialect s).binary op l r = .stackBase from hc] at hpass
    exact hproper.named x _ hpass
  | select condition ifTrue ifFalse ty =>
    obtain ⟨t, e, d, rfl⟩ := List.length_eq_three.1 hlength
    cases hcompose
    cases hown
    have hoperands : (d.hasEffects = false ∧ t.hasEffects = false) ∧ e.hasEffects = false := by
      simpa [Code.hasEffects] using hpure
    obtain ⟨hquiet, hworths⟩ := hworth (by simp [hoperands])
    cases hworths with | cons ht hworths =>
    cases hworths with | cons he hworths =>
    cases hworths with | cons hd hnil =>
    cases hnil
    obtain ⟨hkept, rfl⟩ := Prod.mk.inj hact
    obtain ⟨rfl, -⟩ := Expr.keep_some (Except.ok.inj hkept)
    refine ⟨hquiet, fun i hi => ?_, fun hcounts => ?_⟩
    · simp only [Code.localVars, List.mem_append] at hi
      rcases hi with (hi | hi) | hi
      · exact hd.vars i hi
      · exact ht.vars i hi
      · exact he.vars i hi
    · obtain ⟨hcondition, htrue, hfalse⟩ := hclosed.select hcounts
      simp [value, ht.value htrue, he.value hfalse, hd.value hcondition]
  | load address arg ty =>
    obtain ⟨d, rfl⟩ := List.length_eq_one_iff.1 hlength
    cases hown
    have hd : d.hasEffects = false := by
      rcases access_ok hcompose with rfl | ⟨hd, -⟩
      · exact hpure
      · exact hd
    obtain ⟨hquiet, hworths⟩ := hworth (by simpa using hd)
    cases hworths with | @cons _ y _ _ hy hnil =>
    cases hnil
    obtain ⟨v, w₂, hperform, hkeep⟩ := bind_ok hact
    obtain ⟨hanswer, rfl⟩ := Expr.perform_ok hperform
    have hload : h.load arg ty y w₁.store.memory = .ok v := hanswer
    obtain ⟨hkept, rfl⟩ := Prod.mk.inj hkeep
    obtain ⟨rfl, -⟩ := Expr.keep_some (Except.ok.inj hkept)
    refine ⟨hquiet.trans ⟨rfl, fun _ _ => rfl⟩, ?_⟩
    rcases access_ok hcompose with rfl | ⟨-, place, rfl⟩
    · have hy := hy.step (q := ⟨st, { w₁ with trace := .load arg ty y :: w₁.trace }⟩)
        (fun _ hi => hi) hextends (fun _ _ => rfl) ⟨rfl, fun _ _ => rfl⟩
      refine ⟨hy.vars, fun hcounts => ?_⟩
      simp [value, hy.value (hclosed.deref hcounts), hload, Host.perform, Except.toOption]
    · exact ⟨List.forall_mem_nil _, fun hcounts => hproper.named place v _ hcounts hpass⟩
  | memorySize =>
    cases hcodes
    cases hxs
    cases hcompose
    cases hown
    obtain ⟨hsize, rfl⟩ := Expr.perform_ok (Expr.map_some_ok hact)
    cases hsize
    exact ⟨⟨rfl, fun _ _ => rfl⟩, List.forall_mem_nil _, fun _ => rfl⟩
  | call target args ty =>
    cases hcompose
    cases hpure
  | callIndirect target args ty =>
    cases hcompose
    cases hpure
  | memoryGrow delta =>
    obtain ⟨d, rfl⟩ := List.length_eq_one_iff.1 hlength
    cases hcompose
    cases hpure
  | br label condition value =>
    cases condition with
    | none => cases hact
    | some condition =>
      cases value with
      | none => cases hvalue
      | some value =>
        obtain ⟨v, d, rfl⟩ := List.length_eq_two.1 hlength
        cases hcompose
        cases hpure
  | block | ite | loop => cases he
  | _ => cases hvalue

/-- A simple node is sound if its children are. -/
theorem SoundOne.simple (hadds : h.AddsWords) (hclosed : Closed Counts) {e : Expr}
    (he : e.isSimple = true)
    (hchildrenOnce : WriteOnce s.function.params.length targets a e.children a₁)
    (hown : Own s.function.params.length targets a₁ b e)
    (hchildren : SoundAll s page resolve bound Counts Seen targets a a₁ e.children) :
    SoundOne s page resolve bound Counts Seen targets a b e := by
  intro p c st hknows hsure hproper hwrite
  obtain ⟨codes, st₁, hcodes, hcompose⟩ := Walk.simple_ok he hwrite
  have hknows₁ := hchildrenOnce.knows hknows hcodes
  have hextends := hown.extends hknows₁ hcompose
  have hhere := hproper e p .here
  obtain ⟨hgoes, hleaves⟩ := hchildren p codes st₁ hknows hsure
    (fun x z hx => hproper x z (.operand he hx)) hcodes
  refine ⟨fun v w hrun => ?_, fun l v w hrun => ?_⟩
  · have hpass : Passes s resolve bound e p c v ⟨st, w⟩ := ⟨hwrite, hrun⟩
    rw [Expr.eval_simple he] at hrun
    obtain ⟨xs, w₁, hxs, hact⟩ := bind_ok hrun
    obtain ⟨hsure₁, hworth⟩ := hgoes _ w₁ (Expr.operands_ok hxs)
    have hworth := fun hpure => hworth hpure xs rfl
    refine ⟨hown.sure (p := ⟨st₁, w₁⟩) hknows₁ hsure₁ hcodes hcompose hact ?_, fun hpure x hx => ?_⟩
    · rintro index value tee ty rfl hindex d y rfl rfl hd
      obtain ⟨-, hworths⟩ := hworth (by simpa using hd)
      cases hworths with | cons hworth _ =>
      refine ⟨hhere.seen index value tee ty rfl hindex d y ⟨st₁, w₁⟩ ⟨?_, ?_⟩ hd, hworth⟩
      · obtain ⟨d', st₂, cs, hd', hnil, heq⟩ := Walk.exprs_cons_ok hcodes
        cases hnil
        cases heq
        exact hd'
      · obtain ⟨v, w₂, vs, hv, hnil, heq⟩ := Expr.runAll_cons_ok (Expr.operands_ok hxs)
        cases hnil
        cases heq
        exact hv
    · subst hx
      exact hown.worth hadds hclosed he hknows₁ hsure₁ hhere hcodes hxs hworth hcompose hact hpass
        hpure
  · rw [Expr.eval_simple he] at hrun
    rcases bind_error hrun with hjump | ⟨xs, w₁, hxs, hact⟩
    · have hend := hleaves l v w (Expr.operands_jump hjump)
      exact hend.step hown.places hknows₁ hextends fun _ _ => rfl
    · have hend := (hgoes _ w₁ (Expr.operands_ok hxs)).1.weaken (hown.jump (Expr.act_jump hact))
      refine hend.step hown.places hknows₁ hextends fun i hi => ?_
      exact (act_keepsLocal (hown.spares.ne (hknows₁ i hi).1 hi) xs).after rfl hact

/-! ## Sound bodies -/

/-- Nodes in which locals are written once keep trust. -/
theorem WriteOnce.sound (hadds : h.AddsWords) (hclosed : Closed Counts) {es : List Expr}
    (hes : WriteOnce s.function.params.length targets a es b) :
    SoundAll s page resolve bound Counts Seen targets a b es := by
  induction hes with
  | nil => exact .nil
  | simple he hchildren hown hrest ihchildren ihrest =>
    exact .cons (.simple he hchildren hown .nil) hrest
      (.simple hadds hclosed he hchildren hown ihchildren) ihrest
  | block hchildren hsurely hrest ihchildren ihrest =>
    exact .cons (.block hchildren hsurely .nil) hrest (.block hsurely ihchildren) ihrest
  | ite hcondition htrue hfalse hsurely hrest ihcondition ihtrue ihfalse ihrest =>
    exact .cons (.ite hcondition htrue hfalse hsurely .nil) hrest
      (.ite hcondition htrue hfalse hsurely ihcondition.one ihtrue.one ihfalse) ihrest
  | loop hbody hrest ihbody ihrest =>
    exact .cons (.loop hbody .nil) hrest (.loop hbody ihbody.one) ihrest

end

end Framed

end WasmLift
