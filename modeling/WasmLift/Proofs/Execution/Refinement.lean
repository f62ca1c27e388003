import WasmLift.Proofs.Execution.Tree

/-!
# Runs that match

Two runs match if from matching worlds they come to matching ends: both go on with matching values,
or both leave by matching exits. The worlds may differ in their locals only. The rules here take a
match of two runs apart along `do` blocks. Their main use is `Expr.eval_matches`: a tree that does
not touch the locals in which two worlds differ runs alike in both.
-/

namespace WasmLift

variable {h : Host} {τ τ' α β α' β' : Type}

/-! ## Matching worlds -/

/-- A relation between worlds that concerns their locals only. -/
structure LocalsOnly (W : World h → World h → Prop) : Prop where
  store : ∀ {w w'}, W w w' → w.store = w'.store
  trace : ∀ {w w'}, W w w' → w.trace = w'.trace
  after : ∀ {w w'} (s : Store h.Memory) (t : List Effect), W w w' →
    W { w with store := s, trace := t } { w' with store := s, trace := t }

/-- A local that matching worlds share, and may assign alike. -/
structure SharedLocal (W : World h → World h → Prop) (index : Nat) : Prop where
  get : ∀ {w w'}, W w w' → w.locals index = w'.locals index
  set : ∀ {w w'} (v : Value), W w w' → W (w.setLocal index v) (w'.setLocal index v)

/-- The worlds differ at most in locals from `n` on. -/
structure World.SameBelow (n : Nat) (w w' : World h) : Prop where
  locals : ∀ i, i < n → w.locals i = w'.locals i
  store : w.store = w'.store
  trace : w.trace = w'.trace

/-- A world differs nowhere from itself. -/
theorem World.SameBelow.refl (n : Nat) (w : World h) : w.SameBelow n w :=
  ⟨fun _ _ => rfl, rfl, rfl⟩

/-- Two worlds that differ at most from `n` on from a third differ so from each other. -/
theorem World.SameBelow.trans {n : Nat} {w₁ w₂ w₃ : World h} (h₁ : w₁.SameBelow n w₂)
    (h₂ : w₂.SameBelow n w₃) : w₁.SameBelow n w₃ :=
  ⟨fun i hi => (h₁.locals i hi).trans (h₂.locals i hi), h₁.store.trans h₂.store,
    h₁.trace.trans h₂.trace⟩

/-- Worlds that differ in locals from `n` on may differ in locals only. -/
theorem World.sameBelow_localsOnly (n : Nat) : LocalsOnly (World.SameBelow (h := h) n) :=
  ⟨(·.store), (·.trace), fun _ _ hw => ⟨hw.locals, rfl, rfl⟩⟩

/-- Worlds that differ in locals from `n` on share those below. -/
theorem World.sameBelow_shared {n i : Nat} (hi : i < n) :
    SharedLocal (World.SameBelow (h := h) n) i where
  get hw := hw.locals i hi
  set v hw := by
    refine ⟨fun j hj => ?_, hw.store, hw.trace⟩
    simp only [World.setLocal]
    split
    · rfl
    · exact hw.locals j hj

/-- Assigning a local from `n` on cannot be seen below. -/
theorem World.SameBelow.setLocal_left {n s : Nat} {w w' : World h} (hs : n ≤ s) (v : Value)
    (hw : w.SameBelow n w') : (w.setLocal s v).SameBelow n w' := by
  refine ⟨fun i hi => ?_, hw.store, hw.trace⟩
  have hne : i ≠ s := by omega
  simp [World.setLocal, hne, hw.locals i hi]

/-- The second world is the first with a local assigned. -/
def World.Assigned (s : Nat) (v : Value) (w w' : World h) : Prop :=
  w' = w.setLocal s v

/-- Worlds that differ by an assigned local differ in locals only. -/
theorem World.assigned_localsOnly (s : Nat) (v : Value) :
    LocalsOnly (World.Assigned (h := h) s v) where
  store hw := by rw [hw]; rfl
  trace hw := by rw [hw]; rfl
  after s' t hw := by rw [World.Assigned, hw]; rfl

/-- Worlds that differ by an assigned local share the others. -/
theorem World.assigned_shared {s i : Nat} (v : Value) (hi : i ≠ s) :
    SharedLocal (World.Assigned (h := h) s v) i where
  get hw := by rw [hw]; simp [World.setLocal, hi]
  set x hw := by
    rw [World.Assigned, hw]
    simp only [World.setLocal, World.mk.injEq, and_true]
    funext j
    by_cases hj : j = i
    · simp [hj, hi]
    · simp [hj]

/-! ## Matching runs -/

/-- Two ends of runs match. -/
inductive Run.EndsMatch (W : World h → World h → Prop) (X : Exit τ → Exit τ' → Prop)
    (R : α → β → Prop) :
    Except (Exit τ) α × World h → Except (Exit τ') β × World h → Prop where
  | ok {a : α} {b : β} {w w' : World h} (hr : R a b) (hw : W w w') :
      EndsMatch W X R (.ok a, w) (.ok b, w')
  | error {e : Exit τ} {e' : Exit τ'} {w w' : World h} (hx : X e e') (hw : W w w') :
      EndsMatch W X R (.error e, w) (.error e', w')

/-- From matching worlds, two runs come to matching ends. -/
def Run.Matches (W : World h → World h → Prop) (X : Exit τ → Exit τ' → Prop) (R : α → β → Prop)
    (x : Run h τ α) (y : Run h τ' β) : Prop :=
  ∀ w w', W w w' → EndsMatch W X R (x w) (y w')

namespace Run

variable {W : World h → World h → Prop} {X X' : Exit τ → Exit τ' → Prop} {R R' : α → β → Prop}
  {S : α' → β' → Prop}

/-- What matching ends have in common may be weakened. -/
theorem EndsMatch.mono {x : Except (Exit τ) α × World h} {y : Except (Exit τ') β × World h}
    (hX : ∀ e e', X e e' → X' e e') (hR : ∀ a b, R a b → R' a b) (hxy : EndsMatch W X R x y) :
    EndsMatch W X' R' x y := by
  cases hxy with
  | ok hr hw => exact .ok (hR _ _ hr) hw
  | error hx hw => exact .error (hX _ _ hx) hw

/-- What matching runs have in common may be weakened. -/
theorem Matches.mono {x : Run h τ α} {y : Run h τ' β} (hX : ∀ e e', X e e' → X' e e')
    (hR : ∀ a b, R a b → R' a b) (hxy : Matches W X R x y) : Matches W X' R' x y :=
  fun w w' hw => (hxy w w' hw).mono hX hR

/-- Two related values match. -/
theorem Matches.pure {a : α} {b : β} (hr : R a b) :
    Matches W X R (pure a : Run h τ α) (pure b : Run h τ' β) :=
  fun _ _ hw => .ok hr hw

/-- Two related exits match. -/
theorem Matches.throw {e : Exit τ} {e' : Exit τ'} (hx : X e e') :
    Matches W X R (throw e : Run h τ α) (throw e' : Run h τ' β) :=
  fun _ _ hw => .error hx hw

/-- Matching runs match with matching runs after them. -/
theorem Matches.bind {x : Run h τ α} {y : Run h τ' β} {f : α → Run h τ α'} {g : β → Run h τ' β'}
    (hxy : Matches W X R x y) (hfg : ∀ a b, R a b → Matches W X S (f a) (g b)) :
    Matches W X S (x >>= f) (y >>= g) := by
  intro w w' hw
  have hends := hxy w w' hw
  rw [bind_apply, bind_apply]
  generalize x w = rx at hends
  generalize y w' = ry at hends
  cases hends with
  | ok hr hw => exact hfg _ _ hr _ _ hw
  | error hx hw => exact .error hx hw

/-- Matching runs match with related functions of their values. -/
theorem Matches.map {x : Run h τ α} {y : Run h τ' β} {f : α → α'} {g : β → β'}
    (hxy : Matches W X R x y) (hfg : ∀ a b, R a b → S (f a) (g b)) :
    Matches W X S (f <$> x) (g <$> y) := by
  rw [map_eq_pure_bind, map_eq_pure_bind]
  exact hxy.bind fun a b hr => .pure (hfg a b hr)

/-- An operation on values matches itself. -/
theorem Matches.ofExcept (hX : ∀ t, X (.trap t) (.trap t)) (x : Except Trap α) :
    Matches W X Eq (ofExcept x : Run h τ α) (ofExcept x : Run h τ' α) := by
  cases x with
  | ok a => exact .pure rfl
  | error t => exact .throw (hX t)

/-- An effect matches itself in worlds that differ in locals only. -/
theorem Matches.perform (hW : LocalsOnly W) (hX : ∀ t, X (.trap t) (.trap t)) (e : Effect) :
    Matches W X Eq (perform e : Run h τ Value) (perform e : Run h τ' Value) := by
  intro w w' hw
  simp only [Run.perform, hW.store hw, hW.trace hw]
  exact Matches.ofExcept hX _ _ _ (hW.after _ _ hw)

/-- To read a shared local matches itself. -/
theorem Matches.getLocal {i : Nat} (hi : SharedLocal W i) :
    Matches W X Eq (getLocal i : Run h τ Value) (getLocal i : Run h τ' Value) :=
  fun _ _ hw => .ok (hi.get hw) hw

/-- To assign a shared local matches itself. -/
theorem Matches.setLocal {i : Nat} (hi : SharedLocal W i) (v : Value) :
    Matches W X Eq (setLocal i v : Run h τ Unit) (setLocal i v : Run h τ' Unit) :=
  fun _ _ hw => .ok rfl (hi.set v hw)

/-- To ask for a value matches itself. -/
theorem Matches.demand (hX : X .stuck .stuck) (v : Option Value) :
    Matches W X Eq (demand v : Run h τ Value) (demand v : Run h τ' Value) := by
  cases v with
  | none => exact .throw hX
  | some v => exact .pure rfl

/-- If the run reaches its end, it gives a value with the property. -/
def Gives (P : α → Prop) (x : Run h τ α) : Prop :=
  ∀ w a w', x w = (.ok a, w') → P a

/-- A value that is given at once has the property that it has. -/
theorem Gives.pure {P : α → Prop} {a : α} (ha : P a) : Gives P (pure a : Run h τ α) := by
  intro w b w' hb
  cases hb
  exact ha

/-- A run that leaves gives no value. -/
theorem Gives.throw {P : α → Prop} {e : Exit τ} : Gives P (throw e : Run h τ α) := by
  intro w b w' hb
  cases hb

/-- A run gives what its last part gives of what its first part gives. -/
theorem Gives.seq {P : α → Prop} {Q : α' → Prop} {x : Run h τ α} {f : α → Run h τ α'}
    (hx : Gives P x) (hf : ∀ a, P a → Gives Q (f a)) : Gives Q (x >>= f) := by
  intro w b w' hb
  rw [bind_apply] at hb
  split at hb
  · next hxw => exact hf _ (hx _ _ _ hxw) _ _ _ hb
  · cases hb

/-- A run gives what its last part gives of anything. -/
theorem Gives.bind {P : α' → Prop} {x : Run h τ α} {f : α → Run h τ α'}
    (hf : ∀ a, Gives P (f a)) : Gives P (x >>= f) :=
  Gives.seq (P := fun _ => True) (fun _ _ _ _ => trivial) fun a _ => hf a

/-- A run with a function of its value gives what the function always gives. -/
theorem Gives.map {P : α' → Prop} {x : Run h τ α} {f : α → α'} (hf : ∀ a, P (f a)) :
    Gives P (f <$> x) := by
  rw [map_eq_pure_bind]
  exact .bind fun a => .pure (hf a)

/-- A run gives something, or nothing. -/
theorem Gives.trivial {x : Run h τ α} : Gives (fun _ => True) x :=
  fun _ _ _ _ => .intro

/-- Matching runs also have in common what each gives. -/
theorem Matches.and_gives {P : α → Prop} {Q : β → Prop} {x : Run h τ α} {y : Run h τ' β}
    (hxy : Matches W X R x y) (hx : Gives P x) (hy : Gives Q y) :
    Matches W X (fun a b => R a b ∧ P a ∧ Q b) x y := by
  intro w w' hw
  have hends := hxy w w' hw
  have hgives := hx w
  have hgives' := hy w'
  generalize x w = rx at hends hgives
  generalize y w' = ry at hends hgives'
  cases hends with
  | ok hr hw => exact .ok ⟨hr, hgives _ _ rfl, hgives' _ _ rfl⟩ hw
  | error hx hw => exact .error hx hw

/-- A run matches itself. -/
theorem Matches.refl (x : Run h τ α) : Matches Eq Eq Eq x x := by
  intro w w' hw
  subst hw
  rcases x w with ⟨_ | _, _⟩
  · exact .error rfl rfl
  · exact .ok rfl rfl

/-- A run can be replaced by one that ends alike up to its value and to what matching worlds
hide. -/
theorem Matches.trans {x : Run h τ α'} {y : Run h τ α} {z : Run h τ' β} {S : α' → α → Prop}
    {V : World h → World h → Prop} (hxy : ∀ w, EndsMatch V Eq S (x w) (y w))
    (hyz : Matches W X R y z) (hV : ∀ {w₁ w₂ w₃}, V w₁ w₂ → W w₂ w₃ → W w₁ w₃) :
    Matches W X (fun a c => ∃ b, S a b ∧ R b c) x z := by
  intro w w' hw
  have hleft := hxy w
  have hright := hyz w w' hw
  generalize x w = rx at hleft
  generalize y w = ry at hleft hright
  generalize z w' = rz at hright
  cases hleft with
  | ok hs hv => cases hright with | ok hr hw => exact .ok ⟨_, hs, hr⟩ (hV hv hw)
  | error hs hv =>
    subst hs
    cases hright with | error hx hw => exact .error hx (hV hv hw)

/-- Handling the branches of matching runs that leave by the same exits. -/
theorem Matches.onJump {x y : Run h τ α} {f g : τ → Option Value → Run h τ' α}
    (hxy : Matches W Eq Eq x y) (hfg : ∀ t v, Matches W Eq Eq (f t v) (g t v)) :
    Matches W Eq Eq (x.onJump f) (y.onJump g) := by
  intro w w' hw
  have hends := hxy w w' hw
  rw [Run.onJump, Run.onJump]
  generalize x w = rx at hends
  generalize y w' = ry at hends
  cases hends with
  | ok hr hw => exact .ok hr hw
  | @error e e' _ _ hx hw =>
    subst hx
    cases e with
    | jump t v => exact hfg t v _ _ hw
    | ret | trap | exhausted | stuck => exact .error rfl hw

end Run

end WasmLift
