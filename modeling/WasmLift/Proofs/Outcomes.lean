/-!
# Outcomes

How a computation that may stop came to its end: two steps in a row succeed if both do, and fail if
the first fails or the second fails after it.
-/

namespace WasmLift

variable {ε ε' α β : Type}

@[simp] theorem ok_bind (a : α) (f : α → Except ε β) : (Except.ok a >>= f) = f a := rfl

@[simp] theorem error_bind (e : ε) (f : α → Except ε β) :
    (Except.error e >>= f) = .error e := rfl

theorem bind_eq_ok {x : Except ε α} {f : α → Except ε β} {b : β} :
    x >>= f = .ok b ↔ ∃ a, x = .ok a ∧ f a = .ok b := by
  cases x <;> simp

theorem bind_eq_error {x : Except ε α} {f : α → Except ε β} {e : ε} :
    x >>= f = .error e ↔ x = .error e ∨ ∃ a, x = .ok a ∧ f a = .error e := by
  cases x <;> simp

theorem mapError_eq_ok {x : Except ε α} {g : ε → ε'} {a : α} :
    x.mapError g = .ok a ↔ x = .ok a := by
  cases x with
  | ok => exact ⟨fun h => congrArg _ (Except.ok.inj h), fun h => congrArg _ (Except.ok.inj h)⟩
  | error => constructor <;> rintro ⟨⟩

theorem mapError_eq_error {x : Except ε α} {g : ε → ε'} {e' : ε'} :
    x.mapError g = .error e' ↔ ∃ e, x = .error e ∧ g e = e' := by
  cases x with
  | ok => exact iff_of_false (by rintro ⟨⟩) (by rintro ⟨_, ⟨⟩, -⟩)
  | error e => exact ⟨fun h => ⟨e, rfl, Except.error.inj h⟩, by rintro ⟨_, ⟨⟩, rfl⟩; rfl⟩

/-- What follows a condition comes only where the condition holds. -/
theorem of_guard {p : Prop} [Decidable p] {u : Unit} (h : (guard p : Option Unit) = some u) :
    p := by
  by_cases hp : p
  · exact hp
  · have hfails : (if p then pure () else failure : Option Unit) = some u := h
    rw [if_neg hp] at hfails
    cases hfails

/-- A list of steps succeeds if each of them does. -/
theorem mapM_eq_ok {xs : List α} {f : α → Except ε β} {bs : List β} :
    xs.mapM f = .ok bs ↔ xs.map f = bs.map .ok := by
  induction xs generalizing bs with
  | nil => cases bs <;> simp [pure, Except.pure]
  | cons x xs ih =>
    rw [List.mapM_cons, bind_eq_ok]
    constructor
    · rintro ⟨b, hb, hrest⟩
      obtain ⟨bs', hbs', hpure⟩ := bind_eq_ok.1 hrest
      cases hpure
      simp [hb, ih.1 hbs']
    · intro h
      match bs with
      | b :: bs =>
        obtain ⟨hb, hbs⟩ := List.cons.inj h
        exact ⟨b, hb, bind_eq_ok.2 ⟨bs, ih.2 hbs, rfl⟩⟩

/-- Lookups in a list of steps have found what the steps gave. -/
theorem map_eq_of_mapM {xs : List α} {f : α → Except ε β} {g : α → Option β} {bs : List β}
    (h : xs.mapM f = .ok bs) (hg : ∀ x b, f x = .ok b → g x = some b) :
    xs.map g = bs.map some := by
  rw [mapM_eq_ok] at h
  induction xs generalizing bs with
  | nil => simpa using h
  | cons x xs ih =>
    match bs with
    | b :: bs =>
      obtain ⟨hb, hbs⟩ := List.cons.inj h
      rw [List.map_cons, List.map_cons, hg x b hb, ih hbs]

/-- A list of steps fails where one of them does. -/
theorem mapM_eq_error {xs : List α} {f : α → Except ε β} {e : ε} (h : xs.mapM f = .error e) :
    ∃ x ∈ xs, f x = .error e := by
  induction xs with
  | nil => simp [pure, Except.pure] at h
  | cons x xs ih =>
    rw [List.mapM_cons, bind_eq_error] at h
    obtain hx | ⟨b, -, hrest⟩ := h
    · exact ⟨x, .head _, hx⟩
    · obtain hxs | ⟨bs, -, hpure⟩ := bind_eq_error.1 hrest
      · obtain ⟨y, hy, hfy⟩ := ih hxs
        exact ⟨y, .tail _ hy, hfy⟩
      · cases hpure

/-! ## Steps that carry a state -/

section
variable {σ : Type}

theorem bind_of_ok {x : ExceptT ε (StateM σ) α} {s s₁ : σ} {a : α} (hx : x s = (.ok a, s₁))
    (f : α → ExceptT ε (StateM σ) β) : (x >>= f) s = f a s₁ := by
  show ExceptT.bindCont f (x s).1 (x s).2 = f a s₁
  rw [hx]
  rfl

theorem bind_of_error {x : ExceptT ε (StateM σ) α} {s s₁ : σ} {e : ε} (hx : x s = (.error e, s₁))
    (f : α → ExceptT ε (StateM σ) β) : (x >>= f) s = (.error e, s₁) := by
  show ExceptT.bindCont f (x s).1 (x s).2 = (.error e, s₁)
  rw [hx]
  rfl

/-- Two steps in a row succeed if both do. -/
theorem bind_ok {x : ExceptT ε (StateM σ) α} {f : α → ExceptT ε (StateM σ) β} {s s' : σ} {b : β}
    (hb : (x >>= f) s = (.ok b, s')) : ∃ a s₁, x s = (.ok a, s₁) ∧ f a s₁ = (.ok b, s') := by
  have hb : ExceptT.bindCont f (x s).1 (x s).2 = (.ok b, s') := hb
  generalize x s = r at hb
  obtain ⟨e | a, s₁⟩ := r
  · cases hb
  · exact ⟨a, s₁, rfl, hb⟩

/-- Two steps in a row fail if the first fails, or if the second fails after the first. -/
theorem bind_error {x : ExceptT ε (StateM σ) α} {f : α → ExceptT ε (StateM σ) β} {s s' : σ} {e : ε}
    (he : (x >>= f) s = (.error e, s')) :
    x s = (.error e, s') ∨ ∃ a s₁, x s = (.ok a, s₁) ∧ f a s₁ = (.error e, s') := by
  have he : ExceptT.bindCont f (x s).1 (x s).2 = (.error e, s') := he
  generalize x s = r at he
  obtain ⟨e' | a, s₁⟩ := r
  · cases he
    exact .inl rfl
  · exact .inr ⟨a, s₁, rfl, he⟩

end

end WasmLift
