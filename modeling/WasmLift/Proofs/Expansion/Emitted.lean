import WasmLift.Proofs.Execution.Locals

/-!
# Emitted nodes as a stack program

The nodes emitted into a frame, latest first, are a program on the operand stack: values push what
they give and statements push nothing (`Expr.stackOn`). Operands that were taken off the frame run
after what is left of it (`Expr.pending`). Taking a value changes nothing in the stack as a whole:
neither when it is the latest node (`pending_take`), nor when it is stored into a fresh local that
is read instead (`pending_spill`). The last part relates the stack program to a block or a sequence
made of the same nodes.
-/

namespace WasmLift

open Run

namespace Expr

section
variable (h : Host) (resolve : NameId → Nat) (bound : Nat)

/-- Runs emitted nodes, latest first, on a stack. -/
def stackOn : List Expr → List Value → Run h Label (List Value)
  | [], stack => return stack
  | e :: earlier, stack => do
    let stack ← stackOn earlier stack
    let v ← eval h resolve bound e
    return v.toList ++ stack

/-- Runs emitted nodes on an empty stack, and operands after them. -/
def pending (emitted es : List Expr) : Run h Label (List Value × List Value) := do
  let stack ← stackOn h resolve bound emitted []
  let vs ← operands h resolve bound es
  return (stack, vs)

end

section
variable {h : Host} {resolve : NameId → Nat} {bound : Nat}

theorem stackOn_append (later earlier : List Expr) (stack : List Value) :
    stackOn h resolve bound (later ++ earlier) stack =
      stackOn h resolve bound earlier stack >>= stackOn h resolve bound later := by
  induction later with
  | nil => exact (bind_pure _).symm
  | cons e rest ih => simp only [List.cons_append, stackOn, ih, bind_assoc]

/-- The stack program does not look at what is below its own values. -/
theorem stackOn_base (emitted : List Expr) (stack base : List Value) :
    stackOn h resolve bound emitted (stack ++ base) =
      (· ++ base) <$> stackOn h resolve bound emitted stack := by
  induction emitted with
  | nil => simp [stackOn]
  | cons e rest ih => simp [stackOn, ih]

/-- The stack grows by the number of values emitted. -/
theorem stackOn_length (emitted : List Expr) (stack : List Value) :
    Gives (fun s => s.length = emitted.countP isValue + stack.length)
      (stackOn h resolve bound emitted stack) := by
  induction emitted with
  | nil => exact .pure (by simp)
  | cons e rest ih =>
    refine ih.seq fun s hs => (eval_isSome e).seq fun v hv => .pure ?_
    cases v with
    | none =>
      have he : e.isValue = false := by simpa using hv.symm
      simp [hs, he]
    | some v =>
      have he : e.isValue = true := by simpa using hv.symm
      simp [hs, he]
      omega

theorem stackOn_matches {m : Nat} {W : World h → World h → Prop} (hW : LocalsOnly W)
    (hm : ∀ i, i < m → SharedLocal W i) {emitted : List Expr} (he : ∀ e ∈ emitted, Below m e)
    (stack : List Value) :
    Matches W Eq Eq (stackOn h resolve bound emitted stack)
      (stackOn h resolve bound emitted stack) := by
  induction emitted with
  | nil => exact .pure rfl
  | cons e rest ih =>
    refine (ih fun e' he' => he e' (.tail _ he')).bind fun s _ hs => ?_
    subst hs
    exact (eval_matches hW hm (he e (.head _))).bind fun v _ hv => .pure (hv ▸ rfl)

/-! ## Taking a value -/

/-- Both pairs are the same stack, cut in two places. -/
def SameStack (p q : List Value × List Value) : Prop :=
  p.2.reverse ++ p.1 = q.2.reverse ++ q.1

theorem pending_cons (e : Expr) (emitted es : List Expr) :
    pending h resolve bound emitted (e :: es) = do
      let stack ← stackOn h resolve bound emitted []
      let v ← operand h resolve bound e
      let vs ← operands h resolve bound es
      return (stack, v :: vs) := by
  simp [pending, operands]

/-- Taking the latest node as an operand. -/
theorem pending_take (n : Nat) {e : Expr} (he : e.isValue = true) (emitted es : List Expr)
    (w : World h) :
    EndsMatch (World.SameBelow n) Eq SameStack (pending h resolve bound emitted (e :: es) w)
      (pending h resolve bound (e :: emitted) es w) := by
  have hpending : pending h resolve bound (e :: emitted) es = do
      let stack ← stackOn h resolve bound emitted []
      let v ← eval h resolve bound e
      let vs ← operands h resolve bound es
      return (v.toList ++ stack, vs) := by
    simp [pending, stackOn]
  rw [pending_cons, hpending, bind_apply, bind_apply]
  rcases stackOn h resolve bound emitted [] w with ⟨_ | stack, w₁⟩
  · exact .error rfl (.refl n w₁)
  dsimp only
  rw [bind_assoc, bind_apply, bind_apply]
  rcases hv : eval h resolve bound e w₁ with ⟨_ | v, w₂⟩
  · exact .error rfl (.refl n w₂)
  obtain ⟨v, rfl⟩ : ∃ v', v = some v' := by
    rw [← Option.isSome_iff_exists, eval_isSome e _ _ _ hv, he]
  dsimp only [demand]
  rw [pure_bind, bind_apply, bind_apply]
  rcases operands h resolve bound es w₂ with ⟨_ | vs, w₃⟩
  · exact .error rfl (.refl n w₃)
  · exact .ok (by simp [SameStack]) (.refl n w₃)

/-- Statements leave the stack as it is. -/
theorem stackOn_statements {later : List Expr} (hl : ∀ e ∈ later, e.isValue = false)
    (stack : List Value) : Gives (· = stack) (stackOn h resolve bound later stack) := by
  induction later with
  | nil => exact .pure rfl
  | cons e rest ih =>
    refine (ih fun e' he' => hl e' (.tail _ he')).seq fun s hs => (eval_isSome e).seq fun v hv =>
      .pure ?_
    rw [hl e (.head _)] at hv
    cases v with
    | none => exact hs
    | some v => cases hv

/-- Taking a value that statements follow: it is stored into a fresh local `s` where it stands, and
the local is read instead. -/
theorem pending_spill {n m s : Nat} (hn : n ≤ s) (hm : m ≤ s) {value : Expr}
    (hvalue : value.isValue = true) {later earlier es : List Expr}
    (hstatement : ∀ e ∈ later, e.isValue = false) (hlater : ∀ e ∈ later, Below m e)
    (hes : ∀ e ∈ es, Below m e) (ty : Ty) (hty : ty ≠ .void) (w : World h) :
    EndsMatch (World.SameBelow n) Eq SameStack
      (pending h resolve bound (later ++ .localSet s value false .void :: earlier)
        (.localGet s ty :: es) w)
      (pending h resolve bound (later ++ value :: earlier) es w) := by
  have hleft : pending h resolve bound (later ++ .localSet s value false .void :: earlier)
      (.localGet s ty :: es) = do
        let stack ← stackOn h resolve bound earlier []
        let v ← operand h resolve bound value
        setLocal s v
        let stack ← stackOn h resolve bound later stack
        let x ← getLocal s
        let vs ← operands h resolve bound es
        return (stack, x :: vs) := by
    rw [pending_cons, stackOn_append]
    simp [stackOn, eval, Ty.keep, hty, demand]
  have hright : pending h resolve bound (later ++ value :: earlier) es = do
      let stack ← stackOn h resolve bound earlier []
      let v ← eval h resolve bound value
      let stack ← stackOn h resolve bound later (v.toList ++ stack)
      let vs ← operands h resolve bound es
      return (stack, vs) := by
    rw [pending, stackOn_append]
    simp [stackOn]
  rw [hleft, hright, bind_apply, bind_apply]
  rcases stackOn h resolve bound earlier [] w with ⟨_ | stack, w₁⟩
  · exact .error rfl (.refl n w₁)
  dsimp only
  rw [bind_assoc, bind_apply, bind_apply]
  rcases hv : eval h resolve bound value w₁ with ⟨_ | v, w₂⟩
  · exact .error rfl (.refl n w₂)
  obtain ⟨v, rfl⟩ : ∃ v', v = some v' := by
    rw [← Option.isSome_iff_exists, eval_isSome value _ _ _ hv, hvalue]
  -- From here on the two runs differ in the fresh local only, which holds the value.
  have hW := World.assigned_localsOnly (h := h) s v
  have hshared : ∀ i, i < m → SharedLocal (World.Assigned (h := h) s v) i :=
    fun i hi => World.assigned_shared v (by omega)
  have hrest : Matches (World.Assigned s v) Eq (fun p q => SameStack q p)
      (do let stack ← stackOn h resolve bound later (v :: stack)
          let vs ← operands h resolve bound es
          return (stack, vs))
      (do let stack ← stackOn h resolve bound later stack
          let x ← getLocal s
          let vs ← operands h resolve bound es
          return (stack, x :: vs)) := by
    have halike : Matches (World.Assigned s v) Eq Eq (stackOn h resolve bound later [])
        (stackOn h resolve bound later []) := stackOn_matches hW hshared hlater []
    have hempty := halike.and_gives (stackOn_statements hstatement []) .trivial
    rw [← List.nil_append (v :: stack), ← List.nil_append stack, stackOn_base, stackOn_base]
    refine (hempty.map (f := (· ++ v :: stack)) (g := (· ++ stack)) (S := fun a b => a = v :: b)
      fun a b hab => by simp [← hab.1, hab.2.1]).bind fun a b hab => ?_
    subst hab
    intro w w' hw
    have hread : (getLocal s : Run h Label Value) w' = (.ok v, w') := by
      rw [hw]
      simp [getLocal, World.setLocal]
    rw [bind_apply_ok hread]
    have hoperands : Matches (World.Assigned s v) Eq Eq (operands h resolve bound es)
        (operands h resolve bound es) :=
      operands_matches fun e he => eval_matches hW hshared (hes e he)
    exact (hoperands.bind fun vs _ hvs => Matches.pure (by simp [SameStack, hvs])) w w' hw
  dsimp only [demand]
  rw [pure_bind, bind_apply_ok (x := setLocal s v) (w := w₂) rfl]
  have hends := hrest w₂ _ rfl
  generalize (do
    let stack ← stackOn h resolve bound later stack
    let x ← getLocal s
    let vs ← operands h resolve bound es
    return (stack, x :: vs) : Run h Label _) (w₂.setLocal s v) = left at hends ⊢
  rw [Option.toList_some, List.singleton_append]
  generalize (do
    let stack ← stackOn h resolve bound later (v :: stack)
    let vs ← operands h resolve bound es
    return (stack, vs) : Run h Label _) w₂ = right at hends ⊢
  cases hends with
  | ok hr hw => exact .ok hr (hw ▸ World.SameBelow.setLocal_left hn v (.refl _ _))
  | error hx hw => exact .error hx.symm (hw ▸ World.SameBelow.setLocal_left hn v (.refl _ _))

/-! ## Blocks and sequences of emitted nodes -/

/-- A construct of the given type that gives `v` leaves `stack` behind. -/
def Settles (ty : Ty) (v : Option Value) (stack : List Value) : Prop :=
  if ty = .void then stack = [] else ∃ x, v = some x ∧ stack = [x]

/-- The nodes emitted into a construct, latest first, make up its result: there is nothing but
statements, or one value at the end, or the end is never reached. -/
inductive Complete (h : Host) (resolve : NameId → Nat) (bound : Nat) (ty : Ty) :
    List Expr → Prop where
  | void {emitted : List Expr} (hty : ty = .void) (he : emitted.countP isValue = 0) :
      Complete h resolve bound ty emitted
  | value {e : Expr} {earlier : List Expr} (hty : ty ≠ .void) (he : e.isValue = true)
      (hearlier : earlier.countP isValue = 0) : Complete h resolve bound ty (e :: earlier)
  | dead {emitted : List Expr} (hd : Gives (fun _ => False) (stackOn h resolve bound emitted [])) :
      Complete h resolve bound ty emitted

theorem statements_cons_cons (e e' : Expr) (rest : List Expr) :
    statements h resolve bound (e :: e' :: rest) =
      eval h resolve bound e >>= fun _ => statements h resolve bound (e' :: rest) := rfl

theorem statements_append_single (es : List Expr) (e : Expr) :
    statements h resolve bound (es ++ [e]) =
      statements h resolve bound es >>= fun _ => eval h resolve bound e := by
  induction es with
  | nil => simp [statements]
  | cons e' rest ih =>
    cases rest with
    | nil => simp [statements]
    | cons e'' rest =>
      rw [statements_cons_cons, bind_assoc, ← ih]
      rfl

/-- Emitted nodes in order do what they do on the stack, and the last one gives what is on top. -/
theorem statements_last (e : Expr) (earlier : List Expr) :
    statements h resolve bound (e :: earlier).reverse =
      stackOn h resolve bound earlier [] >>= fun _ => eval h resolve bound e := by
  induction earlier generalizing e with
  | nil => simp [statements, stackOn]
  | cons e' rest ih =>
    rw [List.reverse_cons, statements_append_single, ih, stackOn]
    simp

theorem statements_top (emitted : List Expr) :
    Matches Eq Eq (fun v stack => v.toList <+: stack ∧ v.isSome = emitted.head?.any isValue)
      (statements h resolve bound emitted.reverse) (stackOn h resolve bound emitted []) := by
  cases emitted with
  | nil => exact .pure ⟨List.nil_prefix, rfl⟩
  | cons e earlier =>
    rw [statements_last, stackOn]
    refine (Matches.refl _).bind fun base _ hbase => ?_
    have heval := ((Matches.refl (eval h resolve bound e)).and_gives (eval_isSome e) .trivial)
    rw [← bind_pure (eval h resolve bound e), bind_assoc]
    refine heval.bind fun v _ hv => ?_
    obtain ⟨rfl, hsome, -⟩ := hv
    simp only [pure_bind]
    exact .pure ⟨List.prefix_append _ _, by simpa using hsome⟩

/-- The statements of a complete construct leave behind what they leave on the stack. -/
theorem statements_settles {ty : Ty} {emitted : List Expr}
    (hc : Complete h resolve bound ty emitted) :
    Matches Eq Eq (Settles ty) (statements h resolve bound emitted.reverse)
      (stackOn h resolve bound emitted []) := by
  have hlength : Gives (fun s => s.length = emitted.countP isValue + [].length)
    (stackOn h resolve bound emitted []) := stackOn_length emitted []
  have htop := (statements_top emitted).and_gives .trivial hlength
  cases hc with
  | void hty he =>
    refine htop.mono (fun _ _ => id) fun v stack hs => ?_
    have hlength := hs.2.2
    simp [he] at hlength
    simp [Settles, hty, hlength]
  | @value e earlier hty he hearlier =>
    refine htop.mono (fun _ _ => id) fun v stack hs => ?_
    obtain ⟨⟨hstart, hsome⟩, -, hlength⟩ := hs
    obtain ⟨x, rfl⟩ : ∃ x, v = some x := by
      rw [← Option.isSome_iff_exists, hsome]
      simpa using he
    rw [Settles, if_neg hty]
    refine ⟨x, rfl, (hstart.eq_of_length ?_).symm⟩
    simp [hlength, he, hearlier]
  | dead hd =>
    exact (htop.and_gives .trivial hd).mono (fun _ _ => id) fun _ _ hs => hs.2.2.elim

theorem catching_none (x : Run h Label (Option Value)) : catching none x = x := by
  funext w
  rw [catching, onJump]
  rcases x w with ⟨(_ | _ | _ | _ | _) | _, _⟩ <;> rfl

/-- Settling a construct gives exactly what is left on the stack. -/
theorem settle_settles {τ : Type} {W : World h → World h → Prop} {X : Exit Label → Exit τ → Prop}
    {ty : Ty} {x : Run h Label (Option Value)} {y : Run h τ (List Value)}
    (hxy : Matches W X (Settles ty) x y) :
    Matches W X (fun v stack => stack = v.toList) (x >>= settle ty) y := by
  rw [← bind_pure y]
  refine hxy.bind fun v stack hs => ?_
  unfold Settles at hs
  by_cases hty : ty = .void
  · rw [if_pos hty] at hs
    rw [settle, if_pos hty]
    exact .pure hs
  · rw [if_neg hty] at hs
    obtain ⟨x, rfl, rfl⟩ := hs
    rw [settle, if_neg hty, demand, map_pure]
    exact .pure rfl

theorem Settles.of_toList {ty : Ty} {v : Option Value} (hv : v.isSome = (ty != .void)) :
    Settles ty v v.toList := by
  unfold Settles
  split
  · next hty => simpa [hty] using hv
  · next hty =>
    obtain ⟨x, rfl⟩ := Option.isSome_iff_exists.1 (hv.trans (by simp [hty]))
    exact ⟨x, rfl, rfl⟩

theorem settle_again {τ : Type} {W : World h → World h → Prop} {X : Exit Label → Exit τ → Prop}
    {ty : Ty} {x : Run h Label (Option Value)} {y : Run h τ (List Value)}
    (hxy : Matches W X (Settles ty) x y) : Matches W X (Settles ty) (x >>= settle ty) y := by
  have hgives : Gives (fun v => v.isSome = (ty != .void)) (x >>= settle ty) :=
    .bind fun v => settle_gives ty v
  refine ((settle_settles hxy).and_gives hgives .trivial).mono (fun _ _ => id) fun v stack hs => ?_
  rw [hs.1]
  exact .of_toList hs.2.1

/-- So does the sequence of the nodes. -/
theorem sequence_settles {ty : Ty} {emitted : List Expr}
    (hc : Complete h resolve bound ty emitted) :
    Matches Eq Eq (Settles ty) (eval h resolve bound (sequence emitted.reverse ty))
      (stackOn h resolve bound emitted []) := by
  have hstatements := statements_settles hc
  generalize emitted.reverse = nodes at hstatements ⊢
  rcases nodes with _ | ⟨e, _ | ⟨e', rest⟩⟩
  · exact hstatements
  · simpa only [statements, bind_pure, sequence] using hstatements
  · rw [sequence, eval, catching_none]
    · exact settle_again hstatements
    · rintro ⟨⟩
    · rintro _ ⟨⟩

end

end Expr

end WasmLift
