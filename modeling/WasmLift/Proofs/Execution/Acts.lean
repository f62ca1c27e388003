import WasmLift.Proofs.Execution.Locals
import WasmLift.Proofs.Outcomes

/-!
# Operands first

Except for a block, a conditional and a loop, a node runs its children one after the other and then
acts on their values (`Expr.eval_simple`). What every act of a tree keeps true of the world, the
whole tree keeps true, however its run ends (`Expr.eval_keeps`).
-/

namespace WasmLift

namespace Expr

open Run

/-- The node is no block, no conditional and no loop. -/
def isSimple : Expr → Bool
  | .block _ _ _ | .ite _ _ _ _ | .loop _ _ _ => false
  | _ => true

/-- What a node does with the values of its children. -/
def act (h : Host) (resolve : NameId → Nat) : Expr → List Value → Run h Label (Option Value)
  | .localGet index ty, [] => do
    let v ← getLocal index
    return ty.keep v
  | .localSet index _ _ ty, [v] => do
    setLocal index v
    return ty.keep v
  | .globalGet index ty, [] => do
    let v ← perform (.globalGet index)
    return ty.keep v
  | .globalSet index _, [v] => do
    let _ ← perform (.globalSet index v)
    return none
  | .call target _ ty, vs => do
    let v ← perform (.call (.function (resolve target)) vs)
    return ty.keep v
  | .callIndirect _ _ ty, vs => do
    let index ← demand vs.getLast?
    let v ← perform (.call (.tableEntry index ty) vs.dropLast)
    return ty.keep v
  | .const value, [] => return some value
  | .unary op _, [v] => some <$> ofExcept (h.unary op v)
  | .binary op _ _, [l, r] => some <$> ofExcept (h.binary op l r)
  | .select _ _ _ ty, [t, e, c] => return ty.keep (if c.holds then t else e)
  | .drop _, [_] | .nop, [] => return none
  | .ret _, vs => throw (.ret vs.head?)
  | .unreachable, [] => throw (.trap .unreachable)
  | .br label none _, vs => throw (.jump label vs.head?)
  | .br label (some _) none, [c] => if c.holds then throw (.jump label none) else return none
  | .br label (some _) (some _), [v, c] =>
    if c.holds then throw (.jump label (some v)) else return some v
  | .switch labels fallback _ _, vs => do
    let c ← demand vs.getLast?
    match labels[c.asIndex]?.or fallback with
    | some label => throw (.jump label vs.dropLast.head?)
    | none => throw .stuck
  | .load _ arg ty, [a] => do
    let v ← perform (.load arg ty a)
    return ty.keep v
  | .store _ _ arg, [a, v] => do
    let _ ← perform (.update (.store arg a v))
    return none
  | .memorySize, [] => some <$> perform .memorySize
  | .memoryGrow _, [v] => some <$> perform (.update (.grow v))
  | .memoryCopy _ _ _, [t, s, l] => do
    let _ ← perform (.update (.copy t s l))
    return none
  | .memoryFill _ _ _, [t, v, l] => do
    let _ ← perform (.update (.fill t v l))
    return none
  | _, _ => throw .stuck

section
variable {h : Host} {resolve : NameId → Nat} {bound : Nat}

/-- A value that is there is had at once. -/
theorem demand_some (v : Value) : (demand (some v) : Run h Label Value) = pure v := rfl

/-- A switch jumps to the label that its condition selects. -/
theorem eval_switch (labels : List Label) (fallback : Option Label) (condition : Expr)
    (value : Option Expr) :
    eval h resolve bound (.switch labels fallback condition value) =
      carried h resolve bound value >>= fun v => operand h resolve bound condition >>= fun c =>
        (labels[c.asIndex]?.or fallback).elim (throw .stuck) fun label =>
          throw (.jump label v) := by
  rw [eval]
  refine bind_congr fun v => bind_congr fun c => ?_
  cases labels[c.asIndex]?.or fallback <;> rfl

/-- The last value that a switch is given is its condition, and the one before it is carried. -/
theorem act_switch (labels : List Label) (fallback : Option Label) (condition : Expr)
    (value : Option Expr) (vs : List Value) :
    act h resolve (.switch labels fallback condition value) vs =
      demand vs.getLast? >>= fun c =>
        (labels[c.asIndex]?.or fallback).elim (throw .stuck) fun label =>
          throw (.jump label vs.dropLast.head?) := by
  rw [act]
  refine bind_congr fun c => ?_
  cases labels[c.asIndex]?.or fallback <;> rfl

/-- A simple node runs its children and then acts. -/
theorem eval_simple {e : Expr} (he : e.isSimple = true) :
    eval h resolve bound e = operands h resolve bound e.children >>= act h resolve e := by
  cases e with
  | block | ite | loop => cases he
  | ret value => cases value <;> simp [eval, carried, children, operands, act]
  | br label condition value =>
    cases condition <;> cases value <;> simp [eval, carried, children, operands, act]
  | switch labels fallback condition value =>
    cases value <;> simp [eval_switch, act_switch, carried, children, operands, demand_some]
  | call target args ty => rfl
  | callIndirect target args ty =>
    simp [eval, children, operands, operands_append, act, demand_some]
  | _ => simp [eval, children, operands, act]

end

end Expr

/-! ## What a step keeps -/

section
variable {ε σ α β : Type} {P : σ → Prop}

/-- However the step ends, what was true of the state still is. -/
def Keeps (P : σ → Prop) (x : ExceptT ε (StateM σ) α) : Prop :=
  ∀ s, P s → P (x s).2

/-- A step that keeps something true leaves it true in the state that it ends in. -/
theorem Keeps.after {x : ExceptT ε (StateM σ) α} {s s' : σ} {r : Except ε α} (hx : Keeps P x)
    (hs : P s) (heq : x s = (r, s')) : P s' := by
  have hend := hx s hs
  rwa [heq] at hend

/-- A step that only gives a value leaves the state alone. -/
theorem Keeps.pure {a : α} : Keeps P (pure a : ExceptT ε (StateM σ) α) :=
  fun _ hs => hs

/-- A step that only stops leaves the state alone. -/
theorem Keeps.throw {e : ε} : Keeps P (throw e : ExceptT ε (StateM σ) α) :=
  fun _ hs => hs

/-- Two steps keep true what both keep true, the second after any value of the first. -/
theorem Keeps.bind {x : ExceptT ε (StateM σ) α} {f : α → ExceptT ε (StateM σ) β}
    (hx : Keeps P x) (hf : ∀ a, Keeps P (f a)) : Keeps P (x >>= f) := by
  intro s hs
  show P (ExceptT.bindCont f (x s).1 (x s).2).2
  have hxs := hx s hs
  generalize x s = r at hxs
  obtain ⟨e | a, s'⟩ := r
  · exact hxs
  · exact hf a s' hxs

/-- What is done to the value of a step does not touch the state. -/
theorem Keeps.map {x : ExceptT ε (StateM σ) α} {f : α → β} (hx : Keeps P x) :
    Keeps P (f <$> x) := by
  rw [map_eq_pure_bind]
  exact hx.bind fun _ => .pure

end

section
variable {h : Host} {τ τ' α : Type} {P : World h → Prop}

/-- An operation on values leaves the world alone, even if it traps. -/
theorem Keeps.ofExcept {x : Except Trap α} : Keeps P (Run.ofExcept x : Run h τ α) := by
  cases x with
  | ok a => exact .pure
  | error t => exact .throw

/-- To ask for a value leaves the world alone, whether there is one or not. -/
theorem Keeps.demand {v : Option Value} : Keeps P (Run.demand v : Run h τ Value) := by
  cases v with
  | none => exact .throw
  | some v => exact .pure

/-- A run that catches branches keeps true what the run itself and what follows a branch keep true.
-/
theorem Keeps.onJump {x : Run h τ α} {f : τ → Option Value → Run h τ' α} (hx : Keeps P x)
    (hf : ∀ t v, Keeps P (f t v)) : Keeps P (x.onJump f) := by
  intro w hw
  have hxw := hx w hw
  unfold Run.onJump
  generalize x w = r at hxw
  obtain ⟨e | a, w'⟩ := r
  · cases e with
    | jump t v => exact hf t v w' hxw
    | ret | trap | exhausted | stuck => exact hxw
  · exact hxw

/-- To catch the branches to a label keeps true what the run inside does. -/
theorem Keeps.catching {label : Option Label} {x : Run h Label (Option Value)}
    (hx : Keeps P x) : Keeps P (Run.catching label x) := by
  refine hx.onJump fun t v => ?_
  split
  · exact .pure
  · exact .throw

/-- A loop keeps true what each of its rounds keeps true, by induction on how often it may be
restarted. -/
theorem Keeps.looping {label : Option Label} {x : Run h Label α} (hx : Keeps P x) (k : Nat) :
    Keeps P (Run.looping label x k) := by
  induction k with
  | zero =>
    refine hx.onJump fun t v => ?_
    split <;> exact .throw
  | succ k ih =>
    refine hx.onJump fun t v => ?_
    split
    · exact ih
    · exact .throw

/-- To settle the value of a construct leaves the world alone. -/
theorem Keeps.settle {ty : Ty} {v : Option Value} :
    Keeps P (Run.settle ty v : Run h Label (Option Value)) := by
  unfold Run.settle
  split
  · exact .pure
  · exact Keeps.demand.map

end

namespace Expr

open Run

/-- Every node of the tree has the property. -/
inductive All (Q : Expr → Prop) : Expr → Prop where
  | node {e : Expr} (own : Q e) (children : ∀ c ∈ e.children, All Q c) : All Q e

/-- What every node of a tree has, its root has. -/
theorem All.own {Q : Expr → Prop} {e : Expr} (he : All Q e) : Q e := by
  cases he with | node own _ => exact own

/-- What every node of a tree has, every node of a child has. -/
theorem All.child {Q : Expr → Prop} {e c : Expr} (he : All Q e) (hc : c ∈ e.children) :
    All Q c := by
  cases he with | node _ children => exact children c hc

/-- A property of all nodes may be weakened at each of them. -/
theorem All.mono {Q Q' : Expr → Prop} {e : Expr} (he : All Q e) (himp : ∀ e, Q e → Q' e) :
    All Q' e := by
  induction he with
  | node own _ ih => exact .node (himp _ own) ih

section
variable {h : Host} {resolve : NameId → Nat} {bound : Nat} {P : World h → Prop}

/-- Operands that are run in order keep true what each of them keeps true. -/
theorem operands_keeps {es : List Expr} (hes : ∀ e ∈ es, Keeps P (eval h resolve bound e)) :
    Keeps P (operands h resolve bound es) := by
  induction es with
  | nil => exact .pure
  | cons e rest ih =>
    refine ((hes e (.head _)).bind fun _ => .demand).bind fun v => ?_
    exact (ih fun e he => hes e (.tail _ he)).bind fun _ => .pure

/-- Statements that are run in order keep true what each of them keeps true. -/
theorem statements_keeps {es : List Expr} (hes : ∀ e ∈ es, Keeps P (eval h resolve bound e)) :
    Keeps P (statements h resolve bound es) := by
  induction es with
  | nil => exact .pure
  | cons e rest ih =>
    refine (hes e (.head _)).bind fun v => ?_
    cases rest with
    | nil => exact .pure
    | cons => exact ih fun e he => hes e (.tail _ he)

/-- A tree keeps true what each of its acts keeps true. -/
theorem eval_keeps {e : Expr} (he : All (fun e => ∀ vs, Keeps P (act h resolve e vs)) e) :
    Keeps P (eval h resolve bound e) := by
  induction he with
  | @node e own _ ih =>
  cases hsimple : e.isSimple with
  | true =>
    rw [eval_simple hsimple]
    exact (operands_keeps ih).bind own
  | false =>
    cases e with
    | block label children ty => exact (statements_keeps ih).catching.bind fun _ => .settle
    | ite condition ifTrue ifFalse ty =>
      refine ((ih condition (.head _)).bind fun _ => .demand).bind fun c => ?_
      refine Keeps.bind ?_ fun _ => .settle
      split
      · exact ih ifTrue (.tail _ (.head _))
      · cases ifFalse with
        | none => exact .pure
        | some e => exact ih e (.tail _ (.tail _ (.head _)))
    | loop label body ty => exact ((ih body (.head _)).looping bound).bind fun _ => .settle
    | _ => cases hsimple

end

/-! ## Branches -/

section
variable {h : Host} {resolve : NameId → Nat} {bound : Nat} {α β : Type}

/-- The run never leaves its place by a branch. -/
def Stays (x : Run h Label α) : Prop :=
  ∀ w label v w', x w ≠ (.error (.jump label v), w')

/-- A run that only gives a value does not branch. -/
theorem Stays.pure {a : α} : Stays (pure a : Run h Label α) := nofun

/-- Two runs that do not branch do not branch one after the other. -/
theorem Stays.bind {x : Run h Label α} {f : α → Run h Label β} (hx : Stays x)
    (hf : ∀ a, Stays (f a)) : Stays (x >>= f) := by
  intro w label v w' hjump
  rcases bind_error hjump with hjump | ⟨a, w₁, -, hjump⟩
  · exact hx w label v w' hjump
  · exact hf a w₁ label v w' hjump

/-- What is done to the value of a run makes it no branch. -/
theorem Stays.map {x : Run h Label α} {f : α → β} (hx : Stays x) : Stays (f <$> x) := by
  rw [map_eq_pure_bind]
  exact hx.bind fun _ => .pure

/-- An operation on values may trap, but it does not branch. -/
theorem Stays.ofExcept {x : Except Trap α} : Stays (Run.ofExcept x : Run h Label α) := by
  cases x <;> nofun

/-- To ask for a value may get stuck, but it does not branch. -/
theorem Stays.demand {v : Option Value} : Stays (Run.demand v : Run h Label Value) := by
  cases v <;> nofun

/-- An effect may trap, but it does not branch. -/
theorem Stays.perform (e : Effect) : Stays (Run.perform e : Run h Label Value) :=
  fun _ => Stays.ofExcept _

/-- The targets of the branches that a node itself takes. -/
def branchTargets : Expr → List Label
  | .br label _ _ => [label]
  | .switch labels fallback _ _ => labels ++ fallback.toList
  | _ => []

/-- An act leaves its place only by a branch to one of its targets. -/
theorem act_jump {e : Expr} {vs : List Value} {w w' : World h} {label : Label} {v : Option Value}
    (hact : act h resolve e vs w = (.error (.jump label v), w')) : label ∈ e.branchTargets := by
  unfold act at hact
  split at hact
  case h_15 =>
    cases hact
    exact .head _
  case h_16 | h_17 =>
    split at hact
    · cases hact
      exact .head _
    · cases hact
  case h_18 labels fallback condition value =>
    rcases bind_error hact with hact | ⟨c, w₁, -, hact⟩
    · exact absurd hact (Stays.demand _ _ _ _)
    · cases hlabel : labels[c.asIndex]?.or fallback with
      | none =>
        rw [hlabel] at hact
        cases hact
      | some target =>
        rw [hlabel] at hact
        cases hact
        rcases Option.or_eq_some_iff.1 hlabel with hmem | ⟨-, hmem⟩
        · exact List.mem_append_left _ (List.mem_of_getElem? hmem)
        · exact List.mem_append_right _ (Option.mem_toList.2 hmem)
  all_goals first
    | cases hact
    | exact absurd hact (Stays.bind (.perform _) (fun _ => .pure) _ _ _ _)
    | exact absurd hact (Stays.bind .demand (fun _ => .bind (.perform _) fun _ => .pure) _ _ _ _)
    | exact absurd hact (Stays.map .ofExcept _ _ _ _)

end

/-! ## One node after the other -/

section
variable {h : Host} {resolve : NameId → Nat} {bound : Nat} {w w' : World h}

/-- Runs nodes one after the other, whether they have values or not. -/
def runAll (h : Host) (resolve : NameId → Nat) (bound : Nat) :
    List Expr → Run h Label (List (Option Value))
  | [] => return []
  | e :: rest => do
    let v ← eval h resolve bound e
    let vs ← runAll h resolve bound rest
    return v :: vs

/-- A list of nodes is run by running its head and, where that ends, the rest. -/
theorem runAll_cons {e : Expr} {rest : List Expr} {v : Option Value} {vs : List (Option Value)}
    {w₁ : World h} (he : eval h resolve bound e w = (.ok v, w₁))
    (hrest : runAll h resolve bound rest w₁ = (.ok vs, w')) :
    runAll h resolve bound (e :: rest) w = (.ok (v :: vs), w') := by
  rw [runAll, bind_of_ok he, bind_of_ok hrest]
  rfl

/-- A list of nodes that is run to its end: its head was, and then the rest. -/
theorem runAll_cons_ok {e : Expr} {rest : List Expr} {vs : List (Option Value)}
    (hes : runAll h resolve bound (e :: rest) w = (.ok vs, w')) :
    ∃ v w₁ vs', eval h resolve bound e w = (.ok v, w₁) ∧
      runAll h resolve bound rest w₁ = (.ok vs', w') ∧ vs = v :: vs' := by
  obtain ⟨v, w₁, he, hrest⟩ := bind_ok hes
  obtain ⟨vs', w₂, hrest, hcons⟩ := bind_ok hrest
  cases hcons
  exact ⟨v, w₁, vs', he, hrest, rfl⟩

/-- A list of nodes that is not run to its end: its head was not, or the rest after it. -/
theorem runAll_cons_error {e : Expr} {rest : List Expr} {x : Exit Label}
    (hes : runAll h resolve bound (e :: rest) w = (.error x, w')) :
    eval h resolve bound e w = (.error x, w') ∨
      ∃ v w₁, eval h resolve bound e w = (.ok v, w₁) ∧
        runAll h resolve bound rest w₁ = (.error x, w') := by
  rcases bind_error hes with he | ⟨v, w₁, he, hrest⟩
  · exact .inl he
  · rcases bind_error hrest with hrest | ⟨vs', w₂, -, hpure⟩
    · exact .inr ⟨v, w₁, he, hrest⟩
    · cases hpure

/-- A value that was asked for and had was there. -/
theorem demand_ok {o : Option Value} {v : Value}
    (ho : (demand o : Run h Label Value) w = (.ok v, w')) : o = some v ∧ w' = w := by
  cases o with
  | none => cases ho
  | some o =>
    cases ho
    exact ⟨rfl, rfl⟩

/-- An operation on values that does not trap leaves the world alone. -/
theorem ofExcept_ok {α : Type} {x : Except Trap α} {v : α}
    (hx : (ofExcept x : Run h Label α) w = (.ok v, w')) : x = .ok v ∧ w' = w := by
  cases x with
  | error t => cases hx
  | ok x =>
    cases hx
    exact ⟨rfl, rfl⟩

/-- A run whose value counts as one that is there gave that value. -/
theorem map_some_ok {x : Run h Label Value} {v : Value}
    (hx : (some <$> x) w = (.ok (some v), w')) : x w = (.ok v, w') := by
  rw [map_eq_pure_bind] at hx
  obtain ⟨u, w₁, hxw, hpure⟩ := bind_ok hx
  cases hpure
  exact hxw

/-- An effect that does not trap does to the store what the surroundings say, and is put on record.
-/
theorem perform_ok {e : Effect} {v : Value}
    (he : (perform e : Run h Label Value) w = (.ok v, w')) :
    (h.perform e w.store).1 = .ok v ∧
      w' = { w with store := (h.perform e w.store).2, trace := e :: w.trace } :=
  ofExcept_ok he

/-- A value is kept only where the type is that of a value. -/
theorem keep_some {ty : Ty} {v x : Value} (hv : ty.keep v = some x) : v = x ∧ ty ≠ .void := by
  unfold Ty.keep at hv
  split at hv
  · cases hv
  · next hty =>
    cases hv
    exact ⟨rfl, hty⟩

/-- A branch out of an operand is a branch of the node below, as to ask for a value does not branch.
-/
theorem operand_jump {e : Expr} {label : Label} {v : Option Value}
    (he : (eval h resolve bound e >>= demand) w = (.error (.jump label v), w')) :
    eval h resolve bound e w = (.error (.jump label v), w') := by
  rcases bind_error he with he | ⟨o, w₁, -, ho⟩
  · exact he
  · cases o <;> cases ho

/-- An operand that is had is the value of the node below. -/
theorem operand_ok {e : Expr} {v : Value}
    (he : (eval h resolve bound e >>= demand) w = (.ok v, w')) :
    eval h resolve bound e w = (.ok (some v), w') := by
  obtain ⟨o, w₁, he, ho⟩ := bind_ok he
  obtain ⟨rfl, rfl⟩ := demand_ok ho
  exact he

/-- Operands that are all had are the values of the nodes that were run. -/
theorem operands_ok {es : List Expr} {vs : List Value}
    (hes : operands h resolve bound es w = (.ok vs, w')) :
    runAll h resolve bound es w = (.ok (vs.map some), w') := by
  induction es generalizing w vs with
  | nil =>
    cases hes
    rfl
  | cons e rest ih =>
    obtain ⟨v, w₁, he, hrest⟩ := bind_ok hes
    obtain ⟨vs, w₂, hrest, hcons⟩ := bind_ok hrest
    cases hcons
    exact runAll_cons (operand_ok he) (ih hrest)

/-- A branch out of operands is one out of the nodes that are run for them. -/
theorem operands_jump {es : List Expr} {label : Label} {v : Option Value}
    (hes : operands h resolve bound es w = (.error (.jump label v), w')) :
    runAll h resolve bound es w = (.error (.jump label v), w') := by
  induction es generalizing w with
  | nil => cases hes
  | cons e rest ih =>
    rcases bind_error hes with he | ⟨v, w₁, he, hrest⟩
    · exact bind_of_error (operand_jump he) _
    · rcases bind_error hrest with hrest | ⟨vs, w₂, -, hpure⟩
      · rw [runAll, bind_of_ok (operand_ok he), bind_of_error (ih hrest)]
      · cases hpure

/-- Statements that are run to their end are run one after the other. -/
theorem statements_ok {es : List Expr} {v : Option Value}
    (hes : statements h resolve bound es w = (.ok v, w')) :
    ∃ vs, runAll h resolve bound es w = (.ok vs, w') := by
  induction es generalizing w with
  | nil =>
    cases hes
    exact ⟨[], rfl⟩
  | cons e rest ih =>
    obtain ⟨v₁, w₁, he, hrest⟩ := bind_ok hes
    cases rest with
    | nil =>
      cases hrest
      exact ⟨[v], runAll_cons he rfl⟩
    | cons e' rest =>
      obtain ⟨vs, hvs⟩ := ih hrest
      exact ⟨v₁ :: vs, runAll_cons he hvs⟩

/-- A branch out of statements is one out of the nodes that are run one after the other. -/
theorem statements_jump {es : List Expr} {label : Label} {v : Option Value}
    (hes : statements h resolve bound es w = (.error (.jump label v), w')) :
    runAll h resolve bound es w = (.error (.jump label v), w') := by
  induction es generalizing w with
  | nil => cases hes
  | cons e rest ih =>
    rcases bind_error hes with he | ⟨v₁, w₁, he, hrest⟩
    · exact bind_of_error he _
    · cases rest with
      | nil => cases hrest
      | cons e' rest => rw [runAll, bind_of_ok he, bind_of_error (ih hrest)]

/-- A single node is run as a list. -/
theorem runAll_single {e : Expr} {v : Option Value} (he : eval h resolve bound e w = (.ok v, w')) :
    runAll h resolve bound [e] w = (.ok [v], w') :=
  runAll_cons he rfl

/-- An arm that is run to its end is run as a list of one node, or of none. -/
theorem arm_ok {e : Option Expr} {v : Option Value}
    (he : arm h resolve bound e w = (.ok v, w')) :
    ∃ vs, runAll h resolve bound e.toList w = (.ok vs, w') := by
  cases e with
  | none =>
    cases he
    exact ⟨[], rfl⟩
  | some e => exact ⟨[v], runAll_single he⟩

/-- A branch out of an arm is one out of the node that is there. -/
theorem arm_jump {e : Option Expr} {label : Label} {v : Option Value}
    (he : arm h resolve bound e w = (.error (.jump label v), w')) :
    runAll h resolve bound e.toList w = (.error (.jump label v), w') := by
  cases e with
  | none => cases he
  | some e => exact bind_of_error he _

/-- The world is the same after the value of a construct is settled. -/
theorem settle_ok {ty : Ty} {o v : Option Value} (ho : settle ty o w = (.ok v, w')) : w' = w := by
  unfold settle at ho
  split at ho
  · cases ho
    rfl
  · cases o with
    | none => cases ho
    | some o =>
      cases ho
      rfl

/-- To settle the value of a construct does not branch. -/
theorem settle_jump {ty : Ty} {o v : Option Value} {label : Label} :
    settle ty o w ≠ (.error (.jump label v), w') := by
  unfold settle
  split
  · nofun
  · cases o <;> nofun

section
variable {α : Type} {x : Run h Label α} {f : Label → Option Value → Run h Label α}

/-- A run that catches branches comes to its end: it took none, or what follows the branch came to
its end. -/
theorem onJump_ok {a : α} (hx : x.onJump f w = (.ok a, w')) :
    x w = (.ok a, w') ∨
      ∃ target v w₁, x w = (.error (.jump target v), w₁) ∧ f target v w₁ = (.ok a, w') := by
  unfold onJump at hx
  split at hx
  · next hxw => exact .inl (hxw.trans hx)
  · next target v w₁ hxw => exact .inr ⟨target, v, w₁, hxw, hx⟩
  all_goals cases hx

/-- A branch out of a run that catches branches is taken by what follows the branch that was caught.
-/
theorem onJump_jump {label : Label} {v : Option Value}
    (hx : x.onJump f w = (.error (.jump label v), w')) :
    ∃ target v₁ w₁, x w = (.error (.jump target v₁), w₁) ∧
      f target v₁ w₁ = (.error (.jump label v), w') := by
  unfold onJump at hx
  split at hx
  · cases hx
  · next target v₁ w₁ hxw => exact ⟨target, v₁, w₁, hxw, hx⟩
  all_goals cases hx

end

/-- Where the branches to a label are caught, a run comes to its end by itself or by such a branch.
-/
theorem catching_ok {label : Option Label} {x : Run h Label (Option Value)} {v : Option Value}
    (hx : catching label x w = (.ok v, w')) :
    x w = (.ok v, w') ∨ ∃ target, label = some target ∧ x w = (.error (.jump target v), w') := by
  rcases onJump_ok hx with hxw | ⟨target, v₁, w₁, hxw, hf⟩
  · exact .inl hxw
  · split at hf
    · next hlabel =>
      cases hf
      exact .inr ⟨target, hlabel, hxw⟩
    · cases hf

/-- A branch out of a run that catches those to a label goes to another label. -/
theorem catching_jump {label : Option Label} {x : Run h Label (Option Value)} {v : Option Value}
    {target : Label} (hx : catching label x w = (.error (.jump target v), w')) :
    x w = (.error (.jump target v), w') ∧ label ≠ some target := by
  obtain ⟨target, v₁, w₁, hxw, hf⟩ := onJump_jump hx
  split at hf
  · cases hf
  · next hlabel =>
    cases hf
    exact ⟨hxw, hlabel⟩

/-- The worlds in which a loop is restarted. -/
inductive Restarts {α : Type} (label : Option Label) (x : Run h Label α) :
    World h → World h → Prop where
  | refl {w : World h} : Restarts label x w w
  | again {target : Label} {v : Option Value} {w w₁ w' : World h} (hlabel : label = some target)
      (hjump : x w = (.error (.jump target v), w₁)) (hrest : Restarts label x w₁ w') :
      Restarts label x w w'

section
variable {α : Type} {label : Option Label} {x : Run h Label α}

/-- A loop ends with the last of its rounds. -/
theorem looping_ok {k : Nat} {a : α} (hx : looping label x k w = (.ok a, w')) :
    ∃ w₁, Restarts label x w w₁ ∧ x w₁ = (.ok a, w') := by
  induction k generalizing w with
  | zero =>
    rcases onJump_ok hx with hend | ⟨target, v, w₁, -, hf⟩
    · exact ⟨w, .refl, hend⟩
    · split at hf <;> cases hf
  | succ k ih =>
    rcases onJump_ok hx with hend | ⟨target, v, w₁, hjump, hf⟩
    · exact ⟨w, .refl, hend⟩
    · split at hf
      · next hlabel =>
        obtain ⟨w₂, hrestarts, hend⟩ := ih hf
        exact ⟨w₂, .again hlabel hjump hrestarts, hend⟩
      · cases hf

/-- A loop is left by a branch of the last of its rounds to another target. -/
theorem looping_jump {k : Nat} {target : Label} {v : Option Value}
    (hx : looping label x k w = (.error (.jump target v), w')) :
    ∃ w₁, Restarts label x w w₁ ∧ x w₁ = (.error (.jump target v), w') ∧
      label ≠ some target := by
  induction k generalizing w with
  | zero =>
    obtain ⟨target, v, w₁, hjump, hf⟩ := onJump_jump hx
    split at hf
    · cases hf
    · next hlabel =>
      cases hf
      exact ⟨w, .refl, hjump, hlabel⟩
  | succ k ih =>
    obtain ⟨target, v, w₁, hjump, hf⟩ := onJump_jump hx
    split at hf
    · next hlabel =>
      obtain ⟨w₂, hrestarts, hjump', hne⟩ := ih hf
      exact ⟨w₂, .again hlabel hjump hrestarts, hjump', hne⟩
    · next hlabel =>
      cases hf
      exact ⟨w, .refl, hjump, hlabel⟩

end

/-- Nodes that are run one after the other keep true what each of them keeps true. -/
theorem runAll_keeps {P : World h → Prop} {es : List Expr}
    (hes : ∀ e ∈ es, Keeps P (eval h resolve bound e)) : Keeps P (runAll h resolve bound es) := by
  induction es with
  | nil => exact .pure
  | cons e rest ih =>
    refine (hes e (.head _)).bind fun _ => ?_
    exact (ih fun e he => hes e (.tail _ he)).bind fun _ => .pure

end

end Expr

end WasmLift
