import WasmLift.Proofs.Listing.EffectOrder

/-!
# Operands that run in any case

Both arms of a choice run before one of them is chosen, and so does the value that a conditional
branch carries before it is taken or not. They are printed as the arms of a ternary and inside a
guarded jump, where one of them runs, or none. Such an operand is printed with the effects that it
has in the body (`Program.expandBody_deferred`): they are not kept out
(`Program.expandBody_printsLazily`).
-/

namespace WasmLift

/-- The effects in operands that are printed where they run on one outcome of a condition only. -/
def Code.deferred : Code → List Code :=
  Code.gather fun n => (n.operands.take n.guarded).flatMap Code.effects

/-- The effects in children that run before a condition decides what becomes of them, outside the
values that the given global is assigned. -/
def Expr.deferred (global : Option Nat) : Expr → List Expr :=
  Expr.gatherOutside global fun n => (n.children.take n.guarded).flatMap fun x =>
    (x.outside global).filter Expr.isEffect

/-- The arrivals at these effects. -/
def Walk.Arrival.deferred {σ : Type} (p : Program) (d : Dialect σ) (hidden : Option Nat) :
    Arrival σ → List (Arrival σ) :=
  gather p d hidden fun a => ((a.below p d).take a.node.guarded).flatMap fun b =>
    (b.visits p d hidden).filter (·.node.isEffect)

theorem Walk.Arrival.map_node_deferred {σ : Type} (p : Program) (d : Dialect σ)
    (hidden : Option Nat) (a : Arrival σ) :
    (a.deferred p d hidden).map Arrival.node = a.node.deferred hidden := by
  have hown (b : Arrival σ) : (((b.below p d).take b.node.guarded).flatMap fun x =>
      (x.visits p d hidden).filter (·.node.isEffect)).map Arrival.node =
        (b.node.children.take b.node.guarded).flatMap fun x =>
          (x.outside hidden).filter Expr.isEffect := by
    rw [List.map_flatMap, ← map_node_below (p := p) (d := d), ← List.map_take, List.flatMap_map]
    refine List.flatMap_congr fun x _ => ?_
    rw [← map_node_visits p d, List.filter_map]
    rfl
  rw [Expr.deferred, Expr.gatherOutside, ← map_node_visits p d, List.flatMap_map]
  exact List.map_flatMap.trans (List.flatMap_congr fun b _ => hown b)

namespace Code

variable {σ : Type} {p : Program} {d : Dialect σ} {hidden : Option Nat} {mute : Expr → Prop}

theorem effects_of_pure {c : Code} (hc : c.hasEffects = false) : c.effects = [] := by
  refine List.filter_eq_nil_iff.2 fun n hn => ?_
  simp [(hasEffects_nodes.1 hc n hn).1]

theorem Mirrors.effects {c : Code} {a : Walk.Arrival σ} (h : Mirrors p d hidden mute c a) :
    Echoes p d mute c.effects ((a.visits p d hidden).filter (·.node.isEffect)) := by
  rw [Code.effects, filter_nodes, Walk.Arrival.filter_visits]
  exact h.gather comparable_effects

theorem overlooksReturns_deferred :
    OverlooksReturns fun n => (n.operands.take n.guarded).flatMap effects :=
  ⟨fun _ => rfl, fun _ _ _ _ => rfl, fun _ _ => rfl, rfl⟩

theorem comparable_deferred :
    Comparable p d hidden mute (fun n => (n.operands.take n.guarded).flatMap effects) fun a =>
      ((a.below p d).take a.node.guarded).flatMap fun b =>
        (b.visits p d hidden).filter (·.node.isEffect) where
  node {c a} own operands := by
    rw [own.guarded]
    exact Echoes.flatMap ((List.forall₂_take _ operands).imp fun _ _ h => h.effects)
  assign {target c a} stands := by
    rw [stands.guarded]
    exact .nil
  replaced {a} own := by
    rw [own.guarded]
    exact .nil
  pure {c} hc := by
    have hoperands := (hasEffects_operands.1 hc).1
    refine List.flatMap_eq_nil_iff.2 fun x hx => effects_of_pure (hoperands x ?_)
    exact List.mem_of_mem_take hx
  deref _ _ _ := rfl
  block _ _ := rfl

end Code

namespace Program

variable {scope : Scope} {code : FunctionCode} {signature : Signature} {locals : List Ty}
  {body : Expr}

/-- In either dialect, the effects that are printed where they run on one outcome of a condition
only are those that the body has in operands that run in any case, one for one and in order. For an
unoptimized function, those on locals may be missing, and those in values that the stack pointer is
assigned are. -/
theorem expandBody_deferred (h : expandBody scope code signature = .ok (locals, body))
    (f : Function) (hparams : f.params = signature.params)
    (hkind : f.kind = .defined locals body) :
    (∀ p, let deferred := Walk.Arrival.deferred p (Direct.dialect p f) none ⟨body, ()⟩
      deferred.map Walk.Arrival.node = body.deferred none ∧
      ∃ nodes, Direct.statements p f = .ok nodes ∧
        List.Forall₂ (Code.StandsFor p (Direct.dialect p f)) (nodes.flatMap Code.deferred)
          deferred) ∧
    ∀ s : Framed.Surroundings, s.function = f →
      let deferred := Walk.Arrival.deferred s.program (Framed.dialect s) s.stackPointer
        ⟨body, Framed.initial s⟩
      deferred.map Walk.Arrival.node = body.deferred s.stackPointer ∧
      ∃ nodes st, Framed.statements s = (.ok nodes, st) ∧
        List.SublistForall₂ (Code.StandsFor s.program (Framed.dialect s))
          (nodes.flatMap Code.deferred) deferred ∧
        List.Forall₂ (Code.StandsFor s.program (Framed.dialect s))
          ((nodes.flatMap Code.deferred).filter Code.isOutward)
          (deferred.filter (·.node.isOutward)) := by
  have hbody : f.body? = some body := by simp [Function.body?, hkind]
  have hrange := expandBody_inRange h hparams hkind
  refine ⟨fun p => ?_, ?_⟩
  · obtain ⟨nodes, st, hnodes, -⟩ :=
      Walk.function_returns (p := p) Direct.dialect_writes hrange () trivial
    refine ⟨Walk.Arrival.map_node_deferred .., nodes, congrArg Prod.fst hnodes, ?_⟩
    have hechoes := Walk.function_echoes Direct.dialect_transparent Code.comparable_deferred
      Code.overlooksReturns_deferred trivial hbody hnodes
    exact hechoes.forall₂ fun _ hfalse => hfalse
  · rintro s rfl
    obtain ⟨nodes, st, hnodes⟩ := Framed.statements_ok hrange
    have hechoes := Walk.function_echoes Framed.dialect_transparent Code.comparable_deferred
      Code.overlooksReturns_deferred Framed.initial_pure hbody hnodes
    exact ⟨Walk.Arrival.map_node_deferred .., nodes, st, hnodes, hechoes.sublist,
      hechoes.outward fun _ => Expr.isOutward_of_isLocalSet⟩

/-- The result of one call is chosen over that of another. -/
def choosing : FunctionCode where
  type := 0
  locals := []
  -- call 0; call 1; local.get 0; select; end
  body := [0x10, 0x00, 0x10, 0x01, 0x20, 0x00, 0x1b, 0x0b]

theorem expandBody_deferred_choosing :
    let p : Program := ⟨[], [], [], [], [⟨"left", 0⟩, ⟨"right", 1⟩]⟩
    let f (body : Expr) : Function := ⟨⟨2⟩, [.i32], .i32, .defined [] body, none⟩
    let printed : List Code :=
      [.ret (some (.select (.param 0) (.call "left" []) (.call "right" [])))]
    ∃ body, expandBody ⟨[], [⟨[], [.i32]⟩, ⟨[], [.i32]⟩], [⟨0⟩, ⟨1⟩], []⟩ choosing ⟨[.i32], .i32⟩ =
        .ok ([], body) ∧
      Direct.statements p (f body) = .ok printed ∧
      List.Forall₂ (Code.StandsFor p (Direct.dialect p (f body))) (printed.flatMap Code.deferred)
        (Walk.Arrival.deferred p (Direct.dialect p (f body)) none ⟨body, ()⟩) := by
  intro p f printed
  let body : Expr := .select (.localGet 0 .i32) (.call ⟨0⟩ [] .i32) (.call ⟨1⟩ [] .i32) .i32
  have hbody : expandBody ⟨[], [⟨[], [.i32]⟩, ⟨[], [.i32]⟩], [⟨0⟩, ⟨1⟩], []⟩ choosing
      ⟨[.i32], .i32⟩ = .ok ([], body) := rfl
  obtain ⟨hdirect, -⟩ := expandBody_deferred hbody (f body) rfl rfl
  obtain ⟨-, nodes, hnodes, hdeferred⟩ := hdirect p
  cases hnodes
  exact ⟨body, hbody, rfl, hdeferred⟩

/-- Both calls are made, and the text makes one of them. -/
theorem expandBody_printsLazily :
    let p : Program := ⟨[], [], [], [], [⟨"left", 0⟩, ⟨"right", 1⟩]⟩
    let f (body : Expr) : Function := ⟨⟨2⟩, [.i32], .i32, .defined [] body, none⟩
    let printed : List Code :=
      [.ret (some (.select (.param 0) (.call "left" []) (.call "right" [])))]
    ∃ body, expandBody ⟨[], [⟨[], [.i32]⟩, ⟨[], [.i32]⟩], [⟨0⟩, ⟨1⟩], []⟩ choosing ⟨[.i32], .i32⟩ =
        .ok ([], body) ∧
      Direct.statements p (f body) = .ok printed ∧
      (Framed.statements ⟨p, {}, f body, none⟩).1 = .ok printed ∧
      Code.statementTexts {} printed = ["return param0 ? left() : right();"] ∧
      ∀ w : World default, (Expr.eval default NameId.slot 0 body w).2.trace =
        .call (.function 1) [] :: .call (.function 0) [] :: w.trace := by
  intro p f printed
  let body : Expr := .select (.localGet 0 .i32) (.call ⟨0⟩ [] .i32) (.call ⟨1⟩ [] .i32) .i32
  exact ⟨body, rfl, rfl, rfl, by decide +kernel, fun _ => rfl⟩

end Program

end WasmLift
