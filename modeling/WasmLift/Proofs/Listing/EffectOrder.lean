import WasmLift.Proofs.Listing.Mirroring

/-!
# The order of effects

In the plain dialect the statements of a function have the effects of its body, each once and in
order (`Program.expandBody_effectsPlain`). In that of unoptimized functions none is printed twice or
out of order either (`Program.expandBody_effectsInOrder`): what is recorded for a local has no
effect, so it can be printed any number of times. Of the effects that are seen outside the function,
those in a value that the stack pointer is assigned are lost (`Program.expandBody_effectLost`), and
no others (`Program.expandBody_effectsKept`).
-/

namespace WasmLift

/-! ## Effects node by node -/

namespace Code

variable {σ : Type} {p : Program} {d : Dialect σ} {hidden : Option Nat} {mute : Expr → Prop}

theorem overlooksReturns_effects : OverlooksReturns fun c => [c].filter isEffect :=
  ⟨fun _ => rfl, fun _ _ _ _ => rfl, fun _ _ => rfl, rfl⟩

theorem comparable_effects :
    Comparable p d hidden mute (fun c => [c].filter isEffect)
      fun a => [a].filter (·.node.isEffect) where
  node {c a} own _ := by
    rw [List.filter_cons, List.filter_cons, own.effect]
    split
    next heffect => exact .cons (own.stands heffect) .nil
    next => exact .nil
  assign {target c a} stands := by
    have hnode : [a].filter (·.node.isEffect) = [a] :=
      List.filter_cons_of_pos stands.isEffect.2
    rw [List.filter_cons_of_pos stands.isEffect.1, hnode]
    exact .cons stands .nil
  replaced {a} own := by
    rw [List.filter_cons]
    split
    next heffect => exact .mute (own.effect heffect) .nil
    next => exact .nil
  pure {c} hc := by
    rw [List.filter_cons_of_neg (by simp [(hasEffects_operands.1 hc).2.1])]
    rfl
  deref _ _ _ := rfl
  block _ _ := rfl

end Code

/-! ## What statements contribute -/

namespace Walk

open Code

section
variable {σ : Type} {P : σ → Prop} {p : Program} {hidden : Option Nat} {mute : Expr → Prop}
  {d : Dialect σ} {st st' : σ} {f : Function} {body : Expr} {nodes : List Code}

/-- The statements of a function contribute what the code of its body does. -/
theorem function_gather {α : Type} {g : Code → List α} (hg : OverlooksReturns g)
    (hbody : f.body? = some body) (hf : function p d f st = (.ok nodes, st')) :
    ∃ c, expr p d body st = (.ok c, st') ∧ nodes.flatMap (gather g) = c.gather g := by
  obtain ⟨statements, hwrite, rfl⟩ := function_tagged hbody hf
  have hreturn := gather_withReturn hg (f.result != .void) statements
  cases body with
  | block label children ty =>
    refine ⟨.block label (statements.map Prod.fst), ?_, ?_⟩
    · rw [expr, bind_of_ok (bodyStatements_ok hwrite)]
      rfl
    · rw [gather_block hg, ← hreturn]
      cases label with
      | none => rfl
      | some label => exact (List.flatMap_singleton ..).trans (gather_block hg _ _)
  | nop =>
    cases hwrite
    refine ⟨.nop, rfl, ?_⟩
    rw [gather_eq, hg.nop]
    rfl
  | _ =>
    obtain ⟨c, st₁, hc, hpure⟩ := bind_ok hwrite
    cases hpure
    exact ⟨c, hc, hreturn.trans (List.flatMap_singleton ..)⟩

/-- In a transparent dialect, what the statements of a function contribute can be compared with what
the nodes do that the walk comes to. -/
theorem function_echoes (hd : d.Transparent P p hidden mute) {gc : Code → List Code}
    {ga : Arrival σ → List (Arrival σ)} (hg : Comparable p d hidden mute gc ga)
    (hreturns : OverlooksReturns gc) (hst : P st) (hbody : f.body? = some body)
    (hf : function p d f st = (.ok nodes, st')) :
    Echoes p d mute (nodes.flatMap (gather gc)) (Arrival.gather p d hidden ga ⟨body, st⟩) := by
  obtain ⟨c, hc, heq⟩ := function_gather hreturns hbody hf
  rw [heq]
  exact (expr_mirrors hd hst hc).2.gather hg

/-- The effects of statements are those of the body outside the values of the hidden global, except
for such as may be left out. -/
theorem function_effects (hd : d.Transparent P p hidden mute) (hst : P st)
    (hbody : f.body? = some body) (hf : function p d f st = (.ok nodes, st')) :
    Echoes p d mute (nodes.flatMap effects)
      ((Arrival.visits p d hidden ⟨body, st⟩).filter (·.node.isEffect)) := by
  have heffects : effects = gather fun c => [c].filter isEffect := funext (filter_nodes isEffect)
  rw [heffects, Arrival.filter_visits]
  exact function_echoes hd comparable_effects overlooksReturns_effects hst hbody hf

/-- The effects of statements that are seen outside the function are those of the body outside the
values of the hidden global, if no such effect may be left out. -/
theorem function_outward (hd : d.Transparent P p hidden mute)
    (hmute : ∀ e, mute e → e.isOutward = false) (hst : P st) (hbody : f.body? = some body)
    (hf : function p d f st = (.ok nodes, st')) :
    List.Forall₂ (StandsFor p d) (nodes.flatMap outward)
      ((Arrival.visits p d hidden ⟨body, st⟩).filter (·.node.isOutward)) := by
  have h := (function_effects hd hst hbody hf).outward hmute
  rwa [filter_effects, Arrival.filter_isOutward] at h

/-- While a tree is written from one state, the walk is in the other. -/
inductive Traverses (p : Program) (d : Dialect σ) : Expr → σ → σ → Prop where
  | start {e : Expr} {st : σ} : Traverses p d e st st
  | done {e : Expr} {st st' : σ} {c : Code} (written : expr p d e st = (.ok c, st')) :
      Traverses p d e st st'
  | inside {e child : Expr} {before after : List Expr} {codes : List Code} {st st₁ st' : σ}
      (split : e.children = before ++ child :: after)
      (written : exprs p d before st = (.ok codes, st₁)) (within : Traverses p d child st₁ st') :
      Traverses p d e st st'

/-- What every step keeps holds all along. -/
theorem Traverses.keeps (hd : d.Transparent P p hidden mute) {e : Expr}
    (h : Traverses p d e st st') (hst : P st) : P st' := by
  induction h with
  | start => exact hst
  | done written => exact (expr_mirrors hd hst written).1
  | inside _ written _ ih =>
    exact ih (exprs_mirrors (fun _ _ _ _ _ hst hwrite => expr_mirrors hd hst hwrite) hst written).1

end

end Walk

/-! ## Accepted bodies -/

/-- Where no value that the global is assigned has effects that are seen outside, nothing is lost
with it but the assignments. -/
theorem Walk.Arrival.filter_visits_of_pure {σ : Type} {p : Program} {d : Dialect σ}
    {global : Option Nat} {a : Arrival σ}
    (h : ∀ n ∈ a.node.nodes, n.assigns global = true → ∀ v ∈ n.children, ∀ x ∈ v.nodes,
      x.isOutward = true → x.assigns global = true) :
    (a.visits p d global).filter (·.node.isOutward) =
      (a.visits p d none).filter fun b => b.node.isOutward && !b.node.assigns global := by
  induction a using induct (p := p) (d := d) with
  | h a ih =>
    rw [Expr.nodes_eq] at h
    obtain ⟨hinside, hown⟩ := List.forall_mem_append.1 h
    rw [visits_eq, visits_eq, Expr.assigns_none, if_neg Bool.false_ne_true, List.filter_append,
      List.filter_flatMap]
    cases hassigns : a.node.assigns global with
    | true =>
      have hlost : ∀ b ∈ a.below p d, ((b.visits p d none).filter
          fun b => b.node.isOutward && !b.node.assigns global) = [] := by
        intro b hb
        refine List.filter_eq_nil_iff.2 fun x hx => ?_
        have hnode : x.node ∈ b.node.nodes := by
          rw [← map_node_visits_none p d b]
          exact List.mem_map_of_mem hx
        have hx := hown a.node (.head _) hassigns b.node (node_mem_children hb) x.node hnode
        grind
      rw [List.flatMap_eq_nil_iff.2 hlost, List.filter_cons_of_neg (by simp [hassigns])]
      rfl
    | false =>
      have hbelow : ∀ b ∈ a.below p d, (b.visits p d global).filter (·.node.isOutward) =
          (b.visits p d none).filter fun b => b.node.isOutward && !b.node.assigns global := by
        intro b hb
        refine ih b hb fun n hn => hinside n ?_
        exact List.mem_flatMap.2 ⟨b.node, node_mem_children hb, hn⟩
      rw [if_neg Bool.false_ne_true, List.filter_append, List.filter_flatMap,
        List.flatMap_congr hbelow]
      simp [List.filter_cons, hassigns]

namespace Program

variable {scope : Scope} {code : FunctionCode} {signature : Signature} {locals : List Ty}
  {body : Expr} {s : Framed.Surroundings}

/-- In the plain dialect all effects of a body are printed, each once and in order. -/
theorem expandBody_effectsPlain (h : expandBody scope code signature = .ok (locals, body))
    {f : Function} (hparams : f.params = signature.params) (hkind : f.kind = .defined locals body)
    (p : Program) :
    let visits := Walk.Arrival.visits p (Direct.dialect p f) none ⟨body, ()⟩
    visits.map Walk.Arrival.node = body.nodes ∧ ∃ nodes, Direct.statements p f = .ok nodes ∧
      List.Forall₂ (Code.StandsFor p (Direct.dialect p f)) (nodes.flatMap Code.effects)
        (visits.filter (·.node.isEffect)) := by
  intro visits
  have hbody : f.body? = some body := by simp [Function.body?, hkind]
  obtain ⟨nodes, st, hnodes, -⟩ :=
    Walk.function_returns (p := p) Direct.dialect_writes (expandBody_inRange h hparams hkind) ()
      trivial
  have hechoes := Walk.function_effects Direct.dialect_transparent trivial hbody hnodes
  exact ⟨Walk.Arrival.map_node_visits_none .., nodes, congrArg Prod.fst hnodes,
    hechoes.forall₂ fun _ hfalse => hfalse⟩

/-- What is recorded while the statements of a function are written has no effects and directs no
control. The effects of the statements, those on locals included or not, are effects of the nodes of
the body, to which the walk comes in evaluation order: each printed one does to the operands that
are written there what its node does, and none is printed twice or out of order. -/
theorem expandBody_effectsInOrder (h : expandBody scope code signature = .ok (locals, body))
    (hparams : s.function.params = signature.params)
    (hkind : s.function.kind = .defined locals body) :
    (∀ st, Walk.Traverses s.program (Framed.dialect s) body (Framed.initial s) st →
      ∀ c, some c ∈ st.registers → ∀ n ∈ c.nodes, n.isEffect = false ∧ n.isControl = false) ∧
    let visits := Walk.Arrival.visits s.program (Framed.dialect s) none ⟨body, Framed.initial s⟩
    visits.map Walk.Arrival.node = body.nodes ∧
    ∃ nodes st, Framed.statements s = (.ok nodes, st) ∧
      List.SublistForall₂ (Code.StandsFor s.program (Framed.dialect s))
        (nodes.flatMap Code.effects) (visits.filter (·.node.isEffect)) ∧
      List.SublistForall₂ (Code.StandsFor s.program (Framed.dialect s))
        (nodes.flatMap Code.outward) (visits.filter (·.node.isOutward)) := by
  have hbody : s.function.body? = some body := by simp [Function.body?, hkind]
  obtain ⟨nodes, st, hnodes⟩ := Framed.statements_ok (expandBody_inRange h hparams hkind)
  have hechoes := Walk.function_effects Framed.dialect_transparent Framed.initial_pure hbody hnodes
  have houtward := Walk.function_outward Framed.dialect_transparent
    (fun _ => Expr.isOutward_of_isLocalSet) Framed.initial_pure hbody hnodes
  have hsublist := Walk.Arrival.visits_sublist s.program (Framed.dialect s) s.stackPointer
    ⟨body, Framed.initial s⟩
  refine ⟨fun st hst c hc => ?_, Walk.Arrival.map_node_visits_none .., nodes, st, hnodes, ?_, ?_⟩
  · have hpure := hst.keeps Framed.dialect_transparent Framed.initial_pure
    exact Code.hasEffects_nodes.1 (hpure c hc)
  · obtain ⟨as, has, hsub⟩ := List.sublistForall₂_iff.1 hechoes.sublist
    exact List.sublistForall₂_iff.2 ⟨as, has, hsub.trans (hsublist.filter _)⟩
  · exact List.sublistForall₂_iff.2 ⟨_, houtward, hsublist.filter _⟩

/-- A constant is kept in a local, and the result of a call with it in another. -/
def keeping : FunctionCode where
  type := 0
  locals := [.i32, .i32]
  -- i32.const 7; local.set 0; local.get 0; call 0; local.set 1; local.get 0; local.get 1; i32.add
  body := [0x41, 0x07, 0x21, 0x00, 0x20, 0x00, 0x10, 0x00, 0x21, 0x01, 0x20, 0x00, 0x20, 0x01, 0x6a,
    0x0b]

/-- The constant is printed twice and its assignment not at all; the call is printed once. -/
theorem expandBody_effectsInOrder_keeping :
    let p : Program := ⟨[], [], [], [], [⟨"work", 0⟩]⟩
    let f (body : Expr) : Function := ⟨⟨1⟩, [], .i32, .defined [.i32, .i32] body, none⟩
    let seven : Code := .const (.i32 7) none
    let printed : List Code := [.assign (.localVar 1) (.call "work" [seven]),
      .ret (some (.binary (.int .w32 .add) seven (.localVar 1)))]
    ∃ body, expandBody ⟨[], [⟨[.i32], [.i32]⟩], [⟨0⟩], []⟩ keeping ⟨[], .i32⟩ =
        .ok ([.i32, .i32], body) ∧
      let s : Framed.Surroundings := ⟨p, {}, f body, none⟩
      (Framed.statements s).1 = .ok printed ∧
      List.SublistForall₂ (Code.StandsFor p (Framed.dialect s)) (printed.flatMap Code.effects)
        ((Walk.Arrival.visits p (Framed.dialect s) none ⟨body, Framed.initial s⟩).filter
          (·.node.isEffect)) := by
  intro p f seven printed
  let body : Expr := .block none
    [.localSet 0 (.const (.i32 7)) false .void,
      .localSet 1 (.call ⟨0⟩ [.localGet 0 .i32] .i32) false .void,
      .binary (.int .w32 .add) (.localGet 0 .i32) (.localGet 1 .i32)] .i32
  have hbody : expandBody ⟨[], [⟨[.i32], [.i32]⟩], [⟨0⟩], []⟩ keeping ⟨[], .i32⟩ =
      .ok ([.i32, .i32], body) := rfl
  obtain ⟨-, -, nodes, st, hnodes, hsublist, -⟩ :=
    @expandBody_effectsInOrder _ _ _ _ _ ⟨p, {}, f body, none⟩ hbody rfl rfl
  cases hnodes
  exact ⟨body, hbody, rfl, hsublist⟩

/-- The effects of the statements that are seen outside the function are those of the nodes that the
walk comes to outside the values that the stack pointer is assigned, one for one and in order. If
these values have no such effects, all of the body but the assignments to the stack pointer are
printed. -/
theorem expandBody_effectsKept (h : expandBody scope code signature = .ok (locals, body))
    (hparams : s.function.params = signature.params)
    (hkind : s.function.kind = .defined locals body) :
    let visits hidden :=
      Walk.Arrival.visits s.program (Framed.dialect s) hidden ⟨body, Framed.initial s⟩
    (visits s.stackPointer).map Walk.Arrival.node = body.outside s.stackPointer ∧
    (visits none).map Walk.Arrival.node = body.nodes ∧
    ∃ nodes st, Framed.statements s = (.ok nodes, st) ∧
      List.Forall₂ (Code.StandsFor s.program (Framed.dialect s)) (nodes.flatMap Code.outward)
        ((visits s.stackPointer).filter (·.node.isOutward)) ∧
      ((∀ n ∈ body.nodes, n.assigns s.stackPointer = true → ∀ v ∈ n.children, ∀ x ∈ v.nodes,
          x.isOutward = true → x.assigns s.stackPointer = true) →
        List.Forall₂ (Code.StandsFor s.program (Framed.dialect s)) (nodes.flatMap Code.outward)
          ((visits none).filter fun a => a.node.isOutward && !a.node.assigns s.stackPointer)) := by
  have hbody : s.function.body? = some body := by simp [Function.body?, hkind]
  obtain ⟨nodes, st, hnodes⟩ := Framed.statements_ok (expandBody_inRange h hparams hkind)
  have houtward := Walk.function_outward Framed.dialect_transparent
    (fun _ => Expr.isOutward_of_isLocalSet) Framed.initial_pure hbody hnodes
  refine ⟨Walk.Arrival.map_node_visits .., Walk.Arrival.map_node_visits_none .., nodes, st, hnodes,
    houtward, fun hpure => ?_⟩
  rw [← Walk.Arrival.filter_visits_of_pure hpure]
  exact houtward

/-- A frame is opened, and a call is made from within it. -/
def framing : FunctionCode where
  type := 0
  locals := []
  -- global.get 0; i32.const 16; i32.sub; global.set 0; call 0; end
  body := [0x23, 0x00, 0x41, 0x10, 0x6b, 0x24, 0x00, 0x10, 0x00, 0x0b]

theorem expandBody_effectsKept_framing :
    let p : Program := ⟨[], [⟨"sp", .i32, true, some (.const (.i32 0))⟩], [], [], [⟨"work", 0⟩]⟩
    let f (body : Expr) : Function := ⟨⟨1⟩, [], .void, .defined [] body, none⟩
    ∃ body, expandBody ⟨[], [⟨[], []⟩], [⟨0⟩], [.i32]⟩ framing ⟨[], .void⟩ = .ok ([], body) ∧
      let s : Framed.Surroundings := ⟨p, {}, f body, p.stackPointer?⟩
      (Framed.statements s).1 = .ok [.call "work" []] ∧
      List.Forall₂ (Code.StandsFor p (Framed.dialect s)) ([Code.call "work" []].flatMap Code.outward)
        ((Walk.Arrival.visits p (Framed.dialect s) s.stackPointer ⟨body, Framed.initial s⟩).filter
          (·.node.isOutward)) := by
  intro p f
  let body : Expr := .block none
    [.globalSet 0 (.binary (.int .w32 .sub) (.globalGet 0 .i32) (.const (.i32 16))),
      .call ⟨0⟩ [] .void] .void
  have hbody : expandBody ⟨[], [⟨[], []⟩], [⟨0⟩], [.i32]⟩ framing ⟨[], .void⟩ = .ok ([], body) :=
    rfl
  obtain ⟨-, -, nodes, st, hnodes, hkept, -⟩ :=
    @expandBody_effectsKept _ _ _ _ _ ⟨p, {}, f body, p.stackPointer?⟩ hbody rfl rfl
  cases hnodes
  exact ⟨body, hbody, rfl, hkept⟩

/-- The stack pointer is assigned the result of a call. -/
def misusing : FunctionCode where
  type := 0
  locals := []
  -- call 0; global.set 0; end
  body := [0x10, 0x00, 0x24, 0x00, 0x0b]

/-- The body makes a call, and nothing at all is printed. -/
theorem expandBody_effectLost :
    let p : Program := ⟨[], [⟨"sp", .i32, true, some (.const (.i32 0))⟩], [], [], [⟨"work", 0⟩]⟩
    let f (body : Expr) : Function := ⟨⟨1⟩, [], .void, .defined [] body, none⟩
    ∃ body, expandBody ⟨[], [⟨[], [.i32]⟩], [⟨0⟩], [.i32]⟩ misusing ⟨[], .void⟩ = .ok ([], body) ∧
      .call ⟨0⟩ [] .i32 ∈ body.nodes ∧
      (Framed.statements ⟨p, {}, f body, p.stackPointer?⟩).1 = .ok [.nop] ∧
      Code.statementTexts {} [.nop] = [] := by
  intro p f
  let body : Expr := .globalSet 0 (.call ⟨0⟩ [] .i32)
  refine ⟨body, rfl, ?_, rfl, rfl⟩
  rw [Expr.nodes_eq]
  simp [body, Expr.children, Expr.nodes_eq (.call ⟨0⟩ [] .i32)]

end Program

end WasmLift
