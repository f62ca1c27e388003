import WasmLift.Proofs.Expansion.Liveness

/-!
# The order of operators

Rebuilding loses no operator, repeats none and keeps their order. In evaluation order, and leaving
out control and scratch locals, the nodes of an accepted body are those that its live operators are
rebuilt as, one for one. A scratch local carries one value from where it is computed to where it is
taken: of the nodes of the body one assigns it, and a later one reads it. Both together are
`Expr.ofOperators_order`.
-/

namespace WasmLift

namespace Expr

/-- The node reads or assigns a local from `own` on. -/
def isScratch (own : Nat) (e : Expr) : Bool :=
  e.ownLocal?.any (own ≤ ·)

/-- The node itself, if it is one of those that are looked for. -/
def only (p : Expr → Bool) (e : Expr) : List Expr :=
  if p e then [e] else []

theorem flatMap_only (p : Expr → Bool) (es : List Expr) : es.flatMap (only p) = es.filter p := by
  induction es with
  | nil => rfl
  | cons e es ih =>
    rw [List.flatMap_cons, List.filter_cons, ih, only]
    split <;> rfl

theorem flatMap_gather_only (p : Expr → Bool) (es : List Expr) :
    es.flatMap (gather (only p)) = (es.flatMap nodes).filter p := by
  rw [List.filter_flatMap]
  exact congrArg (es.flatMap ·) (funext fun e => flatMap_only p e.nodes)

theorem ownLocal?_of_isControl {e : Expr} (he : e.isControl = true) : e.ownLocal? = none := by
  cases e with
  | localGet | localSet => cases he
  | _ => rfl

end Expr

open WasmLift.Expr

namespace Builder

theorem overlooks_scratch (own : Nat) :
    Overlooks own (only fun e => !e.isControl && !e.isScratch own) where
  control e he := by simp [only, he]
  set index value hindex := by simp [only, isScratch, Expr.ownLocal?, hindex]
  get index ty hindex := by simp [only, isScratch, Expr.ownLocal?, hindex]

theorem overlooks_touching (i : Nat) : Overlooks (i + 1) (only (·.ownLocal? = some i)) where
  control e he := by simp [only, ownLocal?_of_isControl he]
  set index value hindex := by simp [only, Expr.ownLocal?]; omega
  get index ty hindex := by simp [only, Expr.ownLocal?]; omega

/-! ## Scratch locals -/

/-- Each local from `own` on is assigned once among the nodes, a value of the type it was declared
with, and then read once. -/
def Spilled (own : Nat) (locals : List Ty) (nodes : List Expr) : Prop :=
  ∀ i, own ≤ i → i < locals.length → ∃ v : Expr, locals[i]? = some v.ty ∧
    nodes.filter (·.ownLocal? = some i) = [.localSet i v false .void, .localGet i v.ty]

theorem filter_touching_eq_nil {i : Nat} {e : Expr} (hi : i ∉ e.touched) :
    e.nodes.filter (·.ownLocal? = some i) = [] := by
  refine List.filter_eq_nil_iff.2 fun n hn hown => hi ?_
  refine List.mem_flatMap.2 ⟨n, hn, Option.mem_toList.2 ?_⟩
  simpa using hown

/-- A change leaves scratch locals as they are, and gives the one that it adds its two nodes. -/
theorem Change.spilled {own : Nat} {locals locals' : List Ty} {before made after : List Expr}
    (h : Change locals before made locals' after)
    (hmade : ∀ e ∈ made, ∀ i, e.ownLocal? = some i → i < own)
    (hdeclared : ∀ i ∈ before.flatMap Expr.touched, i < locals.length)
    (hb : Spilled own locals (before.flatMap nodes)) :
    Spilled own locals' (after.flatMap nodes) := by
  intro i hown hi
  by_cases hold : i < locals.length
  · obtain ⟨v, hty, hnodes⟩ := hb i hown hold
    refine ⟨v, ?_, ?_⟩
    · cases h with
      | spill => rwa [List.getElem?_append_left hold]
      | _ => exact hty
    · have hsilent : made.flatMap (only (·.ownLocal? = some i)) = [] := by
        rw [flatMap_only]
        refine List.filter_eq_nil_iff.2 fun e he hlocal => ?_
        have hlt := hmade e he i (by simpa using hlocal)
        omega
      have hgather := h.gather (overlooks_touching i) hold
      rwa [hsilent, List.append_nil, flatMap_gather_only, flatMap_gather_only, hnodes] at hgather
  · cases h with
    | @spill earlier between later value =>
      obtain rfl : i = locals.length := by
        rw [List.length_append, List.length_singleton] at hi
        omega
      have hnone : ((earlier ++ value :: between ++ later).flatMap nodes).filter
          (·.ownLocal? = some locals.length) = [] := by
        rw [List.filter_flatMap]
        refine List.flatMap_eq_nil_iff.2 fun e he => filter_touching_eq_nil fun htouched => ?_
        exact hold (hdeclared _ (List.mem_flatMap.2 ⟨e, he, htouched⟩))
      simp only [List.flatMap_append, List.flatMap_cons, List.filter_append,
        List.append_eq_nil_iff] at hnone
      obtain ⟨⟨hearlier, hvalue, hbetween⟩, hlater⟩ := hnone
      have hset : nodes (.localSet locals.length value false .void) =
          value.nodes ++ [.localSet locals.length value false .void] := by
        simp [nodes_eq (.localSet ..), children]
      have hget : nodes (.localGet locals.length value.ty) =
          [.localGet locals.length value.ty] := by
        simp [nodes_eq (.localGet ..), children]
      refine ⟨value, by simp, ?_⟩
      simp only [List.flatMap_append, List.flatMap_cons, List.filter_append, hset, hget, hearlier,
        hvalue, hbetween, hlater]
      simp [Expr.ownLocal?]
    | _ => exact (hold hi).elim

theorem Moves.spilled {own : Nat} {b c : Builder} {es : List Expr} (h : Moves b es c)
    (hes : ∀ e ∈ es, ∀ i, e.ownLocal? = some i → i < own) (hbody : c.body = none)
    (hdeclared : Declared b) (hb : Spilled own b.locals ((standing b.frames).flatMap nodes)) :
    Spilled own c.locals ((standing c.frames).flatMap nodes) := by
  induction h with
  | refl => exact hb
  | @step b c d es es' move rest ih =>
    obtain ⟨hmade, hlater⟩ := List.forall_mem_append.1 hes
    refine ih hlater hbody (move.declared hdeclared) ?_
    rcases move.change with ⟨hchange, -⟩ | ⟨f, outer, -, -, -, rfl⟩
    · exact hchange.spilled hmade hdeclared.standing hb
    · -- The body would be finished.
      have hsome := rest.keep Move.body_isSome rfl
      rw [hbody] at hsome
      cases hsome

theorem start_spilled {own : Nat} {locals : List Ty} (hown : locals.length ≤ own) (result : Ty)
    (nodes : List Expr) : Spilled own (start locals result).locals nodes := by
  intro i hi hlt
  exact (Nat.not_lt.2 (Nat.le_trans hown hi) hlt).elim

/-- The nodes of a body that is finished touch its scratch locals as the nodes that stood did. -/
theorem close_spilled {own : Nat} {b b' : Builder} {body : Expr} (h : close b = .ok ((), b'))
    (hbody : b'.body = some body) (hnone : b.body = none) (hfounded : Founded b)
    (hdeclared : Declared b) (hb : Spilled own b.locals ((standing b.frames).flatMap nodes)) :
    Spilled own b'.locals body.nodes := by
  obtain ⟨c, f, outer, hlast, hframes, hfold⟩ := close_cases h
  have hc : Spilled own c.locals ((standing c.frames).flatMap nodes) :=
    (resultLast_moves hlast).spilled (List.forall_mem_nil _) ((resultLast_body hlast).trans hnone)
      hdeclared hb
  obtain ⟨hkind, rfl⟩ | ⟨-, g, rest, -, rfl⟩ := hfold
  · obtain rfl : bodyOf f = body := Option.some.inj hbody
    have hfounded : Founded c := (resultLast_moves hlast).keep Move.founded hfounded
    obtain rfl := hfounded.outer_eq_nil hframes hkind
    intro i hown hi
    obtain ⟨v, hty, hnodes⟩ := hc i hown hi
    refine ⟨v, hty, ?_⟩
    have hgather := (overlooks_touching i).byLabel.gather_bodyOf hkind
    rw [List.append_nil, gather, flatMap_only, flatMap_gather_only] at hgather
    rw [hgather, ← hnodes, hframes, standing_cons, standing_nil, List.nil_append]
  · have hsame : c.body = some body := hbody
    rw [resultLast_body hlast, hnone] at hsame
    cases hsame

end Builder

theorem Scan.live_sublist (s : Scan) (ops : List Operator) : (s.live ops).Sublist ops := by
  induction ops generalizing s with
  | nil => exact List.Sublist.refl _
  | cons op rest ih =>
    rw [live]
    split
    · exact List.nil_sublist _
    · split
      · exact (ih _).cons op
      · exact (ih _).cons_cons op

namespace Expr

variable {scope : Scope} {params locals ls : List Ty} {result : Ty} {ops : List Operator}
  {body : Expr}

theorem isScratch_of_lt {own : Nat} {e : Expr} (h : ∀ i, e.ownLocal? = some i → i < own) :
    e.isScratch own = false := by
  unfold isScratch
  cases hlocal : e.ownLocal? with
  | none => rfl
  | some i => simpa using h i hlocal

/-- Except for control and scratch locals, the nodes of an accepted body are those that its live
operators are rebuilt as. -/
theorem ofOperators_wrote (h : ofOperators scope params locals result ops = .ok (ls, body))
    (hnamed : ∀ op ∈ ops, ∀ i, op.ownLocal? = some i → i < (params ++ locals).length) :
    List.Forall₂ (Operator.Writes scope) ((Operator.live ops).filter (!·.isControl))
      (body.nodes.filter fun e => !e.isControl && !e.isScratch (params ++ locals).length) := by
  obtain ⟨b, hrun, hbody, -⟩ := ofOperators_ok h
  have hfounded := Builder.start_founded (params ++ locals) result
  obtain ⟨es, hwrote, hgathered⟩ := Builder.rebuildAll_gathered hrun
    (Builder.overlooks_scratch (params ++ locals).length) hfounded (Nat.le_refl _)
  rw [Builder.translated_eq_live hrun hfounded rfl] at hwrote
  -- The nodes made of operators touch no scratch local.
  have hkept : es.filter (fun e => !e.isControl && !e.isScratch (params ++ locals).length) =
      es.filter (!·.isControl) := by
    refine List.filter_congr fun e he => ?_
    rw [isScratch_of_lt fun i hi => ?_, Bool.not_false, Bool.and_true]
    obtain ⟨op, hop, hlocal⟩ := hwrote.ownLocal? he hi
    exact hnamed op ((Scan.live_sublist _ ops).subset hop) i hlocal
  have hnodes : body.nodes.filter (fun e => !e.isControl && !e.isScratch (params ++ locals).length) =
      es.filter (!·.isControl) := by
    rw [← hkept, ← flatMap_only, ← flatMap_only]
    simpa [Builder.gathered, hbody, gather, Builder.start, Frame.content, FrameKind.held]
      using hgathered
  rw [hnodes]
  exact hwrote

/-- The locals of an accepted body are those it was declared with and its scratch locals. Each of
these is assigned once and then read once, if the operator that closes the function comes last. -/
theorem ofOperators_spilled (h : ofOperators scope params locals result ops = .ok (ls, body))
    (hlast : Operator.closesLast 0 ops = true)
    (hnamed : ∀ op ∈ ops, ∀ i, op.ownLocal? = some i → i < (params ++ locals).length) :
    locals <+: ls ∧ Builder.Spilled (params ++ locals).length (params ++ ls) body.nodes := by
  obtain ⟨b, hrun, hbody, rfl⟩ := ofOperators_ok h
  obtain ⟨before, c, rfl, hbefore, hnone, hclose⟩ := Builder.rebuildAll_closesLast hrun
    (Builder.start_founded _ _) rfl
    ⟨by simp [Builder.scan, Builder.start], fun hne => (hne rfl).elim⟩
    rfl hlast
  obtain ⟨es, hmoves, hlocals⟩ := Builder.rebuildAll_moves hbefore
  have hes : ∀ e ∈ es, ∀ i, e.ownLocal? = some i → i < (params ++ locals).length := by
    intro e he i hi
    obtain ⟨op, hop, hlocal⟩ := hlocals e he i hi
    exact hnamed op (List.mem_append_left _ hop) i hlocal
  have hstart := Builder.start_declared (params ++ locals) result
  have hspilled := hmoves.spilled hes hnone hstart (Builder.start_spilled (Nat.le_refl _) result _)
  have hgrow := hmoves.locals_grow.trans (Builder.close_moves hclose).locals_grow
  obtain ⟨scratch, hscratch⟩ := hgrow
  have hls : b.locals.drop params.length = locals ++ scratch := by
    rw [← hscratch]
    simp [Builder.start]
  have hall : b.locals = params ++ (locals ++ scratch) := by
    rw [← hscratch, ← List.append_assoc]
    rfl
  refine ⟨hls ▸ List.prefix_append _ _, ?_⟩
  rw [hls, ← hall]
  exact Builder.close_spilled hclose hbody hnone (hmoves.keep Builder.Move.founded
    (Builder.start_founded _ _)) (hmoves.keep Builder.Move.declared hstart) hspilled

/-- Rebuilding loses no live operator of values and effects, repeats none and keeps their order. The
locals that it adds are new ones; each is assigned once and read once after that, and has the type
of the value that it is assigned. -/
theorem ofOperators_order (h : ofOperators scope params locals result ops = .ok (ls, body))
    (hlast : Operator.closesLast 0 ops = true)
    (hnamed : ∀ op ∈ ops, ∀ i, op.ownLocal? = some i → i < (params ++ locals).length) :
    List.Forall₂ (Operator.Writes scope) ((Operator.live ops).filter (!·.isControl))
        (body.nodes.filter fun e => !e.isControl && !e.isScratch (params ++ locals).length) ∧
      locals <+: ls ∧ (∀ i ∈ body.touched, i < (params ++ ls).length) ∧
      ∀ i, (params ++ locals).length ≤ i → i < (params ++ ls).length →
        ∃ v : Expr, (params ++ ls)[i]? = some v.ty ∧
          body.nodes.filter (·.ownLocal? = some i) =
            [.localSet i v false .void, .localGet i v.ty] := by
  obtain ⟨hgrow, hspilled⟩ := ofOperators_spilled h hlast hnamed
  refine ⟨ofOperators_wrote h hnamed, hgrow, ?_, hspilled⟩
  rw [List.length_append]
  exact below_iff.1 (ofOperators_below h)

/-- A value that is returned stands below an assignment, and code follows that is never reached. -/
theorem ofOperators_order_spill :
    let ops : List Operator := [.const (.i32 7), .const (.i32 9), .localSet 0, .ret, .drop, .finish]
    let body : Expr := .block none
      [.localSet 1 (.const (.i32 7)) false .void, .localSet 0 (.const (.i32 9)) false .void,
        .ret (some (.localGet 1 .i32))] .i32
    ofOperators ⟨[], [], [], []⟩ [] [.i32] .i32 ops = .ok ([.i32, .i32], body) ∧
      List.Forall₂ (Operator.Writes ⟨[], [], [], []⟩)
        [.const (.i32 7), .const (.i32 9), .localSet 0]
        (body.nodes.filter fun e => !e.isControl && !e.isScratch 1) ∧
      ∃ v : Expr, v.ty = .i32 ∧
        body.nodes.filter (·.ownLocal? = some 1) =
          [.localSet 1 v false .void, .localGet 1 v.ty] := by
  intro ops body
  have haccepted : ofOperators ⟨[], [], [], []⟩ [] [.i32] .i32 ops = .ok ([.i32, .i32], body) := rfl
  have hnamed : ∀ op ∈ ops, ∀ i, op.ownLocal? = some i → i < ([] ++ [Ty.i32]).length := by
    simp [ops, Operator.ownLocal?]
  obtain ⟨hwrote, -, -, hscratch⟩ := ofOperators_order haccepted rfl hnamed
  obtain ⟨v, hty, hnodes⟩ := hscratch 1 (Nat.le_refl _) (by decide)
  exact ⟨haccepted, hwrote, v, (Option.some.inj hty).symm, hnodes⟩

end Expr

end WasmLift
