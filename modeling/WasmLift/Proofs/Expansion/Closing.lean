import WasmLift.Proofs.Expansion.Branches

/-!
# Closing frames

What happens at the end of a construct. First the value of the frame comes last
(`Builder.resultLast_finishes`), so that its nodes make up one block, sequence or arm. Then the
frame around it takes over again (`Builder.Taking.reopen`), and the finished nodes become part of
it: a branch that leaves a labeled block or restarts a labeled loop is a branch to the closed frame
(`Frame.onJump_matches`).
-/

namespace WasmLift

open Run

/-! ## Branches to the closed frame -/

namespace Frame

section
variable {h : Host} {α β : Type} {W : World h → World h → Prop} {R : α → β → Prop} {f : Frame}
  {outer : List Frame}

/-- The label of a frame is not that of a frame around it. -/
theorem label_ne
    (hordered : (f :: outer).Pairwise fun inner outer => outer.label.id < inner.label.id)
    {g : Frame} (hg : g ∈ outer) : f.label ≠ g.label := by
  intro hlabel
  have hlt := (List.pairwise_cons.1 hordered).1 g hg
  rw [hlabel] at hlt
  exact Nat.lt_irrefl _ hlt

/-- Handling the branches to a frame, in the tree by its label and on the stack by its depth. -/
theorem onJump_matches {x : Run h Label α} {y : Run h Nat β}
    {handle : Option Value → Run h Label α} {handle' : Option Value → Run h Nat β}
    (hordered : (f :: outer).Pairwise fun inner outer => outer.label.id < inner.label.id)
    (houter : outer ≠ []) (hxy : Matches W (Follows (f :: outer)) R x y)
    (hhandle : ∀ v, v.isSome = (f.branchTy != .void) →
      Matches W (Follows outer) R (handle v) (handle' v)) :
    Matches W (Follows outer) R
      (x.onJump fun target v =>
        if f.usedLabel = some target then handle v else throw (.jump target v))
      (y.onJump fun depth v =>
        match depth with
        | 0 => handle' v
        | depth + 1 => throw (.jump depth v)) := by
  intro w w' hw
  have hends := hxy w w' hw
  rw [onJump, onJump]
  generalize x w = rx at hends
  generalize y w' = ry at hends
  cases hends with
  | ok hr hw => exact .ok hr hw
  | error hx hw =>
    cases hx with
    | @jump depth g v hg hused hv =>
      cases depth with
      | zero =>
        cases hg
        dsimp only
        rw [if_pos (by simp [usedLabel, hused])]
        exact hhandle v hv _ _ hw
      | succ depth =>
        have hmem : g ∈ outer := List.mem_of_getElem? hg
        dsimp only
        rw [if_neg (by simp [usedLabel, label_ne hordered hmem])]
        exact .error (.jump hg hused hv) hw
    | @ret depth v hd =>
      cases depth with
      | zero => exact absurd (List.length_eq_zero_iff.1 (by simpa using hd.symm)) houter
      | succ depth => exact .error (.ret (by simpa using hd)) hw
    | trap t => exact .error (.trap t) hw
    | exhausted => exact .error .exhausted hw

/-- To catch the branches to a closed frame's label is, for the instructions, to leave the construct
by a branch of depth zero. -/
theorem catching_leaving {ty : Ty} {x : Run h Label (Option Value)} {y : Run h Nat (List Value)}
    (hordered : (f :: outer).Pairwise fun inner outer => outer.label.id < inner.label.id)
    (houter : outer ≠ []) (hty : f.branchTy = ty)
    (hxy : Matches W (Follows (f :: outer)) (Expr.Settles ty) x y) :
    Matches W (Follows outer) (Expr.Settles ty) (catching f.usedLabel x) (Instr.leaving y) :=
  onJump_matches hordered houter hxy fun _ hv => .pure (.of_toList (hty ▸ hv))

/-- To restart a loop by its label is, for the instructions, to restart it by a branch of depth
zero. -/
theorem looping_restarting {ty : Ty} {x : Run h Label (Option Value)} {y : Run h Nat (List Value)}
    (hordered : (f :: outer).Pairwise fun inner outer => outer.label.id < inner.label.id)
    (houter : outer ≠ []) (hxy : Matches W (Follows (f :: outer)) (Expr.Settles ty) x y) (k : Nat) :
    Matches W (Follows outer) (Expr.Settles ty) (looping f.usedLabel x k)
      (Instr.restarting y k) := by
  induction k with
  | zero => exact onJump_matches hordered houter hxy fun _ _ => .throw .exhausted
  | succ k ih => exact onJump_matches hordered houter hxy fun _ _ => ih

end

end Frame

namespace Builder

section
variable {h : Host} {resolve : NameId → Nat} {bound : Nat} {scope : Scope} {locals labels : List Ty}
  {b₀ b : Builder} {es : List Expr} {k : Nat} {M : Run h Nat (List Value)}

/-! ## The result comes last -/

/-- The frame to be closed, begun at `b₀`: its nodes make up its result. -/
structure Finished (h : Host) (resolve : NameId → Nat) (bound : Nat) (locals labels : List Ty)
    (b₀ : Builder) (f : Frame) (outer : List Frame) (M : Run h Nat (List Value)) (b : Builder) :
    Prop where
  grows : Grows b₀ b
  stands : Stands h resolve bound locals labels b f outer [] M
  complete : Expr.Complete h resolve bound f.result f.emitted
  live : f.unreachable = false → f.emitted.countP Expr.isValue = f.result.arity
  dead : f.unreachable = true → Gives (fun _ => False) M

/-- A node with a value is worth what it is as an operand. -/
theorem eval_value {e : Expr} (he : e.isValue = true) :
    Expr.eval h resolve bound e = some <$> Expr.operand h resolve bound e := by
  funext w
  rw [map_apply, Expr.operand, bind_apply]
  rcases hv : Expr.eval h resolve bound e w with ⟨_ | v, w'⟩
  · rfl
  obtain ⟨v, rfl⟩ : ∃ v', v = some v' := by
    rw [← Option.isSome_iff_exists, Expr.eval_isSome e _ _ _ hv, he]
  rfl

/-- A run that matches one that never reaches its end never does so either. -/
theorem gives_false {τ α β : Type} {n : Nat} {X : Exit τ → Exit Nat → Prop} {R : α → β → Prop}
    {x : Run h τ α} {y : Run h Nat β} (hxy : Matches (World.SameBelow n) X R x y) :
    Gives (fun _ => False) x ↔ Gives (fun _ => False) y := by
  constructor
  · intro hx w b w' hy
    have hends := hxy w w (.refl n w)
    rw [hy] at hends
    generalize hxw : x w = rx at hends
    cases hends with | ok => exact hx _ _ _ hxw
  · intro hy w a w' hx
    have hends := hxy w w (.refl n w)
    rw [hx] at hends
    generalize hyw : y w = ry at hends
    cases hends with | ok => exact hy _ _ _ hyw

/-- Without operands taken, the pending nodes only make up the stack. -/
theorem pending_nil (emitted : List Expr) :
    Expr.pending h resolve bound emitted [] =
      Expr.stackOn h resolve bound emitted [] >>= fun stack => pure (stack, []) := by
  simp [Expr.pending, Expr.operands]

/-- The meaning of a frame between two operators. -/
theorem meaning_iff {n : Nat} {frames : List Frame} {emitted : List Expr} :
    Matches (World.SameBelow n) (Frame.Follows frames) (fun p stack => stack = p.2.reverse ++ p.1)
      (Expr.pending h resolve bound emitted []) M ↔
    Matches (World.SameBelow n) (Frame.Follows frames) Eq
      (Expr.stackOn h resolve bound emitted []) M := by
  constructor
  · intro hm
    have hfst := (hm.and_gives (pending_length emitted []) .trivial).map (f := Prod.fst) (g := id)
      (S := Eq) fun p stack hp => by simp [hp.1, List.length_eq_zero_iff.1 hp.2.1]
    rw [id_map, pending_nil] at hfst
    simpa using hfst
  · intro hm
    rw [pending_nil, ← bind_pure M]
    exact hm.bind fun a b hab => .pure (by simp [hab])

/-- The innermost frame keeps its result while it grows. -/
theorem Grows.result {f f₀ : Frame} {outer outer₀ : List Frame} (hgrows : Grows b₀ b)
    (hf₀ : b₀.frames = f₀ :: outer₀) (hf : b.frames = f :: outer) : f.result = f₀.result := by
  have hframes := hgrows.frames
  rw [hf₀, hf] at hframes
  cases hframes with | cons hr _ => exact hr.result

/-- A node with a value goes on. -/
theorem isTerminator_of_isValue {e : Expr} (he : e.isValue = true) : e.isTerminator = false := by
  cases e with
  | br label condition value =>
    cases condition with
    | none => cases he
    | some => rfl
  | ret | unreachable | switch => cases he
  | _ => rfl

/-- A value emitted again. -/
theorem performs_self {n : Nat} {frames : List Frame} {e : Expr} (he : e.isValue = true) :
    Performs h resolve bound n frames [e] e (fun vs => pure vs.head?) pure where
  eval w _ := by
    have heval : Expr.eval h resolve bound e =
        Expr.operands h resolve bound [e] >>= fun vs => pure vs.head? := by
      rw [eval_value he]
      simp [Expr.operands]
    rw [heval]
  step vs stack hvs := by
    obtain ⟨v, rfl⟩ := List.length_eq_one_iff.1 hvs
    exact .pure rfl

/-- Once the value comes last, the nodes of the frame make up its result. -/
theorem resultLast_finishes {f₀ : Frame} {outer₀ : List Frame} (hf₀ : b₀.frames = f₀ :: outer₀)
    (hk : f₀.result.arity = k) (hb : Ready h resolve bound locals labels b₀ k M b) :
    Yields resultLast b fun _ b' => ∃ f outer,
      Finished h resolve bound locals labels b₀ f outer M b' := by
  rcases hb with ⟨hgrows, f, outer, hs, hlive, hcount⟩ | ⟨hgrows, f, outer, hs, hdead, hgives⟩
  · have hresult : f.result = f₀.result := hgrows.result hf₀ hs.frames
    rw [← hresult] at hk
    by_cases hty : f.result = .void
    · refine .of_eq (a := ()) (c := b) ?_ ⟨f, outer, hgrows, hs, ?_, ?_, ?_⟩
      · rw [resultLast, bind_run (top_run hs.frames)]
        simp [hty]
        rfl
      · exact .void hty (by rw [hcount, ← hk, hty]; rfl)
      · exact fun _ => hcount.trans hk.symm
      · exact fun hdead => by rw [hlive] at hdead; cases hdead
    · rw [arity_of_ne_void hty] at hk
      subst hk
      refine .after (top_run hs.frames) ?_
      rw [if_pos (by simp [hty, hlive])]
      refine (takeValue_keeps _ ⟨hgrows, f, outer, hs, hlive, hcount⟩).bind fun e b₁ hb₁ => ?_
      obtain ⟨hgrows₁, f₁, outer₁, hs₁, hlive₁, hcount₁⟩ := hb₁
      have he : e.isValue = true := hs₁.values e (.head _)
      have hresult₁ : f₁.result = f₀.result := hgrows₁.result hf₀ hs₁.frames
      have hlast : (e :: f₁.emitted).countP Expr.isValue = f₁.result.arity := by
        rw [List.countP_cons_of_pos he, hcount₁, hresult₁, ← hresult, arity_of_ne_void hty]
      have hemit := hs₁.emit (fun _ hbelow => hbelow e (.head _)) (performs_self he)
      rw [bind_pure] at hemit
      refine .of_eq (modifyTop_run hs₁.frames _)
        ⟨_, outer₁, hgrows₁.trans (hs₁.grows ?_ (List.prefix_refl _)), hemit _, ?_, ?_, ?_⟩
      · exact ⟨rfl, rfl, rfl, id⟩
      · exact .value (by rw [hresult₁, ← hresult]; exact hty) he hcount₁
      · exact fun _ => hlast
      · simp [hlive₁, isTerminator_of_isValue he]
  · refine .of_eq (a := ()) (c := b) ?_ ⟨f, outer, hgrows, hs, .dead ?_, ?_, fun _ => hgives⟩
    · rw [resultLast, bind_run (top_run hs.frames)]
      simp [hdead]
      rfl
    · exact (gives_false (meaning_iff.1 hs.meaning)).2 hgives
    · exact fun hlive => by rw [hdead] at hlive; cases hlive

/-! ## Back to the frame around -/

/-- When a frame is closed, the operator that opened it goes on in the frame around it. -/
theorem Taking.reopen {c : Builder} {f : Frame} {outer : List Frame} {labels' : List Ty}
    {N : Run h Nat (List Value)} (hb : Taking h resolve bound locals labels b₀ es k M b)
    (hwaits : List.Forall₂ Frame.Waits b.frames outer)
    (hlocals : b.locals.length ≤ c.locals.length)
    (hc : Stands h resolve bound locals labels' c f outer [] N) :
    Taking h resolve bound locals labels b₀ es k M { c with frames := outer } := by
  obtain ⟨hgrows, g, rest, hs, hlive, hcount⟩ := hb
  have hwaits' := hwaits
  rw [hs.frames] at hwaits'
  cases hwaits' with
  | @cons _ g' _ rest' hg hrest =>
    refine ⟨hgrows.trans ⟨hlocals, hwaits.imp fun _ _ hw => hw.toResumes, ?_⟩, g', rest',
      hs.wait hg hrest rfl hc.alive hc.declared hlocals ?_, by rw [hg.unreachable, hlive],
      by rw [hg.emitted, hcount]⟩
    · rw [hs.frames]
      exact hrest
    · have hlt := (List.pairwise_cons.1 hc.ordered).1 g' (.head _)
      have hfresh := hc.fresh
      rw [← hg.label]
      show g'.label.id < c.freshLabel
      omega

/-- What comes after a construct is dead if the construct never comes to its end. -/
theorem markDead_keeps {k' : Nat} (dead : Bool)
    (hb : Taking h resolve bound locals labels b₀ [] k M b) (hk : dead = false → k = k')
    (hdead : dead = true → Gives (fun _ => False) M) :
    Yields (markDead dead) b fun _ b' => Ready h resolve bound locals labels b₀ k' M b' := by
  obtain ⟨hgrows, f, outer, hs, hlive, hcount⟩ := hb
  let g := { f with unreachable := f.unreachable || dead }
  have hg : f.Resumes g := ⟨rfl, rfl, rfl, id⟩
  have hmarked :
      Stands h resolve bound locals labels { b with frames := g :: outer } g outer [] M :=
    hs.change hg (List.prefix_refl _) (by simp) hs.below hs.meaning
  have hgrown : Grows b₀ { b with frames := g :: outer } :=
    hgrows.trans (hs.grows hg (List.prefix_refl _))
  refine .of_eq (modifyTop_run hs.frames _) ?_
  cases dead with
  | false => exact .inl ⟨hgrown, g, outer, hmarked, by simp [g, hlive], hcount.trans (hk rfl)⟩
  | true => exact .inr ⟨hgrown, g, outer, hmarked, by simp [g], hdead rfl⟩

/-- To append a node that goes on is to put it in. -/
theorem append_single {e : Expr} (he : e.isTerminator = false) : append [e] = push e := by
  rw [append, push, he]
  simp

/-- A construct as one node, which may be the last that is reached. -/
theorem appendNode_keeps {e : Expr} {act : List Value → Run h Label (Option Value)}
    {step : List Value → Run h Nat (List Value)}
    (hb : Taking h resolve bound locals labels b₀ es k M b)
    (hbelow : locals.length ≤ b.locals.length → (∀ x ∈ es, Expr.Below b.locals.length x) →
      Expr.Below b.locals.length e)
    (he : Performs h resolve bound locals.length b.frames es e act step)
    (hgoes : e.isTerminator = false) (dead : Bool)
    (hdead : dead = true → ∀ stack, Gives (fun _ => False) (step stack)) :
    Yields (append [e] >>= fun _ => markDead dead) b fun _ b' =>
      Ready h resolve bound locals labels b₀ (e.ty.arity + k) (M >>= step) b' := by
  rw [append_single hgoes]
  exact (push_keeps hb hbelow he hgoes).bind fun _ b₁ hb₁ =>
    markDead_keeps dead hb₁ (fun _ => rfl) fun hd => .bind (hdead hd)

/-! ## Constructs as nodes -/

section
variable {f : Frame} {outer : List Frame} {c : Builder} {N : Run h Nat (List Value)}
  {labels' : List Ty}

/-- The results of a construct come on top of the operands from before it. -/
def above (y : Run h Nat (List Value)) (stack : List Value) : Run h Nat (List Value) := do
  let results ← y
  return results ++ stack

/-- A construct that never ends still does not with operands below it. -/
theorem above_gives {y : Run h Nat (List Value)} (hy : Gives (fun _ => False) y)
    (stack : List Value) : Gives (fun _ => False) (above y stack) :=
  hy.seq fun _ hfalse => hfalse.elim

/-- A settled construct, on top of the operands from before it. -/
theorem settle_above {n : Nat} {frames : List Frame} {ty : Ty} {x : Run h Label (Option Value)}
    {y : Run h Nat (List Value)}
    (hxy : Matches (World.SameBelow n) (Frame.Follows frames) (Expr.Settles ty) x y)
    (stack : List Value) :
    Matches (World.SameBelow n) (Frame.Follows frames) (fun v s => s = v.toList ++ stack)
      (x >>= settle ty) (above y stack) := by
  rw [← bind_pure (x >>= settle ty)]
  exact (Expr.settle_settles hxy).bind fun v r hr => .pure (by rw [hr])

/-- The statements of a finished frame do what its instructions do. -/
theorem Finished.statements (hf : Finished h resolve bound locals labels' c f outer N b) :
    Matches (World.SameBelow locals.length) (Frame.Follows (f :: outer)) (Expr.Settles f.result)
      (Expr.statements h resolve bound f.emitted.reverse) N := by
  have hmeaning := meaning_iff.1 hf.stands.meaning
  have hstatements := Expr.statements_settles hf.complete
  refine (Matches.trans (fun w => hstatements w w rfl) hmeaning fun hv hw => hv ▸ hw).mono
    (fun _ _ => id) ?_
  rintro v stack ⟨_, hsettles, rfl⟩
  exact hsettles

/-- The statements of a finished frame, put together as one node, do what its instructions do. -/
theorem Finished.sequence (hf : Finished h resolve bound locals labels' c f outer N b) :
    Matches (World.SameBelow locals.length) (Frame.Follows (f :: outer)) (Expr.Settles f.result)
      (Expr.eval h resolve bound (.sequence f.emitted.reverse f.result)) N := by
  have hmeaning := meaning_iff.1 hf.stands.meaning
  have hsequence := Expr.sequence_settles hf.complete
  refine (Matches.trans (fun w => hsequence w w rfl) hmeaning fun hv hw => hv ▸ hw).mono
    (fun _ _ => id) ?_
  rintro v stack ⟨_, hsettles, rfl⟩
  exact hsettles

/-- The locals of a sequence are those of its nodes. -/
theorem below_sequence {n : Nat} {nodes : List Expr} {ty : Ty} (hn : ∀ e ∈ nodes, Expr.Below n e) :
    Expr.Below n (.sequence nodes ty) := by
  match nodes, hn with
  | [], _ => exact .of_children rfl (List.forall_mem_nil _)
  | [e], hn => exact hn e (.head _)
  | _ :: _ :: _, hn => exact .of_children rfl hn

/-- A finished block, as a node, does what the instructions inside do once they are left. -/
theorem performs_block (houter : outer ≠ []) (hkind : f.branchTy = f.result)
    (hf : Finished h resolve bound locals labels' c f outer N b) :
    Performs h resolve bound locals.length outer []
      (.block f.usedLabel f.emitted.reverse f.result)
      (fun _ => Expr.eval h resolve bound (.block f.usedLabel f.emitted.reverse f.result))
      (above (Instr.leaving N)) where
  eval w _ := by simp [Expr.operands]
  step vs stack hvs := by
    rw [List.length_eq_zero_iff.1 hvs, Expr.eval]
    exact settle_above (Frame.catching_leaving hf.stands.ordered houter hkind hf.statements) stack

/-- A finished loop, as a node, does what its instructions do as often as they are restarted. -/
theorem performs_loop (houter : outer ≠ [])
    (hf : Finished h resolve bound locals labels' c f outer N b) :
    Performs h resolve bound locals.length outer []
      (.loop f.usedLabel (.sequence f.emitted.reverse f.result) f.result)
      (fun _ => Expr.eval h resolve bound
        (.loop f.usedLabel (.sequence f.emitted.reverse f.result) f.result))
      (above (Instr.restarting N bound)) where
  eval w _ := by simp [Expr.operands]
  step vs stack hvs := by
    rw [List.length_eq_zero_iff.1 hvs, Expr.eval]
    exact settle_above
      (Frame.looping_restarting hf.stands.ordered houter hf.sequence bound) stack

/-! ## Folding -/

/-- To catch every branch and take it again changes nothing. -/
theorem onJump_rethrow {α : Type} (x : Run h Label α) :
    (x.onJump fun target v => throw (.jump target v)) = x := by
  funext w
  rw [onJump]
  rcases x w with ⟨(_ | _ | _ | _ | _) | _, _⟩ <;> rfl

/-- The nodes of a block that no branch leaves do what the block does. -/
theorem Finished.stackOn (houter : outer ≠ []) (hunused : f.labelUsed = false)
    (hf : Finished h resolve bound locals labels' c f outer N b) :
    Matches (World.SameBelow locals.length) (Frame.Follows outer) Eq
      (Expr.stackOn h resolve bound f.emitted []) (Instr.leaving N) := by
  have hjump : Matches (World.SameBelow locals.length) (Frame.Follows outer) Eq
      ((Expr.stackOn h resolve bound f.emitted []).onJump fun target v =>
        if f.usedLabel = some target then pure v.toList else throw (.jump target v))
      (Instr.leaving N) :=
    Frame.onJump_matches hf.stands.ordered houter (meaning_iff.1 hf.stands.meaning)
      fun _ _ => .pure rfl
  simpa [Frame.usedLabel, hunused, onJump_rethrow] using hjump

/-- The nodes of a block that no branch leaves become nodes of the frame around it. -/
theorem appendNodes_keeps (houter : outer ≠ []) (hunused : f.labelUsed = false)
    (hf : Finished h resolve bound locals labels' c f outer N b)
    (hb : Taking h resolve bound locals labels b₀ [] k M { b with frames := outer }) :
    Yields (append f.emitted.reverse) { b with frames := outer } fun _ b' =>
      Taking h resolve bound locals labels b₀ [] (f.emitted.countP Expr.isValue + k)
        (M >>= above (Instr.leaving N)) b' := by
  obtain ⟨hgrows, g, rest, hs, hlive, hcount⟩ := hb
  obtain rfl : outer = g :: rest := hs.frames
  let g' := { g with emitted := f.emitted ++ g.emitted }
  have hg : g.Resumes g' := ⟨rfl, rfl, rfl, id⟩
  have hmeaning : Matches (World.SameBelow locals.length) (Frame.Follows (g :: rest)) Eq
      (Expr.stackOn h resolve bound (f.emitted ++ g.emitted) [])
      (M >>= above (Instr.leaving N)) := by
    rw [Expr.stackOn_append]
    refine (meaning_iff.1 hs.meaning).bind fun stack _ hstack => ?_
    subst hstack
    rw [← List.nil_append stack, Expr.stackOn_base, map_eq_pure_bind]
    exact (hf.stackOn houter hunused).bind fun r _ hr => .pure (by simp [hr])
  refine .of_eq (a := ()) (c := { b with frames := g' :: rest }) ?_
    ⟨hgrows.trans (hs.grows hg (List.prefix_refl _)), g', rest,
      hs.change hg (List.prefix_refl _) (by simp) ?_ (meaning_iff.2 hmeaning), hlive, ?_⟩
  · rw [append, modifyTop_run hs.frames, List.reverse_reverse]
  · intro e he
    rw [List.append_nil, List.mem_append] at he
    rcases he with he | he
    · exact hf.stands.below e (by simpa using he)
    · exact hs.below e (by simpa using he)
  · show (f.emitted ++ g.emitted).countP Expr.isValue = _
    rw [List.countP_append, hcount]

/-- Nothing follows a construct that no branch leaves and whose end is never reached. -/
theorem leaving_gives {n : Nat} {ty : Ty} {x : Run h Label (Option Value)} (houter : outer ≠ [])
    (hunused : f.labelUsed = false)
    (hordered : (f :: outer).Pairwise fun inner outer => outer.label.id < inner.label.id)
    (hty : f.branchTy = ty)
    (hx : Matches (World.SameBelow n) (Frame.Follows (f :: outer)) (Expr.Settles ty) x N)
    (hN : Gives (fun _ => False) N) : Gives (fun _ => False) (Instr.leaving N) := by
  have hlabel : f.usedLabel = none := by simp [Frame.usedLabel, hunused]
  have hcatching := Frame.catching_leaving hordered houter hty hx
  rw [hlabel, Expr.catching_none] at hcatching
  exact (gives_false hcatching).1 ((gives_false hx).2 hN)

/-- A finished block becomes part of the frame around it. -/
theorem fold_block (hkind : f.kind = .block)
    (hf : Finished h resolve bound locals labels' c f outer N b)
    (hb : Taking h resolve bound locals labels b₀ [] k M { b with frames := outer }) :
    Yields (fold f) { b with frames := outer } fun _ b' =>
      Ready h resolve bound locals labels b₀ (f.result.arity + k) (M >>= above (Instr.leaving N))
        b' := by
  have houter : outer ≠ [] := by
    obtain ⟨-, g, rest, hs, -, -⟩ := hb
    rw [show outer = g :: rest from hs.frames]
    exact List.cons_ne_nil _ _
  have hbranch : f.branchTy = f.result := by rw [Frame.branchTy, hkind]
  cases hused : f.labelUsed with
  | true =>
    have hfold : fold f = append [.block f.usedLabel f.emitted.reverse f.result] >>= fun _ =>
        markDead false := by
      simp [fold, hkind, Frame.usedLabel, hused]
    rw [hfold]
    refine appendNode_keeps hb (fun _ _ => ?_) (performs_block houter hbranch hf) rfl false
      (by rintro ⟨⟩)
    exact .of_children rfl fun e he => hf.stands.below e (by simpa [Expr.children] using he)
  | false =>
    have hfold : fold f = append f.emitted.reverse >>= fun _ => markDead f.unreachable := by
      simp [fold, hkind, Frame.usedLabel, hused]
    rw [hfold]
    refine (appendNodes_keeps houter hused hf hb).bind fun _ b₁ hb₁ => ?_
    refine markDead_keeps _ hb₁ (fun hlive => by rw [hf.live hlive]) fun hdead => .bind fun stack => ?_
    exact above_gives
      (leaving_gives houter hused hf.stands.ordered hbranch hf.statements (hf.dead hdead)) stack

/-- What is true of the results of a run and of what follows its branches is true of both together.
-/
theorem onJump_gives {τ τ' α : Type} {P : α → Prop} {x : Run h τ α}
    {handle : τ → Option Value → Run h τ' α} (hx : Gives P x)
    (hhandle : ∀ target v, Gives P (handle target v)) : Gives P (x.onJump handle) := by
  intro w a w' ha
  rw [onJump] at ha
  rcases hw : x w with ⟨(_ | _ | _ | _ | _) | _, _⟩ <;> rw [hw] at ha
  · exact hhandle _ _ _ _ _ ha
  · cases ha
  · cases ha
  · cases ha
  · cases ha
  · cases ha
    exact hx _ _ _ hw

/-- A loop whose rounds never end does not end. -/
theorem restarting_gives (hN : Gives (fun _ => False) N) (k : Nat) :
    Gives (fun _ => False) (Instr.restarting N k) := by
  induction k with
  | zero =>
    refine onJump_gives hN fun depth v => ?_
    cases depth <;> exact .throw
  | succ k ih =>
    refine onJump_gives hN fun depth v => ?_
    cases depth with
    | zero => exact ih
    | succ depth => exact .throw

/-- A finished loop becomes part of the frame around it. -/
theorem fold_loop (houter : outer ≠ []) (hkind : f.kind = .loop)
    (hf : Finished h resolve bound locals labels' c f outer N b)
    (hb : Taking h resolve bound locals labels b₀ [] k M { b with frames := outer }) :
    Yields (fold f) { b with frames := outer } fun _ b' =>
      Ready h resolve bound locals labels b₀ (f.result.arity + k)
        (M >>= above (Instr.restarting N bound)) b' := by
  rw [fold, hkind]
  refine appendNode_keeps hb (fun _ _ => ?_) (performs_loop houter hf) rfl _ fun hdead =>
    above_gives (restarting_gives (hf.dead hdead) bound)
  refine .of_children rfl fun e he => ?_
  obtain rfl := List.mem_singleton.1 he
  exact below_sequence fun e he => hf.stands.below e (by simpa using he)

/-! ## Conditionals -/

/-- What a conditional does on the stack. -/
def choosing (N N' : Run h Nat (List Value)) : List Value → Run h Nat (List Value)
  | c :: stack => above (Instr.leaving (if c.holds then N else N')) stack
  | [] => throw .stuck

/-- The value of a conditional, inside a block of the given label. -/
def chosen (h : Host) (resolve : NameId → Nat) (bound : Nat) (label : Option Label)
    (ifTrue : Expr) (ifFalse : Option Expr) (ty : Ty) (vs : List Value) :
    Run h Label (Option Value) :=
  onCondition vs fun c _ =>
    catching label ((if c.holds then Expr.eval h resolve bound ifTrue
      else Expr.arm h resolve bound ifFalse) >>= settle ty) >>= settle ty

/-- A block around a run that does not branch to it. -/
theorem catching_bind {α : Type} {label : Option Label} {x : Run h Label α}
    {g : α → Run h Label (Option Value)} {w : World h}
    (hx : ∀ target v w', x w = (.error (.jump target v), w') → label ≠ some target) :
    catching label (x >>= g) w = (x >>= fun a => catching label (g a)) w := by
  rw [bind_apply]
  rcases hw : x w with ⟨(⟨target, v⟩ | _ | _ | _ | _) | a, w'⟩
  · rw [catching, onJump, bind_apply_error hw]
    dsimp only
    rw [if_neg (hx _ _ _ hw)]
    rfl
  · rw [catching, onJump, bind_apply_error hw]
  · rw [catching, onJump, bind_apply_error hw]
  · rw [catching, onJump, bind_apply_error hw]
  · rw [catching, onJump, bind_apply_error hw]
  · rw [catching, onJump, bind_apply_ok hw]
    rfl

/-- To settle a value twice is to settle it once. -/
theorem settle_idem (ty : Ty) (v : Option Value) :
    (settle ty v >>= settle ty : Run h Label (Option Value)) = settle ty v := by
  by_cases hty : ty = .void
  · simp [settle, hty]
  · cases v <;> simp [settle, hty, demand]

/-- The node of a conditional: inside a labeled block if a branch leaves it. -/
def conditional (label : Option Label) (condition ifTrue : Expr) (ifFalse : Option Expr) (ty : Ty) :
    Expr :=
  match label with
  | some _ => .block label [.ite condition ifTrue ifFalse ty] ty
  | none => .ite condition ifTrue ifFalse ty

/-- A conditional runs its condition first, and then an arm inside its block. Exits of the condition
pass the block, whose label is newer than those they name. -/
theorem eval_conditional {condition ifTrue : Expr} {ifFalse : Option Expr} {ty : Ty} {w : World h}
    (hordered : (f :: outer).Pairwise fun inner outer => outer.label.id < inner.label.id)
    (hexits : ∀ x w', Expr.operands h resolve bound [condition] w = (.error x, w') →
      ∃ x', Frame.Follows outer x x') :
    Expr.eval h resolve bound (conditional f.usedLabel condition ifTrue ifFalse ty) w =
      (Expr.operands h resolve bound [condition] >>=
        chosen h resolve bound f.usedLabel ifTrue ifFalse ty) w := by
  have hcondition : (Expr.operands h resolve bound [condition] >>=
      chosen h resolve bound f.usedLabel ifTrue ifFalse ty) =
      Expr.operand h resolve bound condition >>= fun c =>
        catching f.usedLabel ((if c.holds then Expr.eval h resolve bound ifTrue
          else Expr.arm h resolve bound ifFalse) >>= settle ty) >>= settle ty := by
    simp [Expr.operands, chosen, onCondition]
  rw [hcondition]
  cases hused : f.labelUsed with
  | true =>
    have hlabel : f.usedLabel = some f.label := by simp [Frame.usedLabel, hused]
    -- The condition runs inside the block, but does not branch to it.
    have hjumps : ∀ target v w', Expr.operand h resolve bound condition w =
        (.error (.jump target v), w') → some f.label ≠ some target := by
      intro target v w' hw hlabel
      have hoperands : Expr.operands h resolve bound [condition] w =
          (.error (.jump target v), w') := by
        rw [Expr.operands]
        exact bind_apply_error hw _
      obtain ⟨x', hfollows⟩ := hexits _ _ hoperands
      cases hfollows with
      | jump hg _ _ =>
        exact Frame.label_ne hordered (List.mem_of_getElem? hg) (Option.some.inj hlabel)
    have heval : Expr.eval h resolve bound
        (conditional (some f.label) condition ifTrue ifFalse ty) =
        catching (some f.label) (Expr.operand h resolve bound condition >>= fun c =>
          (if c.holds then Expr.eval h resolve bound ifTrue
            else Expr.arm h resolve bound ifFalse) >>= settle ty) >>= settle ty := by
      simp only [conditional, Expr.eval, Expr.statements, bind_pure]
    rw [hlabel, heval, bind_apply, catching_bind hjumps, ← bind_apply, bind_assoc]
  | false =>
    have hlabel : f.usedLabel = none := by simp [Frame.usedLabel, hused]
    rw [hlabel]
    simp only [conditional, Expr.eval, Expr.catching_none, bind_assoc, settle_idem]

/-- A conditional does what the instructions of its arms do, according to its condition. -/
theorem performs_conditional (condition : Expr) {ifTrue : Expr} {ifFalse : Option Expr}
    {N' : Run h Nat (List Value)} {n : Nat} {ty : Ty} (houter : outer ≠ [])
    (hordered : (f :: outer).Pairwise fun inner outer => outer.label.id < inner.label.id)
    (hty : f.branchTy = ty)
    (htrue : Matches (World.SameBelow n) (Frame.Follows (f :: outer)) (Expr.Settles ty)
      (Expr.eval h resolve bound ifTrue) N)
    (hfalse : Matches (World.SameBelow n) (Frame.Follows (f :: outer)) (Expr.Settles ty)
      (Expr.arm h resolve bound ifFalse) N') :
    Performs h resolve bound n outer [condition]
      (conditional f.usedLabel condition ifTrue ifFalse ty)
      (chosen h resolve bound f.usedLabel ifTrue ifFalse ty) (choosing N N') where
  eval w hexits := eval_conditional hordered hexits
  step vs stack hvs := by
    refine onCondition_matches hvs fun us c hus => ?_
    rw [List.length_eq_zero_iff.1 hus]
    refine settle_above (Frame.catching_leaving hordered houter hty (Expr.settle_again ?_)) stack
    split
    · exact htrue
    · exact hfalse

/-- A conditional neither of whose arms ends does not end. -/
theorem choosing_gives {N' : Run h Nat (List Value)} (hN : Gives (fun _ => False) (Instr.leaving N))
    (hN' : Gives (fun _ => False) (Instr.leaving N')) (stack : List Value) :
    Gives (fun _ => False) (choosing N N' stack) := by
  cases stack with
  | nil => exact .throw
  | cons c stack =>
    refine above_gives ?_ stack
    split
    · exact hN
    · exact hN'

/-- A conditional is appended as its node. -/
theorem appendConditional_eq (label : Option Label) (condition ifTrue : Expr)
    (ifFalse : Option Expr) (ty : Ty) :
    appendConditional label ty (.ite condition ifTrue ifFalse ty) =
      append [conditional label condition ifTrue ifFalse ty] := by
  cases label <;> rfl

/-- The node of a conditional has the type of the conditional. -/
theorem conditional_ty (label : Option Label) (condition ifTrue : Expr) (ifFalse : Option Expr)
    (ty : Ty) : (conditional label condition ifTrue ifFalse ty).ty = ty := by
  cases label <;> rfl

/-- The node of a conditional does not count as one that never goes on. -/
theorem conditional_isTerminator (label : Option Label) (condition ifTrue : Expr)
    (ifFalse : Option Expr) (ty : Ty) :
    (conditional label condition ifTrue ifFalse ty).isTerminator = false := by
  cases label <;> rfl

/-- The locals of a conditional are those of its condition and its arms. -/
theorem below_conditional {n : Nat} {condition ifTrue : Expr} {ifFalse : Option Expr}
    (hcondition : Expr.Below n condition) (htrue : Expr.Below n ifTrue)
    (hfalse : ∀ e ∈ ifFalse, Expr.Below n e) (label : Option Label) (ty : Ty) :
    Expr.Below n (conditional label condition ifTrue ifFalse ty) := by
  have hite : Expr.Below n (.ite condition ifTrue ifFalse ty) := by
    refine .of_children rfl fun e he => ?_
    simp only [Expr.children, List.mem_cons, Option.mem_toList] at he
    rcases he with rfl | rfl | he
    · exact hcondition
    · exact htrue
    · exact hfalse e he
  cases label with
  | none => exact hite
  | some label => exact .of_children rfl (List.forall_mem_singleton.2 hite)

/-- A finished conditional with one arm becomes part of the frame around it. -/
theorem fold_ifThen {condition : Expr} (houter : outer ≠ []) (hkind : f.kind = .ifThen condition)
    (hresult : f.result = .void)
    (hf : Finished h resolve bound locals labels' c f outer N b)
    (hb : Taking h resolve bound locals labels b₀ [condition] k M { b with frames := outer }) :
    Yields (fold f) { b with frames := outer } fun _ b' =>
      Ready h resolve bound locals labels b₀ k (M >>= choosing N (pure [])) b' := by
  have hbranch : f.branchTy = f.result := by rw [Frame.branchTy, hkind]
  have hfalse : Matches (World.SameBelow locals.length) (Frame.Follows (f :: outer))
      (Expr.Settles f.result) (Expr.arm h resolve bound none) (pure []) :=
    .pure (by simp [Expr.Settles, hresult])
  have hnode := performs_conditional condition houter hf.stands.ordered hbranch hf.sequence hfalse
  rw [fold, hkind]
  dsimp only
  rw [appendConditional_eq, append_single (conditional_isTerminator _ _ _ _ _)]
  refine (push_keeps hb (fun _ hbelow => ?_) hnode (conditional_isTerminator _ _ _ _ _)).mono
    fun _ b₁ hb₁ => .inl ?_
  · refine below_conditional (hbelow condition (.head _)) ?_ (by simp) _ _
    exact below_sequence fun e he => hf.stands.below e (by simpa using he)
  · rwa [conditional_ty, hresult, Ty.arity, if_pos rfl, Nat.zero_add] at hb₁

/-- A finished conditional with two arms becomes part of the frame around it. -/
theorem fold_ifElse {condition : Expr} {thenArm : List Expr} {thenDead : Bool}
    {N' : Run h Nat (List Value)} (houter : outer ≠ [])
    (hkind : f.kind = .ifElse condition thenArm thenDead)
    (hthen : Matches (World.SameBelow locals.length) (Frame.Follows (f :: outer))
      (Expr.Settles f.result) (Expr.eval h resolve bound (.sequence thenArm f.result)) N)
    (hthenBelow : ∀ e ∈ thenArm, Expr.Below b.locals.length e)
    (hthenDead : thenDead = true → Gives (fun _ => False) N)
    (hf : Finished h resolve bound locals labels' c f outer N' b)
    (hb : Taking h resolve bound locals labels b₀ [condition] k M { b with frames := outer }) :
    Yields (fold f) { b with frames := outer } fun _ b' =>
      Ready h resolve bound locals labels b₀ (f.result.arity + k) (M >>= choosing N N') b' := by
  have hbranch : f.branchTy = f.result := by rw [Frame.branchTy, hkind]
  have hfalse : Matches (World.SameBelow locals.length) (Frame.Follows (f :: outer))
      (Expr.Settles f.result)
      (Expr.arm h resolve bound (some (.sequence f.emitted.reverse f.result))) N' := hf.sequence
  have hnode := performs_conditional condition houter hf.stands.ordered hbranch hthen hfalse
  rw [fold, hkind]
  dsimp only
  rw [appendConditional_eq]
  have happend := appendNode_keeps hb (fun _ hbelow => ?_) hnode
    (conditional_isTerminator _ _ _ _ _) (thenDead && f.unreachable && !f.labelUsed) ?_
  · rwa [conditional_ty] at happend
  · refine below_conditional (hbelow condition (.head _)) (below_sequence hthenBelow) ?_ _ _
    rintro e ⟨⟩
    exact below_sequence fun e he => hf.stands.below e (by simpa using he)
  · intro hdead
    simp only [Bool.and_eq_true, Bool.not_eq_true'] at hdead
    have hordered := hf.stands.ordered
    exact choosing_gives
      (leaving_gives houter hdead.2 hordered hbranch hthen (hthenDead hdead.1.1))
      (leaving_gives houter hdead.2 hordered hbranch hf.sequence (hf.dead hdead.1.2))

/-! ## Closing -/

/-- A construct is closed once its value comes last and its nodes are folded into the frame around.
-/
theorem close_yields {f₀ : Frame} {outer₀ : List Frame} {Q : Unit → Builder → Prop}
    (hf₀ : b₀.frames = f₀ :: outer₀) (hk : f₀.result.arity = k)
    (hb : Ready h resolve bound locals labels b₀ k M b)
    (hfold : ∀ f outer b', Finished h resolve bound locals labels b₀ f outer M b' →
      Yields (fold f) { b' with frames := outer } Q) : Yields close b Q := by
  refine (resultLast_finishes hf₀ hk hb).bind fun _ b₁ ⟨f, outer, hf⟩ => ?_
  refine .after (top_run hf.stands.frames) ?_
  refine .after (a := ()) (c := { b₁ with frames := outer }) ?_ (hfold f outer b₁ hf)
  show Except.ok ((), { b₁ with frames := b₁.frames.tail }) = _
  rw [hf.stands.frames]
  rfl

end

end

end Builder

end WasmLift
