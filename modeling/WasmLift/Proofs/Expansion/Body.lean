import WasmLift.Proofs.Expansion.Closing
import WasmLift.Proofs.Expansion.DeadCode

/-!
# Rebuilding a whole body

The operators of valid instructions are rebuilt without an error, and what is emitted does what the
instructions do (`Builder.rebuildAll_keeps`). The proof goes by induction on validity: each
instruction is rebuilt in the frame it stands in, its inner instructions in a frame of their own.
Code that is never reached is passed over (`Builder.passOver_instrs`). At the end the function's own
frame becomes the body (`Builder.ofOperators_matches`).
-/

namespace WasmLift

open Run

namespace Builder

/-! ## Opening and closing -/

section
variable {h : Host} {resolve : NameId → Nat} {bound : Nat} {scope : Scope} {locals labels : List Ty}
  {b₀ b : Builder} {es : List Expr} {k k' : Nat} {M : Run h Nat (List Value)}

/-- A builder that takes operands is in code that can be reached. -/
theorem Taking.isDead (hb : Taking h resolve bound locals labels b₀ es k M b) :
    b.isDead = false := by
  obtain ⟨-, f, outer, hs, hlive, -⟩ := hb
  rw [Builder.isDead, hs.frames]
  exact hlive

/-- A builder whose frame has ended passes over what follows. -/
theorem Ended.isDead (hb : Ended h resolve bound locals labels b₀ M b) : b.isDead = true := by
  obtain ⟨-, f, outer, hs, hdead, -⟩ := hb
  rw [Builder.isDead, hs.frames]
  exact hdead

/-- What is not reached adds nothing. -/
theorem Ended.bind (hb : Ended h resolve bound locals labels b₀ M b)
    (step : List Value → Run h Nat (List Value)) :
    Ended h resolve bound locals labels b₀ (M >>= step) b := by
  obtain ⟨hgrows, f, outer, hs, hdead, hgives⟩ := hb
  have hM : (M >>= step) = M := by
    funext w
    rw [bind_apply]
    rcases hw : M w with ⟨_ | stack, w'⟩
    · rfl
    · exact (hgives _ _ _ hw).elim
  rw [hM]
  exact ⟨hgrows, f, outer, hs, hdead, hgives⟩

/-- A builder is ready on its own account, wherever it started. -/
theorem Ready.here (hb : Ready h resolve bound locals labels b₀ k M b) :
    Ready h resolve bound locals labels b k M b :=
  hb.imp (⟨.refl b, ·.2⟩) (⟨.refl b, ·.2⟩)

/-- A builder that is ready since a later point is ready since an earlier one. -/
theorem Ready.since {c : Builder} (hb : Ready h resolve bound locals labels b₀ k M b)
    (hgrows : Grows c b₀) : Ready h resolve bound locals labels c k M b :=
  hb.imp (fun hb => ⟨hgrows.trans hb.1, hb.2⟩) (fun hb => ⟨hgrows.trans hb.1, hb.2⟩)

/-- A builder that is ready has grown from where it started. -/
theorem Ready.grows (hb : Ready h resolve bound locals labels b₀ k M b) : Grows b₀ b :=
  hb.elim (·.1) (·.1)

/-- In a builder that is ready, the frames stand for the run so far, with nothing taken. -/
theorem Ready.stands (hb : Ready h resolve bound locals labels b₀ k M b) :
    ∃ f outer, Stands h resolve bound locals labels b f outer [] M :=
  hb.elim (fun ⟨_, f, outer, hs, _⟩ => ⟨f, outer, hs⟩) (fun ⟨_, f, outer, hs, _⟩ => ⟨f, outer, hs⟩)

/-- No construct that is opened in dead code is open when a builder is ready. -/
theorem Ready.alive (hb : Ready h resolve bound locals labels b₀ k M b) : b.deadConstructs = 0 := by
  obtain ⟨f, outer, hs⟩ := hb.stands
  exact hs.alive

/-- The state after a construct was opened. -/
def opened (b : Builder) (kind : FrameKind) (result : Ty) : Builder :=
  { b with
    frames := { kind := kind, label := ⟨b.freshLabel⟩, result := result } :: b.frames
    freshLabel := b.freshLabel + 1 }

/-- The inside of a construct begins with no operands. -/
theorem Taking.enter {kind : FrameKind} {result ty : Ty}
    (hb : Taking h resolve bound locals labels b₀ es k M b)
    (hty : Frame.branchTy { kind := kind, label := ⟨b.freshLabel⟩, result := result } = ty) :
    Ready h resolve bound locals (ty :: labels) (b.opened kind result) 0 (pure [])
      (b.opened kind result) := by
  obtain ⟨-, f, outer, hs, -, -⟩ := hb
  let g : Frame := { kind := kind, label := ⟨b.freshLabel⟩, result := result }
  have hframes : (b.opened kind result).frames = g :: f :: outer := by rw [← hs.frames]; rfl
  have hnewest : ∀ g' ∈ f :: outer, g'.label.id < b.freshLabel := by
    intro g' hg'
    rcases List.mem_cons.1 hg' with rfl | hg'
    · exact hs.fresh
    · exact Nat.lt_trans ((List.pairwise_cons.1 hs.ordered).1 g' hg') hs.fresh
  refine .inl ⟨.refl _, g, f :: outer, ?_, rfl, rfl⟩
  refine ⟨hframes, hs.alive, hs.declared, ?_, ?_, Nat.lt_succ_self _, ?_, by simp, by simp [g], ?_⟩
  · rw [List.map_cons, ← hs.carries, hty]
  · exact List.pairwise_cons.2 ⟨hnewest, hs.ordered⟩
  · simpa using hs.function
  · exact meaning_iff.2 (.pure rfl)

/-- The type of a construct that the scope knows is found, and nothing else changes. -/
theorem blockTy_run {type : BlockType} {ty : Ty} (ht : scope.constructTy? type = some ty) :
    blockTy scope type b = .ok (ty, b) := by
  have ofValType : ∀ {type : ValType}, Ty.ofValType? type = some ty →
      (Ty.ofValType type : Except Cause Ty) = .ok ty := fun hty => by rw [Ty.ofValType, hty]
  cases type with
  | empty =>
    cases ht
    rfl
  | value type =>
    rw [blockTy, ofValType ht]
    rfl
  | declared index =>
    rw [Scope.constructTy?] at ht
    rw [blockTy]
    split at ht
    · next htype =>
      cases ht
      rw [htype]
      rfl
    · next type htype =>
      rw [htype]
      simp only [List.isEmpty_nil, Bool.not_true, Bool.false_eq_true, if_false]
      rw [Signature.ofFuncType]
      simp only [List.mapM_nil, pure_bind]
      rw [ofValType ht]
      rfl
    · cases ht

/-- A list of one operator is rebuilt as that operator. -/
theorem rebuildAll_single (op : Operator) : rebuildAll scope [op] = rebuild scope op := by
  rw [rebuildAll, rebuildAll]
  exact bind_pure_unit

/-- What grows from a construct just opened has its frame on top and the old ones waiting. -/
theorem Grows.opened {kind : FrameKind} {result : Ty} {c : Builder} {f : Frame} {outer : List Frame}
    (hgrows : Grows (b.opened kind result) c) (hc : c.frames = f :: outer) :
    f.kind = kind ∧ f.result = result ∧ List.Forall₂ Frame.Waits b.frames outer := by
  have hframes := hgrows.frames
  have houter := hgrows.outer
  rw [hc] at hframes houter
  cases hframes with
  | cons hr _ => exact ⟨hr.kind, hr.result, houter⟩

/-- A builder that takes operands is in some frame. -/
theorem Taking.frames_ne_nil (hb : Taking h resolve bound locals labels b₀ es k M b) :
    b.frames ≠ [] := by
  obtain ⟨-, f, outer, hs, -, -⟩ := hb
  rw [hs.frames]
  nofun

/-- A construct, from the moment it is open. -/
theorem enclose_yields {kind : FrameKind} {result ty : Ty} {body : List Instr}
    {Q : Unit → Builder → Prop} (hb : Taking h resolve bound locals labels b₀ es k M b)
    (hty : Frame.branchTy { kind := kind, label := ⟨b.freshLabel⟩, result := result } = ty)
    (hbody : ∀ c N, Ready h resolve bound locals (ty :: labels) c 0 N c →
      Yields (rebuildAll scope (Instr.flattenAll body)) c fun _ c' =>
        Ready h resolve bound locals (ty :: labels) c result.arity
          (N >>= Instr.execAll h scope bound body (ty :: labels)) c')
    (hfold : ∀ f outer c, f.kind = kind → f.result = result → outer ≠ [] →
      Finished h resolve bound locals (ty :: labels) (b.opened kind result) f outer
        (Instr.execAll h scope bound body (ty :: labels) []) c →
      Taking h resolve bound locals labels b₀ es k M { c with frames := outer } →
      Yields (fold f) { c with frames := outer } Q) :
    Yields (rebuildAll scope (Instr.flattenAll body ++ [Operator.finish])) (b.opened kind result)
      Q := by
  rw [rebuildAll_append]
  refine (hbody _ _ (hb.enter hty)).bind fun _ c hc => ?_
  rw [pure_bind] at hc
  rw [rebuildAll_single]
  have hopened : (b.opened kind result).frames =
      { kind := kind, label := ⟨b.freshLabel⟩, result := result } :: b.frames := rfl
  refine .congr (rebuild_finish hc.alive) (close_yields hopened rfl hc fun f outer c' hf => ?_)
  obtain ⟨hkind, hresult, hwaits⟩ := hf.grows.opened hf.stands.frames
  refine hfold f outer c' hkind hresult ?_ hf (hb.reopen hwaits hf.grows.locals hf.stands)
  rintro rfl
  exact hb.frames_ne_nil (List.forall₂_nil_right_iff.1 hwaits)

/-! ## Instructions -/

/-- A block keeps the invariant, if its inner instructions do in a frame of their own. -/
theorem block_keeps {type : BlockType} {ty : Ty} {body : List Instr}
    (ht : scope.constructTy? type = some ty)
    (hbody : ∀ c N, Ready h resolve bound locals (ty :: labels) c 0 N c →
      Yields (rebuildAll scope (Instr.flattenAll body)) c fun _ c' =>
        Ready h resolve bound locals (ty :: labels) c ty.arity
          (N >>= Instr.execAll h scope bound body (ty :: labels)) c')
    (hb : Taking h resolve bound locals labels b [] k M b) :
    Yields (rebuildAll scope (Instr.flatten (.block type body))) b fun _ b' =>
      Ready h resolve bound locals labels b (ty.arity + k)
        (M >>= Instr.exec h scope bound (.block type body) labels) b' := by
  have hopen : rebuild scope (.block type) b = .ok ((), b.opened .block ty) := by
    rw [rebuild_live hb.isDead, rebuildLive, bind_run (blockTy_run ht)]
    rfl
  refine .after hopen (enclose_yields hb rfl hbody fun f outer c hkind hresult houter hf hc => ?_)
  have hexec : Instr.exec h scope bound (.block type body) labels =
      above (Instr.leaving (Instr.execAll h scope bound body (ty :: labels) [])) := by
    funext stack
    rw [Instr.exec, ht]
    rfl
  rw [hexec, ← hresult]
  subst hresult
  exact fold_block hkind hf hc

/-- A loop keeps the invariant, if its inner instructions do in a frame that jumps back. -/
theorem loop_keeps {type : BlockType} {ty : Ty} {body : List Instr}
    (ht : scope.constructTy? type = some ty)
    (hbody : ∀ c N, Ready h resolve bound locals (.void :: labels) c 0 N c →
      Yields (rebuildAll scope (Instr.flattenAll body)) c fun _ c' =>
        Ready h resolve bound locals (.void :: labels) c ty.arity
          (N >>= Instr.execAll h scope bound body (.void :: labels)) c')
    (hb : Taking h resolve bound locals labels b [] k M b) :
    Yields (rebuildAll scope (Instr.flatten (.loop type body))) b fun _ b' =>
      Ready h resolve bound locals labels b (ty.arity + k)
        (M >>= Instr.exec h scope bound (.loop type body) labels) b' := by
  have hopen : rebuild scope (.loop type) b = .ok ((), b.opened .loop ty) := by
    rw [rebuild_live hb.isDead, rebuildLive, bind_run (blockTy_run ht)]
    rfl
  refine .after hopen (enclose_yields hb rfl hbody fun f outer c hkind hresult houter hf hc => ?_)
  have hexec : Instr.exec h scope bound (.loop type body) labels =
      above (Instr.restarting (Instr.execAll h scope bound body (.void :: labels) []) bound) := by
    funext stack
    rw [Instr.exec]
    rfl
  rw [hexec, ← hresult]
  exact fold_loop houter hkind hf hc

/-- The start of a conditional takes its condition and opens a frame for it. -/
theorem openIf_keeps {type : BlockType} {ty : Ty} (ht : scope.constructTy? type = some ty)
    (hb : Taking h resolve bound locals labels b [] (1 + k) M b) :
    Yields (rebuild scope (.ifThen type)) b fun _ c => ∃ condition c',
      c = c'.opened (.ifThen condition) ty ∧
        Taking h resolve bound locals labels b [condition] k M c' := by
  refine .congr (rebuild_live hb.isDead) (.after (blockTy_run ht) ?_)
  rw [Nat.add_comm] at hb
  exact (takeValue_keeps _ hb).bind fun condition c' hc' => .of_eq rfl ⟨condition, c', rfl, hc'⟩

/-- A conditional without an alternative keeps the invariant, if its inner instructions do. -/
theorem ifThen_keeps {type : BlockType} {body : List Instr}
    (ht : scope.constructTy? type = some .void)
    (hbody : ∀ c N, Ready h resolve bound locals (.void :: labels) c 0 N c →
      Yields (rebuildAll scope (Instr.flattenAll body)) c fun _ c' =>
        Ready h resolve bound locals (.void :: labels) c 0
          (N >>= Instr.execAll h scope bound body (.void :: labels)) c')
    (hb : Taking h resolve bound locals labels b [] (1 + k) M b) :
    Yields (rebuildAll scope (Instr.flatten (.ifThen type body))) b fun _ b' =>
      Ready h resolve bound locals labels b k
        (M >>= Instr.exec h scope bound (.ifThen type body) labels) b' := by
  refine (openIf_keeps ht hb).bind fun _ _ ⟨condition, c', hopened, hc'⟩ => ?_
  subst hopened
  refine enclose_yields hc' rfl hbody fun f outer c hkind hresult houter hf hc => ?_
  have hexec : Instr.exec h scope bound (.ifThen type body) labels =
      choosing (Instr.execAll h scope bound body (.void :: labels) []) (pure []) := by
    funext stack
    cases stack <;> simp only [Instr.exec, ht] <;> rfl
  rw [hexec]
  exact fold_ifThen houter hkind hresult hf hc

/-- The first arm of a conditional, once it is put aside. -/
structure ThenArm (h : Host) (resolve : NameId → Nat) (bound : Nat) (locals : List Ty) (f : Frame)
    (outer : List Frame) (nodes : List Expr) (dead : Bool) (N : Run h Nat (List Value))
    (b : Builder) : Prop where
  meaning : Matches (World.SameBelow locals.length) (Frame.Follows (f :: outer))
    (Expr.Settles f.result) (Expr.eval h resolve bound (.sequence nodes f.result)) N
  below : ∀ e ∈ nodes, Expr.Below b.locals.length e
  dead : dead = true → Gives (fun _ => False) N

/-- The second arm begins as the first did. -/
theorem beginElse_keeps {condition : Expr} {ty : Ty} {N : Run h Nat (List Value)} {c : Builder}
    (hb : Taking h resolve bound locals labels b₀ es k M b)
    (hc : Ready h resolve bound locals (ty :: labels) (b.opened (.ifThen condition) ty) ty.arity N
      c) :
    Yields beginElse c fun _ c' => ∃ f outer nodes dead,
      c'.frames = f :: outer ∧ f.kind = .ifElse condition nodes dead ∧ f.result = ty ∧
      List.Forall₂ Frame.Waits b.frames outer ∧ b.locals.length ≤ c'.locals.length ∧
      ThenArm h resolve bound locals f outer nodes dead N c' ∧
      Ready h resolve bound locals (ty :: labels) c' 0 (pure []) c' := by
  have hopened : (b.opened (.ifThen condition) ty).frames =
      { kind := .ifThen condition, label := ⟨b.freshLabel⟩, result := ty } :: b.frames := rfl
  refine (resultLast_finishes hopened rfl hc).bind fun _ c₁ ⟨f, outer, hf⟩ => ?_
  obtain ⟨hkind, hresult, hwaits⟩ := hf.grows.opened hf.stands.frames
  let f' := { f with
    kind := .ifElse condition f.emitted.reverse f.unreachable
    emitted := []
    unreachable := false }
  have hbranch : f'.branchTy = f.branchTy := by rw [Frame.branchTy, Frame.branchTy, hkind]
  refine .after (top_run hf.stands.frames) ?_
  rw [hkind]
  refine .of_eq (modifyTop_run hf.stands.frames _)
    ⟨f', outer, f.emitted.reverse, f.unreachable, ?_, rfl, hresult, hwaits, hf.grows.locals, ?_, ?_⟩
  · rfl
  · refine ⟨hf.sequence.mono (fun _ _ => .relabel hbranch rfl id) fun _ _ => id, ?_, hf.dead⟩
    exact fun e he => hf.stands.below e (by simpa using he)
  · have hs := hf.stands
    have houter : outer ≠ [] := by
      rintro rfl
      exact hb.frames_ne_nil (List.forall₂_nil_right_iff.1 hwaits)
    refine .inl ⟨.refl _, f', outer, ⟨rfl, hs.alive, hs.declared, ?_, ?_, hs.fresh, ?_, by simp, by simp [f'],
      meaning_iff.2 (.pure rfl)⟩, rfl, rfl⟩
    · rw [hs.carries, List.map_cons, List.map_cons, hbranch]
    · exact List.pairwise_cons.2 (List.pairwise_cons.1 hs.ordered)
    · have hfunction := hs.function
      rw [List.getLast?_cons_of_ne_nil houter] at hfunction ⊢
      exact hfunction

/-- A conditional with two arms keeps the invariant, if the instructions of both do. -/
theorem ifElse_keeps {type : BlockType} {ty : Ty} {body other : List Instr}
    (ht : scope.constructTy? type = some ty)
    (hbody : ∀ c N, Ready h resolve bound locals (ty :: labels) c 0 N c →
      Yields (rebuildAll scope (Instr.flattenAll body)) c fun _ c' =>
        Ready h resolve bound locals (ty :: labels) c ty.arity
          (N >>= Instr.execAll h scope bound body (ty :: labels)) c')
    (hother : ∀ c N, Ready h resolve bound locals (ty :: labels) c 0 N c →
      Yields (rebuildAll scope (Instr.flattenAll other)) c fun _ c' =>
        Ready h resolve bound locals (ty :: labels) c ty.arity
          (N >>= Instr.execAll h scope bound other (ty :: labels)) c')
    (hb : Taking h resolve bound locals labels b [] (1 + k) M b) :
    Yields (rebuildAll scope (Instr.flatten (.ifElse type body other))) b fun _ b' =>
      Ready h resolve bound locals labels b (ty.arity + k)
        (M >>= Instr.exec h scope bound (.ifElse type body other) labels) b' := by
  refine (openIf_keeps ht hb).bind fun _ _ ⟨condition, c, hopened, hc⟩ => ?_
  subst hopened
  rw [rebuildAll_append]
  refine (hbody _ _ (hc.enter rfl)).bind fun _ c₁ hc₁ => ?_
  rw [pure_bind] at hc₁
  refine .bind (.congr (rebuild_else hc₁.alive) (beginElse_keeps hc hc₁)) ?_
  rintro _ c₂ ⟨f, outer, nodes, dead, hframes, hkind, hresult, hwaits, hlocals, hthen, hc₂⟩
  rw [rebuildAll_append]
  refine (hother _ _ hc₂).bind fun _ c₃ hc₃ => ?_
  rw [pure_bind] at hc₃
  rw [rebuildAll_single]
  refine .congr (rebuild_finish hc₃.alive) ?_
  refine close_yields hframes (by rw [hresult]) hc₃ fun f' outer' c₄ hf => ?_
  have hresumes := hf.grows.frames
  have houter := hf.grows.outer
  rw [hframes, hf.stands.frames] at hresumes houter
  obtain ⟨hr, -⟩ := List.forall₂_cons.1 hresumes
  have hwaits' := forall₂_trans (R := Frame.Waits) (fun _ _ _ => .trans) hwaits houter
  have hne : outer' ≠ [] := by
    rintro rfl
    exact hc.frames_ne_nil (List.forall₂_nil_right_iff.1 hwaits')
  have hthen' : Matches (World.SameBelow locals.length) (Frame.Follows (f' :: outer'))
      (Expr.Settles f'.result) (Expr.eval h resolve bound (.sequence nodes f'.result))
      (Instr.execAll h scope bound body (ty :: labels) []) := by
    rw [hr.result]
    exact hthen.meaning.mono (fun _ _ => .resume hresumes) fun _ _ => id
  have hexec : Instr.exec h scope bound (.ifElse type body other) labels =
      choosing (Instr.execAll h scope bound body (ty :: labels) [])
        (Instr.execAll h scope bound other (ty :: labels) []) := by
    funext stack
    cases stack <;> simp only [Instr.exec, ht] <;> rfl
  have hfold := fold_ifElse hne (hr.kind.trans hkind) hthen'
    (fun e he => (hthen.below e he).mono hf.grows.locals) hthen.dead hf
    (hc.reopen hwaits' (Nat.le_trans hlocals hf.grows.locals) hf.stands)
  rw [hr.result, hresult] at hfold
  rw [hexec]
  exact hfold

/-- Rebuilding one instruction, then the others. -/
theorem Yields.rest {i : Instr} {rest : List Instr} {k₁ : Nat}
    (hi : Yields (rebuildAll scope i.flatten) b fun _ b' =>
      Ready h resolve bound locals labels b k₁ (M >>= Instr.exec h scope bound i labels) b')
    (hrest : ∀ c N, Ready h resolve bound locals labels c k₁ N c →
      Yields (rebuildAll scope (Instr.flattenAll rest)) c fun _ c' =>
        Ready h resolve bound locals labels c k' (N >>= Instr.execAll h scope bound rest labels) c') :
    Yields (rebuildAll scope (Instr.flattenAll (i :: rest))) b fun _ b' =>
      Ready h resolve bound locals labels b k'
        (M >>= Instr.execAll h scope bound (i :: rest) labels) b' := by
  rw [Instr.flattenAll, rebuildAll_append]
  refine hi.bind fun _ b₁ hb₁ => (hrest b₁ _ hb₁.here).mono fun _ b₂ hb₂ => ?_
  rw [bind_assoc] at hb₂
  exact hb₂.since hb₁.grows

/-- After a transfer of control the others are passed over. -/
theorem Yields.skip {op : { op : Operator // op.isPlain = true }} {rest : List Instr}
    (hb : Taking h resolve bound locals labels b [] k M b)
    (hop : Yields (rebuildLive scope op.1) b fun _ b' =>
      Ended h resolve bound locals labels b (M >>= Instr.execPlain scope labels op.1) b') :
    Yields (rebuildAll scope (Instr.flattenAll (.plain op :: rest))) b fun _ b' =>
      Ready h resolve bound locals labels b k'
        (M >>= Instr.execAll h scope bound (.plain op :: rest) labels) b' := by
  refine (Yields.congr (rebuild_live hb.isDead) hop).bind fun _ b₁ hb₁ => ?_
  refine .of_eq (passOver_instrs rest hb₁.isDead) (.inr ?_)
  have hended := hb₁.bind (Instr.execAll h scope bound rest labels)
  rw [bind_assoc] at hended
  exact hended

/-- Where a place is never reached, nothing is rebuilt. -/
theorem Ready.rebuild {is : List Instr}
    (hlive : ∀ c N, Taking h resolve bound locals labels c [] k N c →
      Yields (rebuildAll scope (Instr.flattenAll is)) c fun _ c' =>
        Ready h resolve bound locals labels c k' (N >>= Instr.execAll h scope bound is labels) c')
    (c : Builder) (N : Run h Nat (List Value)) (hc : Ready h resolve bound locals labels c k N c) :
    Yields (rebuildAll scope (Instr.flattenAll is)) c fun _ c' =>
      Ready h resolve bound locals labels c k' (N >>= Instr.execAll h scope bound is labels) c' := by
  rcases hc with hc | hc
  · exact hlive c N hc
  · exact .of_eq (passOver_instrs is hc.isDead) (.inr (hc.bind _))

/-- Valid instructions are rebuilt, and what is emitted does what they do. -/
theorem rebuildAll_keeps (hresolve : scope.Resolves resolve) {is : List Instr}
    (hv : Instr.Valid scope locals labels is k k') (b : Builder) (M : Run h Nat (List Value))
    (hb : Taking h resolve bound locals labels b [] k M b) :
    Yields (rebuildAll scope (Instr.flattenAll is)) b fun _ b' =>
      Ready h resolve bound locals labels b k'
        (M >>= Instr.execAll h scope bound is labels) b' := by
  induction hv generalizing b M with
  | @nil labels =>
    refine .pure (.inl ?_)
    have hM : (M >>= Instr.execAll h scope bound [] labels) = M := bind_pure M
    rw [hM]
    exact hb
  | operator ha hs _ ih =>
    refine Yields.rest ?_ (Ready.rebuild ih)
    rw [Instr.flatten, rebuildAll_single]
    refine .congr (rebuild_live hb.isDead) ?_
    exact (operator_keeps hresolve ha hs hb).mono fun _ b' hb' => .inl hb'
  | unreachable => exact Yields.skip hb (unreachable_ends hb)
  | br ht => exact Yields.skip hb (branch_ends ht hb)
  | brIf ht _ ih =>
    refine Yields.rest ?_ (Ready.rebuild ih)
    rw [Instr.flatten, rebuildAll_single]
    refine .congr (rebuild_live hb.isDead) ?_
    exact (branchIf_keeps ht hb).mono fun _ b' hb' => .inl hb'
  | brTable hf hd => exact Yields.skip hb (branchTable_ends hf hd hb)
  | ret ht => exact Yields.skip hb (return_ends ht hb)
  | block ht _ _ ihb ihr =>
    exact Yields.rest (block_keeps ht (Ready.rebuild ihb) hb) (Ready.rebuild ihr)
  | loop ht _ _ ihb ihr =>
    exact Yields.rest (loop_keeps ht (Ready.rebuild ihb) hb) (Ready.rebuild ihr)
  | ifThen ht _ _ ihb ihr =>
    exact Yields.rest (ifThen_keeps ht (Ready.rebuild ihb) hb) (Ready.rebuild ihr)
  | ifElse ht _ _ _ ihb iho ihr =>
    exact Yields.rest (ifElse_keeps ht (Ready.rebuild ihb) (Ready.rebuild iho) hb)
      (Ready.rebuild ihr)

/-! ## The function -/

/-- A function starts in its own frame, with no operand and nothing done. -/
theorem start_ready (result : Ty) :
    Taking h resolve bound locals [result] (start locals result) [] 0 (pure [])
      (start locals result) := by
  refine ⟨.refl _, { kind := .function, label := ⟨0⟩, result := result }, [], ?_, rfl, rfl⟩
  exact ⟨rfl, rfl, List.prefix_refl _, rfl, List.pairwise_singleton _ _, Nat.zero_lt_one, by simp,
    by simp, by simp, meaning_iff.2 (.pure rfl)⟩

/-- The body of a function, once its frame is finished. -/
def bodyOf (f : Frame) : Expr :=
  match f.usedLabel with
  | some _ => .block f.usedLabel f.emitted.reverse f.result
  | none => .sequence f.emitted.reverse f.result

/-- The function's own frame becomes the body, with its label where a jump names it. -/
theorem fold_function {f : Frame} (hkind : f.kind = .function) :
    fold f b = .ok ((), { b with body := some (bodyOf f) }) := by
  rw [fold, hkind, bodyOf]
  cases f.usedLabel <;> rfl

/-- A body that comes to its end returns the value that is left for its result. -/
theorem outcome_settles {ty : Ty} {v : Option Value} {stack : List Value}
    (hs : Expr.Settles ty v stack) : Exit.outcome ty (.ok v) = .returned stack.head? := by
  unfold Expr.Settles at hs
  by_cases hty : ty = .void
  · rw [if_pos hty] at hs
    simp [Exit.outcome, hty, hs]
  · rw [if_neg hty] at hs
    obtain ⟨x, rfl, rfl⟩ := hs
    simp [Exit.outcome, hty]

/-- Settling does not change the outcome. -/
theorem settle_outcome {ty : Ty} {v : Option Value} {stack : List Value}
    (hs : Expr.Settles ty v stack) (w : World h) :
    ∃ v', (settle ty v : Run h Label (Option Value)) w = (.ok v', w) ∧
      Exit.outcome ty (.ok v') = .returned stack.head? := by
  have hmatch := Expr.settle_again (x := (pure v : Run h Label _)) (y := (pure stack : Run h Nat _))
    (W := Eq) (X := fun _ _ => False) (.pure hs)
  have hends := hmatch w w rfl
  rw [pure_bind] at hends
  generalize settle ty v w = p at hends
  cases hends with
  | ok hr hw => exact ⟨_, by rw [hw], outcome_settles hr⟩

/-- A body and its instructions end alike, and not for want of an operand or a target. -/
structure EndsAlike (n : Nat) (result : Ty) (p : Except (Exit Label) (Option Value) × World h)
    (q : Except (Exit Nat) (List Value) × World h) : Prop where
  outcome : Exit.outcome result p.1 = Instr.outcome q.1
  goes : Instr.outcome q.1 ≠ .stuck
  world : p.2.SameBelow n q.2

/-- A body without a label ends as the instructions do, when no jump names it. -/
theorem endsAlike_unlabeled {n : Nat} {f : Frame} {p : Except (Exit Label) (Option Value) × World h}
    {q : Except (Exit Nat) (List Value) × World h} (hunused : f.labelUsed = false)
    (hpq : EndsMatch (World.SameBelow n) (Frame.Follows [f]) (Expr.Settles f.result) p q) :
    EndsAlike n f.result p q := by
  cases hpq with
  | ok hr hw => exact ⟨outcome_settles hr, by rintro ⟨⟩, hw⟩
  | error hx hw =>
    cases hx with
    | @jump depth g v hg hused hv =>
      cases depth with
      | zero =>
        cases hg
        rw [hunused] at hused
        cases hused
      | succ depth => cases hg
    | ret hd =>
      cases hd
      exact ⟨rfl, by rintro ⟨⟩, hw⟩
    | trap t => exact ⟨rfl, by rintro ⟨⟩, hw⟩
    | exhausted => exact ⟨rfl, by rintro ⟨⟩, hw⟩

/-- A body behind its label ends as the instructions do, jumps to it included. -/
theorem endsAlike_labeled {n : Nat} {f : Frame} {x : Run h Label (Option Value)} {w : World h}
    {q : Except (Exit Nat) (List Value) × World h} (hkind : f.kind = .function)
    (hpq : EndsMatch (World.SameBelow n) (Frame.Follows [f]) (Expr.Settles f.result) (x w) q) :
    EndsAlike n f.result ((catching (some f.label) x >>= settle f.result) w) q := by
  have hty : f.branchTy = f.result := by rw [Frame.branchTy, hkind]
  rw [bind_apply, catching, onJump]
  generalize x w = p at hpq
  cases hpq with
  | ok hr hw =>
    obtain ⟨v', hsettle, houtcome⟩ := settle_outcome hr _
    dsimp only
    rw [hsettle]
    exact ⟨houtcome, by rintro ⟨⟩, hw⟩
  | error hx hw =>
    cases hx with
    | @jump depth g v hg hused hv =>
      cases depth with
      | zero =>
        cases hg
        obtain ⟨v', hsettle, houtcome⟩ := settle_outcome (.of_toList (hty ▸ hv)) _
        dsimp only
        rw [if_pos rfl, pure_apply]
        dsimp only
        rw [hsettle]
        exact ⟨by rw [houtcome, Instr.outcome, Option.head?_toList], by rintro ⟨⟩, hw⟩
      | succ depth => cases hg
    | ret hd =>
      cases hd
      exact ⟨rfl, by rintro ⟨⟩, hw⟩
    | trap t => exact ⟨rfl, by rintro ⟨⟩, hw⟩
    | exhausted => exact ⟨rfl, by rintro ⟨⟩, hw⟩

/-- A finished body ends like its instructions. -/
theorem Finished.endsAlike {f : Frame} {c : Builder} {N : Run h Nat (List Value)}
    (hkind : f.kind = .function) (hf : Finished h resolve bound locals labels c f [] N b)
    (w : World h) :
    EndsAlike locals.length f.result (Expr.eval h resolve bound (bodyOf f) w) (N w) := by
  cases hused : f.labelUsed with
  | true =>
    have hlabel : f.usedLabel = some f.label := by simp [Frame.usedLabel, hused]
    rw [bodyOf, hlabel, Expr.eval]
    exact endsAlike_labeled hkind (hf.statements w w (.refl _ w))
  | false =>
    have hlabel : f.usedLabel = none := by simp [Frame.usedLabel, hused]
    rw [bodyOf, hlabel]
    exact endsAlike_unlabeled hused (hf.sequence w w (.refl _ w))

/-- The instructions of a valid function are rebuilt as a tree that ends as they do, in every world.
-/
theorem rebuildAll_body (h : Host) (bound : Nat) (hresolve : scope.Resolves resolve) {result : Ty}
    {body : List Instr}
    (hv : Instr.Valid scope locals [result] body 0 result.arity) :
    Yields (rebuildAll scope (Instr.flattenAll body ++ [Operator.finish])) (start locals result)
      fun _ b' =>
      ∃ tree, b'.body = some tree ∧ ∀ w, EndsAlike locals.length result
        (Expr.eval h resolve bound tree w) (Instr.execAll h scope bound body [result] [] w) := by
  have hready : Taking h resolve bound locals [result] (start locals result) [] 0 (pure [])
      (start locals result) := start_ready result
  rw [rebuildAll_append]
  refine (rebuildAll_keeps hresolve hv _ _ hready).bind fun _ b₁ hb₁ => ?_
  rw [pure_bind] at hb₁
  rw [rebuildAll_single]
  have hstart : (start locals result).frames =
      [{ kind := .function, label := ⟨0⟩, result := result }] := rfl
  refine .congr (rebuild_finish hb₁.alive) (close_yields hstart rfl hb₁ fun f outer b₂ hf => ?_)
  have hframes := hf.grows.frames
  rw [hstart, hf.stands.frames] at hframes
  obtain ⟨hr, houter⟩ := List.forall₂_cons.1 hframes
  obtain rfl := List.forall₂_nil_left_iff.1 houter
  refine .of_eq (fold_function hr.kind) ⟨bodyOf f, rfl, fun w => ?_⟩
  have hends := hf.endsAlike hr.kind w
  rwa [hr.result] at hends

/-- A valid body is rebuilt as a tree that ends like its instructions, with the same effects. -/
theorem ofOperators_observe (h : Host) (bound : Nat) (hresolve : scope.Resolves resolve)
    {params own : List Ty} {result : Ty} {body : List Instr}
    (hv : Instr.Valid scope (params ++ own) [result] body 0 result.arity) :
    ∃ all tree, Expr.ofOperators scope params own result
        (Instr.flattenAll body ++ [Operator.finish]) = .ok (all, tree) ∧
      ∀ w : World h, Expr.observe resolve tree result w bound =
          Instr.observe scope body result w bound ∧
        (Instr.observe scope body result w bound).outcome ≠ .stuck := by
  obtain ⟨_, b, hb, tree, htree, hends⟩ :=
    rebuildAll_body h bound hresolve hv
  refine ⟨b.locals.drop params.length, tree, ?_, fun w => ⟨?_, (hends w).goes⟩⟩
  · rw [Expr.ofOperators, StateT.run, hb]
    simp only [bind, Except.bind, htree]
    rfl
  · have hw := hends w
    show Observation.mk (Exit.outcome result _) _ _ = Observation.mk (Instr.outcome _) _ _
    rw [hw.outcome, hw.world.trace, hw.world.store]

end

end Builder

end WasmLift
