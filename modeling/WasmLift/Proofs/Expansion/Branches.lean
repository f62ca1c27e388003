import WasmLift.Proofs.Expansion.Operators

/-!
# Rebuilding transfers of control

A branch to a frame marks its label and jumps to it; one to the outermost frame is a return. A
conditional branch keeps the invariant (`Builder.branchIf_keeps`). After any other transfer the
frame is dead (`Builder.branch_ends`, `Builder.branchTable_ends`, `Builder.return_ends`,
`Builder.unreachable_ends`).
-/

namespace WasmLift

open Run

namespace Builder

section
variable {h : Host} {resolve : NameId → Nat} {bound : Nat} {scope : Scope} {locals labels : List Ty}
  {b₀ b : Builder} {es : List Expr} {k : Nat} {M : Run h Nat (List Value)}

/-! ## Carried values -/

/-- What a jump carries is the first of its operands, if it has one. -/
theorem carried_eq (value : Option Expr) :
    Expr.carried h resolve bound value =
      List.head? <$> Expr.operands h resolve bound value.toList := by
  cases value <;> simp [Expr.carried, Expr.operands]

/-- A branch takes what it carries from the top of the stack. -/
theorem branch_carried {depth : Nat} {ty : Ty} (ht : labels[depth]? = some ty) {vs : List Value}
    (hvs : vs.length = ty.arity) (stack : List Value) :
    (Instr.branch labels depth (vs.reverse ++ stack) : Run h Nat (List Value)) =
      throw (.jump depth vs.head?) := by
  by_cases hty : ty = .void
  · obtain rfl : vs = [] := by simpa [hty, Ty.arity] using hvs
    simp [Instr.branch, ht, Ty.carriedFrom?, hty]
  · obtain ⟨v, rfl⟩ : ∃ v, vs = [v] := by simpa [hty, Ty.arity, List.length_eq_one_iff] using hvs
    simp [Instr.branch, ht, Ty.carriedFrom?, hty]

/-- A branch never comes to its end. -/
theorem branch_gives (depth : Nat) (stack : List Value) :
    Gives (fun _ => False) (Instr.branch labels depth stack : Run h Nat (List Value)) := by
  rw [Instr.branch]
  split <;> exact .throw

/-! ## Labels in use -/

/-- The label of the frame at a depth is in use. -/
def Marked (b : Builder) (ty : Ty) (depth : Nat) (label : Label) : Prop :=
  ∃ g, b.frames[depth]? = some g ∧ g.labelUsed = true ∧ g.label = label ∧
    g.branchTy.arity = ty.arity

/-- A label that is marked stays so as the builder grows. -/
theorem Marked.grows {b c : Builder} {ty : Ty} {depth : Nat} {label : Label}
    (hm : Marked b ty depth label) (hgrows : Grows b c) : Marked c ty depth label := by
  obtain ⟨g, hg, hused, hlabel, hty⟩ := hm
  obtain ⟨g', hg', hr⟩ := Frame.resumes_getElem hgrows.frames hg
  exact ⟨g', hg', hr.used hused, hr.label.trans hlabel, by rw [hr.branchTy, hty]⟩

/-- As many values as a type has include a first one just if the type is not empty. -/
theorem isSome_head? {ty : Ty} {vs : List Value} (hvs : vs.length = ty.arity) :
    vs.head?.isSome = (ty != .void) := by
  by_cases hty : ty = .void
  · obtain rfl : vs = [] := by simpa [hty, Ty.arity] using hvs
    simp [hty]
  · obtain ⟨v, rfl⟩ : ∃ v, vs = [v] := by simpa [hty, Ty.arity, List.length_eq_one_iff] using hvs
    simp [hty]

/-- A jump to a label in use is a branch to its frame. -/
theorem Marked.matches {n depth : Nat} {ty : Ty} {label : Label}
    {R : Option Value → List Value → Prop} (hm : Marked b ty depth label)
    (hframes : b.frames.map Frame.branchTy = labels) {vs : List Value} (hvs : vs.length = ty.arity)
    (stack : List Value) :
    Matches (World.SameBelow n) (Frame.Follows b.frames) R
      (throw (.jump label vs.head?) : Run h Label (Option Value))
      (Instr.branch labels depth (vs.reverse ++ stack)) := by
  obtain ⟨g, hg, hused, rfl, hty⟩ := hm
  have hlabels : labels[depth]? = some g.branchTy := by rw [← hframes, List.getElem?_map, hg]; rfl
  rw [branch_carried hlabels (hvs.trans hty.symm)]
  exact .throw (.jump hg hused (isSome_head? (hvs.trans hty.symm)))

/-- A builder takes operands on its own account, wherever it started. -/
theorem Taking.here (hb : Taking h resolve bound locals labels b₀ es k M b) :
    Taking h resolve bound locals labels b es k M b :=
  ⟨.refl b, hb.2⟩

/-- Operands taken since a later point are taken since an earlier one. -/
theorem Taking.since {c : Builder} (hb : Taking h resolve bound locals labels b₀ es k M b)
    (hgrows : Grows c b₀) : Taking h resolve bound locals labels c es k M b :=
  ⟨hgrows.trans hb.1, hb.2⟩

/-- The frames of the builder are those that the labels in scope are of. -/
theorem Taking.frames (hb : Taking h resolve bound locals labels b₀ es k M b) :
    b.frames.map Frame.branchTy = labels := by
  obtain ⟨-, f, outer, hs, -, -⟩ := hb
  rw [hs.frames, hs.carries]

/-- A label in scope belongs to a frame that takes values of its type. -/
theorem Taking.frame {depth : Nat} {ty : Ty} (ht : labels[depth]? = some ty)
    (hb : Taking h resolve bound locals labels b₀ es k M b) :
    ∃ g, b.frames[depth]? = some g ∧ g.branchTy = ty := by
  rw [← hb.frames, List.getElem?_map] at ht
  exact Option.map_eq_some_iff.1 ht

/-- A value that is there for a type is as many as the type has. -/
theorem length_toList {value : Option Expr} {ty : Ty} (hv : value.isSome = (ty != .void)) :
    value.toList.length = ty.arity := by
  by_cases hty : ty = .void
  · obtain rfl : value = none := by simpa [hty] using hv
    simp [hty, Ty.arity]
  · obtain ⟨e, rfl⟩ := Option.isSome_iff_exists.1 (hv.trans (by simp [hty]))
    simp [hty, Ty.arity]

/-! ## Unconditional branches -/

/-- A return, where the function's own frame is branched to. -/
theorem push_ret {depth : Nat} {ty : Ty} {value : Option Expr}
    (ht : labels[depth]? = some ty) (hv : value.isSome = (ty != .void))
    (hdepth : depth + 1 = b.frames.length)
    (hb : Taking h resolve bound locals labels b₀ value.toList k M b) :
    Yields (push (.ret value)) b fun _ b' => Ended h resolve bound locals labels b₀
      (M >>= Instr.branch labels depth) b' := by
  have hnode : Performs h resolve bound locals.length b.frames value.toList (.ret value)
      (fun vs => throw (.ret vs.head?)) (Instr.branch labels depth) := by
    refine ⟨fun w _ => by simp [Expr.eval, carried_eq], fun vs stack hvs => ?_⟩
    rw [branch_carried ht (hvs.trans (length_toList hv))]
    exact .throw (.ret hdepth)
  exact push_ends hb (fun _ hbelow => .of_children rfl hbelow) hnode rfl
    fun stack => branch_gives depth stack

/-- A branch to a label in scope ends the frame as the instruction ends the run. -/
theorem branch_ends {depth : Nat} {ty : Ty} (ht : labels[depth]? = some ty)
    (hb : Taking h resolve bound locals labels b [] (ty.arity + k) M b) :
    Yields (branch depth) b fun _ b' => Ended h resolve bound locals labels b
      (M >>= Instr.branch labels depth) b' := by
  obtain ⟨g, hg, rfl⟩ := hb.frame ht
  refine .after (frameAt_run hg) ?_
  refine (takeCarried_keeps _ hb).bind fun value b₁ ⟨hvalue, hb₁⟩ => ?_
  rw [List.append_nil] at hb₁
  obtain ⟨g₁, hg₁, hr⟩ := Frame.resumes_getElem hb₁.1.frames hg
  refine .after (a := b₁.frames.length == depth + 1) rfl ?_
  split
  · next houtermost =>
    have hlength : b₁.frames.length = depth + 1 := by simpa using houtermost
    exact push_ret ht hvalue hlength.symm hb₁
  · refine (markUsed_keeps hg₁ hb₁).bind fun _ b₂ ⟨hb₂, _, hg₂⟩ => ?_
    have hmarked : Marked b₂ g.branchTy depth g.label :=
      ⟨_, hg₂, rfl, hr.label, congrArg _ hr.branchTy⟩
    have hnode : Performs h resolve bound locals.length b₂.frames value.toList
        (.br g.label none value) (fun vs => throw (.jump g.label vs.head?))
        (Instr.branch labels depth) := by
      refine ⟨fun w _ => by simp [Expr.eval, carried_eq, Expr.operands], fun vs stack hvs => ?_⟩
      exact hmarked.matches hb₂.frames (hvs.trans (length_toList hvalue)) stack
    exact push_ends hb₂ (fun _ hbelow => .of_children rfl (by simpa [Expr.children] using hbelow))
      hnode rfl fun stack => branch_gives depth stack

/-- A return ends the frame as a branch to the outermost label ends the run. -/
theorem return_ends {ty : Ty} (ht : labels.getLast? = some ty)
    (hb : Taking h resolve bound locals labels b [] (ty.arity + k) M b) :
    Yields (rebuildLive scope .ret) b fun _ b' => Ended h resolve bound locals labels b
      (M >>= Instr.branch labels (labels.length - 1)) b' := by
  have hlast : labels[labels.length - 1]? = some ty := by rw [← List.getLast?_eq_getElem?, ht]
  have hresult : outermostResult b = .ok (ty, b) := by
    obtain ⟨-, f, outer, hs, -, -⟩ := hb
    rw [hs.carries, List.getLast?_map] at ht
    obtain ⟨g, hg, rfl⟩ := Option.map_eq_some_iff.1 ht
    have hty : g.branchTy = g.result := by rw [Frame.branchTy, hs.function g hg]
    rw [outermostResult, bind_run (a := b) rfl, hs.frames, hg, hty]
    rfl
  refine .after hresult ?_
  refine (takeCarried_keeps _ hb).bind fun value b₁ hcarried => ?_
  obtain ⟨hvalue, hb₁⟩ := hcarried
  rw [List.append_nil] at hb₁
  have hlength : labels.length = b₁.frames.length := by rw [← hb₁.frames, List.length_map]
  have hpos : 0 < labels.length := List.length_pos_of_mem (List.mem_of_getLast? ht)
  exact push_ret hlast hvalue (by omega) hb₁

/-- What cannot be reached ends the frame as the trap ends the run. -/
theorem unreachable_ends (hb : Taking h resolve bound locals labels b₀ [] k M b) :
    Yields (push .unreachable) b fun _ b' => Ended h resolve bound locals labels b₀
      (M >>= fun _ => throw (.trap .unreachable)) b' := by
  have hnode : Performs h resolve bound locals.length b.frames [] .unreachable
      (fun _ => throw (.trap .unreachable)) (fun _ => throw (.trap .unreachable)) :=
    ⟨fun w _ => by simp [Expr.eval, Expr.operands], fun _ _ _ => .throw (.trap _)⟩
  exact push_ends hb (fun _ _ => .of_children rfl (List.forall_mem_nil _)) hnode rfl fun _ => .throw

/-! ## Branches that depend on a value -/

/-- What a conditional transfer does with the values it took: the condition comes last. -/
def onCondition (vs : List Value) (k : Value → Option Value → Run h Label (Option Value)) :
    Run h Label (Option Value) :=
  match vs.getLast? with
  | some c => k c vs.dropLast.head?
  | none => throw .stuck

/-- A condition that stands behind a value is evaluated after what the value carries. -/
theorem operands_condition (value : Option Expr) (condition : Expr)
    (k : Value → Option Value → Run h Label (Option Value)) :
    (Expr.operands h resolve bound (value.toList ++ [condition]) >>= fun vs => onCondition vs k) =
      Expr.carried h resolve bound value >>= fun v =>
        Expr.operand h resolve bound condition >>= fun c => k c v := by
  simp [Expr.operands_append, carried_eq, Expr.operands, onCondition]

/-- A choice on the last operand does what the step does that takes it off the stack. -/
theorem onCondition_matches {W : World h → World h → Prop} {X : Exit Label → Exit Nat → Prop}
    {R : Option Value → List Value → Prop} {n : Nat} {vs stack : List Value}
    {k : Value → Option Value → Run h Label (Option Value)}
    {step : List Value → Run h Nat (List Value)} (hvs : vs.length = n + 1)
    (hstep : ∀ (us : List Value) (c : Value), us.length = n →
      Matches W X R (k c us.head?) (step (c :: (us.reverse ++ stack)))) :
    Matches W X R (onCondition vs k) (step (vs.reverse ++ stack)) := by
  rcases List.eq_nil_or_concat vs with rfl | ⟨us, c, rfl⟩
  · cases hvs
  · rw [onCondition, List.concat_eq_append, List.getLast?_concat, List.dropLast_concat,
      List.reverse_concat]
    exact hstep us c (by simpa using hvs)

/-- At most one value is there, so the first of them is all of them. -/
theorem toList_head? {ty : Ty} {vs : List Value} (hvs : vs.length = ty.arity) :
    vs.head?.toList = vs.reverse := by
  by_cases hty : ty = .void
  · obtain rfl : vs = [] := by simpa [hty, Ty.arity] using hvs
    rfl
  · obtain ⟨v, rfl⟩ : ∃ v, vs = [v] := by simpa [hty, Ty.arity, List.length_eq_one_iff] using hvs
    rfl

/-- A return under a condition ends the function where the condition holds. -/
theorem eval_returnIf (condition : Expr) :
    Expr.eval h resolve bound (.ite condition (.ret none) none .void) =
      Expr.operands h resolve bound [condition] >>= fun vs =>
        onCondition vs fun c _ => if c.holds then throw (.ret none) else pure none := by
  have hsettle : ∀ c : Value,
      (((if c.holds then Expr.eval h resolve bound (.ret none) else Expr.arm h resolve bound none) >>=
        settle .void : Run h Label (Option Value))) =
        if c.holds then throw (.ret none) else pure none := by
    intro c
    split <;> rfl
  rw [Expr.eval]
  simp [hsettle, Expr.operands, onCondition]

/-- A conditional branch takes its condition off the stack and branches where it holds. -/
theorem execPlain_brIf (depth : Nat) (c : Value) (stack : List Value) :
    (Instr.execPlain scope labels (.brIf depth) (c :: stack) : Run h Nat (List Value)) =
      if c.holds then Instr.branch labels depth stack else pure stack := rfl

/-- A conditional branch keeps the invariant, with the values it could carry left in place. -/
theorem branchIf_keeps {depth : Nat} {ty : Ty} (ht : labels[depth]? = some ty)
    (hb : Taking h resolve bound locals labels b [] (1 + (ty.arity + k)) M b) :
    Yields (branchIf depth) b fun _ b' => Taking h resolve bound locals labels b []
      (ty.arity + k) (M >>= Instr.execPlain scope labels (.brIf depth)) b' := by
  obtain ⟨g, hg, rfl⟩ := hb.frame ht
  rw [Nat.add_comm] at hb
  refine .after (frameAt_run hg) ?_
  refine (takeValue_keeps _ hb).bind fun condition b₁ hb₁ => ?_
  refine (takeCarried_keeps _ hb₁).bind fun value b₂ ⟨hvalue, hb₂⟩ => ?_
  obtain ⟨g₂, hg₂, hr⟩ := Frame.resumes_getElem hb₂.1.frames hg
  refine .after (a := b₂.frames.length == depth + 1) rfl ?_
  split
  · next houtermost =>
    -- A conditional return does without a label.
    obtain ⟨hlength, hnone⟩ : b₂.frames.length = depth + 1 ∧ value = none := by
      simpa using houtermost
    subst hnone
    have hnode : Performs h resolve bound locals.length b₂.frames [condition]
        (.ite condition (.ret none) none .void)
        (fun vs => onCondition vs fun c _ => if c.holds then throw (.ret none) else pure none)
        (Instr.execPlain scope labels (.brIf depth)) := by
      refine ⟨fun w _ => ?_, fun vs stack hvs => onCondition_matches hvs fun us c hus => ?_⟩
      · rw [eval_returnIf]
      · rw [execPlain_brIf]
        split
        · rw [branch_carried ht (hus.trans (length_toList hvalue)), List.length_eq_zero_iff.1 hus]
          exact .throw (.ret hlength.symm)
        · exact .pure (by rw [List.length_eq_zero_iff.1 hus]; rfl)
    rw [← length_toList hvalue]
    refine push_keeps hb₂ (fun _ hbelow => ?_) hnode rfl
    · refine .of_children rfl fun e he => ?_
      rcases List.mem_cons.1 he with rfl | he
      · exact hbelow _ (by simp)
      · obtain rfl : e = .ret none := by simpa using he
        exact .of_children rfl (List.forall_mem_nil _)
  · refine (markUsed_keeps hg₂ hb₂).bind fun _ b₃ ⟨hb₃, _, hg₃⟩ => ?_
    have hmarked : Marked b₃ g.branchTy depth g.label :=
      ⟨_, hg₃, rfl, hr.label, congrArg _ hr.branchTy⟩
    have hnode : Performs h resolve bound locals.length b₃.frames (value.toList ++ [condition])
        (.br g.label (some condition) value)
        (fun vs => onCondition vs fun c v => if c.holds then throw (.jump g.label v) else pure v)
        (Instr.execPlain scope labels (.brIf depth)) := by
      refine ⟨fun w _ => ?_, fun vs stack hvs => ?_⟩
      · rw [operands_condition]
        simp [Expr.eval, Expr.carried]
      · rw [List.length_append, length_toList hvalue] at hvs
        refine onCondition_matches hvs fun us c hus => ?_
        rw [execPlain_brIf]
        split
        · exact hmarked.matches hb₃.frames hus stack
        · exact .pure (by rw [toList_head? hus])
    have harity : (Expr.br g.label (some condition) value).ty.arity = g.branchTy.arity := by
      rw [← length_toList hvalue]
      cases value with
      | none => rfl
      | some e => exact arity_of_ne_void hb₃.ty_ne_void
    rw [← harity]
    exact push_keeps hb₃ (fun _ hbelow => .of_children rfl (by simpa [Expr.children] using hbelow))
      hnode rfl

/-- The labels of a branch table are marked one by one, and the invariant is kept. -/
theorem targetLabels_keeps {ty : Ty} {depths : List Nat}
    (hd : ∀ depth ∈ depths, ∃ ty', labels[depth]? = some ty' ∧ ty'.arity = ty.arity)
    (hb : Taking h resolve bound locals labels b₀ es k M b) :
    Yields (targetLabels depths) b fun ls b' =>
      Taking h resolve bound locals labels b₀ es k M b' ∧
        List.Forall₂ (Marked b' ty) depths ls := by
  induction depths generalizing b₀ b with
  | nil => exact .pure ⟨hb, .nil⟩
  | cons depth rest ih =>
    obtain ⟨ty', ht, harity⟩ := hd depth (.head _)
    obtain ⟨g, hg, rfl⟩ := hb.frame ht
    refine .after (frameAt_run hg) ?_
    refine (markUsed_keeps hg hb).bind fun _ b₁ ⟨hb₁, _, hg₁⟩ => ?_
    have hmarked : Marked b₁ ty depth g.label := ⟨_, hg₁, rfl, rfl, harity⟩
    refine (ih (fun d hd' => hd d (.tail _ hd')) hb₁.here).bind fun ls b₂ ⟨hb₂, hls⟩ => ?_
    exact .pure ⟨hb₂.since hb₁.1, .cons (hmarked.grows hb₂.1) hls⟩

/-- The target that an index selects from a table of labels is the one it selects from the
depths. -/
theorem select_marked {ty : Ty} {depths : List Nat} {ls : List Label} {fallback : Nat}
    {label : Label} (hls : List.Forall₂ (Marked b ty) depths ls) (hf : Marked b ty fallback label)
    (i : Nat) :
    ∃ l, ls[i]?.or (some label) = some l ∧ Marked b ty (depths.getD i fallback) l := by
  induction hls generalizing i with
  | nil => exact ⟨label, rfl, hf⟩
  | cons hm _ ih =>
    cases i with
    | zero => exact ⟨_, rfl, hm⟩
    | succ i => exact ih i

/-- A branch table takes its index off the stack and branches to what it selects. -/
theorem execPlain_brTable (depths : List Nat) (fallback : Nat) (c : Value) (stack : List Value) :
    (Instr.execPlain scope labels (.brTable depths fallback) (c :: stack) :
      Run h Nat (List Value)) =
      Instr.branch labels (depths.getD c.asIndex fallback) stack := rfl

/-- A branch table never comes to its end. -/
theorem brTable_gives (depths : List Nat) (fallback : Nat) (stack : List Value) :
    Gives (fun _ => False)
      (Instr.execPlain scope labels (.brTable depths fallback) stack : Run h Nat (List Value)) := by
  cases stack with
  | nil => exact .throw
  | cons c stack => exact branch_gives _ stack

/-- A branch table ends the frame as the instruction ends the run. -/
theorem branchTable_ends {depths : List Nat} {fallback : Nat} {ty : Ty}
    (hf : labels[fallback]? = some ty)
    (hd : ∀ depth ∈ depths, ∃ ty', labels[depth]? = some ty' ∧ ty'.arity = ty.arity)
    (hb : Taking h resolve bound locals labels b [] (1 + (ty.arity + k)) M b) :
    Yields (branchTable depths fallback) b fun _ b' => Ended h resolve bound locals labels b
      (M >>= Instr.execPlain scope labels (.brTable depths fallback)) b' := by
  rw [Nat.add_comm] at hb
  refine (takeValue_keeps _ hb).bind fun condition b₁ hb₁ => ?_
  refine (targetLabels_keeps hd hb₁).bind fun ls b₂ ⟨hb₂, hls⟩ => ?_
  obtain ⟨g, hg, rfl⟩ := hb₂.frame hf
  refine .after (frameAt_run hg) ?_
  refine (markUsed_keeps hg hb₂).bind fun _ b₃ ⟨hb₃, hgrows₃, hg₃⟩ => ?_
  refine (takeCarried_keeps _ hb₃.here).bind fun value b₄ ⟨hvalue, hb₄⟩ => ?_
  have hfallback : Marked b₄ g.branchTy fallback g.label :=
    Marked.grows ⟨_, hg₃, rfl, rfl, rfl⟩ hb₄.1
  have htargets : List.Forall₂ (Marked b₄ g.branchTy) depths ls :=
    hls.imp fun _ _ hm => (hm.grows hgrows₃).grows hb₄.1
  have hnode : Performs h resolve bound locals.length b₄.frames (value.toList ++ [condition])
      (.switch ls (some g.label) condition value)
      (fun vs => onCondition vs fun c v =>
        (ls[c.asIndex]?.or (some g.label)).elim (throw .stuck) fun label => throw (.jump label v))
      (Instr.execPlain scope labels (.brTable depths fallback)) := by
    refine ⟨fun w _ => ?_, fun vs stack hvs => ?_⟩
    · rw [operands_condition, Expr.eval]
      refine congrFun (bind_congr fun v => bind_congr fun c => ?_) w
      cases ls[c.asIndex]?.or (some g.label) <;> rfl
    · rw [List.length_append, length_toList hvalue] at hvs
      refine onCondition_matches hvs fun us c hus => ?_
      obtain ⟨label, hlabel, hmarked⟩ := select_marked htargets hfallback c.asIndex
      rw [hlabel, execPlain_brTable]
      exact hmarked.matches hb₄.frames hus stack
  exact push_ends (hb₄.since hb₃.1)
    (fun _ hbelow => .of_children rfl (by simpa [Expr.children] using hbelow)) hnode rfl
    fun stack => brTable_gives depths fallback stack

end

end Builder

end WasmLift
