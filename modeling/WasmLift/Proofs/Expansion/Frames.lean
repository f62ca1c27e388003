import Mathlib.Data.List.Forall2
import WasmLift.Proofs.Execution.Structure
import WasmLift.Proofs.Expansion.Emitted

/-!
# Open frames and what they mean

The invariant of a reconstruction. While a body is rebuilt, what was emitted into the innermost
frame is a stack program that matches the instructions rebuilt so far (`Builder.Stands`): the same
values end up on the stack, and each exit of the tree stands for a branch to an open frame
(`Frame.Follows`). Frames around it wait unchanged, except that their labels may become used
(`Builder.Grows`). The steps that take operands keep the invariant (`takeValue_keeps`,
`takeValues_keeps`, `takeCarried_keeps`).
-/

namespace WasmLift

open Run

/-! ## Steps that succeed -/

namespace Builder

section
variable {α β : Type} {b : Builder} {Q : α → Builder → Prop} {Q' : β → Builder → Prop}

/-- A step that succeeds hands its result and its state to what comes after it. -/
theorem bind_run {x : Build α} {a : α} {c : Builder} (hx : x b = .ok (a, c)) (f : α → Build β) :
    (x >>= f) b = f a c := by
  show (x b >>= fun p => f p.1 p.2) = _
  rw [hx]
  rfl

/-- The innermost frame is there if a frame is open. -/
theorem top_run {f : Frame} {outer : List Frame} (hb : b.frames = f :: outer) :
    top b = .ok (f, b) := by
  rw [top, bind_run (a := b) rfl, hb]
  rfl

/-- The innermost frame is changed if a frame is open. -/
theorem modifyTop_run {f : Frame} {outer : List Frame} (hb : b.frames = f :: outer)
    (g : Frame → Frame) : modifyTop g b = .ok ((), { b with frames := g f :: outer }) := by
  rw [modifyTop, bind_run (a := b) rfl, hb]
  rfl

/-- The step succeeds, with a result and a state of which `Q` holds. -/
def Yields (x : Build α) (b : Builder) (Q : α → Builder → Prop) : Prop :=
  ∃ a b', x b = .ok (a, b') ∧ Q a b'

/-- A step succeeds with the result it is known to have. -/
theorem Yields.of_eq {x : Build α} {a : α} {c : Builder} (hx : x b = .ok (a, c)) (hq : Q a c) :
    Yields x b Q :=
  ⟨a, c, hx, hq⟩

/-- A result that is given at once leaves the state alone. -/
theorem Yields.pure {a : α} (hq : Q a b) : Yields (pure a) b Q :=
  ⟨a, b, rfl, hq⟩

/-- Two steps succeed one after the other if the second does from all that the first may yield. -/
theorem Yields.bind {x : Build α} {f : α → Build β} (hx : Yields x b Q)
    (hf : ∀ a b', Q a b' → Yields (f a) b' Q') : Yields (x >>= f) b Q' := by
  obtain ⟨a, b', hx, hq⟩ := hx
  obtain ⟨c, b'', hf, hq'⟩ := hf a b' hq
  exact ⟨c, b'', (bind_run hx f).trans hf, hq'⟩

/-- A step whose result is known may be taken first. -/
theorem Yields.after {x : Build α} {f : α → Build β} {a : α} {c : Builder} (hx : x b = .ok (a, c))
    (hf : Yields (f a) c Q') : Yields (x >>= f) b Q' := by
  obtain ⟨a', c', hf, hq⟩ := hf
  exact ⟨a', c', (bind_run hx f).trans hf, hq⟩

/-- What a step yields in a state depends on what it does there only. -/
theorem Yields.congr {x y : Build α} (hxy : x b = y b) (hy : Yields y b Q) : Yields x b Q := by
  obtain ⟨a, c, hy, hq⟩ := hy
  exact ⟨a, c, hxy.trans hy, hq⟩

/-- What is yielded may be weakened. -/
theorem Yields.mono {x : Build α} {R : α → Builder → Prop} (hx : Yields x b Q)
    (hq : ∀ a b', Q a b' → R a b') : Yields x b R := by
  obtain ⟨a, b', hx, hq'⟩ := hx
  exact ⟨a, b', hx, hq a b' hq'⟩

end

end Builder

/-! ## Branches and frames -/

namespace Frame

/-- The exit of a tree stands for the exit of the instructions inside the given frames: a jump to a
used label is a branch to the frame that bears it, a return is a branch to the outermost one. -/
inductive Follows (frames : List Frame) : Exit Label → Exit Nat → Prop where
  | jump {depth : Nat} {f : Frame} {v : Option Value} (hf : frames[depth]? = some f)
      (hused : f.labelUsed = true) (hv : v.isSome = (f.branchTy != .void)) :
      Follows frames (.jump f.label v) (.jump depth v)
  | ret {depth : Nat} {v : Option Value} (hd : depth + 1 = frames.length) :
      Follows frames (.ret v) (.jump depth v)
  | trap (t : Trap) : Follows frames (.trap t) (.trap t)
  | exhausted : Follows frames .exhausted .exhausted

/-- The same frame at a later time, when other nodes may have been emitted. -/
structure Resumes (f f' : Frame) : Prop where
  kind : f'.kind = f.kind
  label : f'.label = f.label
  result : f'.result = f.result
  used : f.labelUsed = true → f'.labelUsed = true

/-- The same frame at a later time, when no other node was emitted. -/
structure Waits (f f' : Frame) : Prop extends Resumes f f' where
  emitted : f'.emitted = f.emitted
  unreachable : f'.unreachable = f.unreachable

/-- A frame is the same at once. -/
theorem Resumes.refl (f : Frame) : Resumes f f := ⟨rfl, rfl, rfl, id⟩

/-- A frame is the same at once, with the same nodes. -/
theorem Waits.refl (f : Frame) : Waits f f := ⟨.refl f, rfl, rfl⟩

/-- Being the same frame later goes on from one time to the next. -/
theorem Resumes.trans {f g k : Frame} (h₁ : Resumes f g) (h₂ : Resumes g k) : Resumes f k :=
  ⟨h₂.kind.trans h₁.kind, h₂.label.trans h₁.label, h₂.result.trans h₁.result,
    fun hu => h₂.used (h₁.used hu)⟩

/-- Waiting goes on from one time to the next. -/
theorem Waits.trans {f g k : Frame} (h₁ : Waits f g) (h₂ : Waits g k) : Waits f k :=
  ⟨h₁.toResumes.trans h₂.toResumes, h₂.emitted.trans h₁.emitted,
    h₂.unreachable.trans h₁.unreachable⟩

/-- Branches to a frame carry the same values later. -/
theorem Resumes.branchTy {f f' : Frame} (hf : Resumes f f') : f'.branchTy = f.branchTy := by
  rw [Frame.branchTy, Frame.branchTy, hf.kind, hf.result]

/-- A frame whose label becomes used still waits. -/
theorem Waits.use (f : Frame) : Waits f { f with labelUsed := true } :=
  ⟨⟨rfl, rfl, rfl, fun _ => rfl⟩, rfl, rfl⟩

/-- The frame at a depth is the same one later. -/
theorem resumes_getElem {frames frames' : List Frame} (hf : List.Forall₂ Resumes frames frames')
    {depth : Nat} {f : Frame} (hd : frames[depth]? = some f) :
    ∃ f', frames'[depth]? = some f' ∧ Resumes f f' := by
  induction hf generalizing depth with
  | nil => simp at hd
  | cons hfg _ ih =>
    cases depth with
    | zero =>
      cases hd
      exact ⟨_, rfl, hfg⟩
    | succ depth => exact ih hd

/-- What the same frame has at all times, open frames have at all times. -/
theorem map_eq_of_resumes {α : Type} {g : Frame → α} (hg : ∀ {f f'}, Resumes f f' → g f' = g f)
    {frames frames' : List Frame} (hf : List.Forall₂ Resumes frames frames') :
    frames'.map g = frames.map g := by
  induction hf with
  | nil => rfl
  | cons hfg _ ih => rw [List.map_cons, List.map_cons, hg hfg, ih]

/-- An exit that stands for a branch to a frame still does later, as labels only become used. -/
theorem Follows.resume {frames frames' : List Frame} (hf : List.Forall₂ Resumes frames frames')
    {e : Exit Label} {e' : Exit Nat} (he : Follows frames e e') : Follows frames' e e' := by
  cases he with
  | jump hd hused hv =>
    obtain ⟨f', hd', hr⟩ := resumes_getElem hf hd
    rw [← hr.label]
    exact .jump hd' (hr.used hused) (hv.trans (by rw [hr.branchTy]))
  | ret hd => exact .ret (hd.trans hf.length_eq)
  | trap t => exact .trap t
  | exhausted => exact .exhausted

/-- The frame of an `if` keeps its label when its second arm begins. -/
theorem Follows.relabel {f f' : Frame} {outer : List Frame} (hty : f'.branchTy = f.branchTy)
    (hlabel : f'.label = f.label) (hused : f.labelUsed = true → f'.labelUsed = true)
    {e : Exit Label} {e' : Exit Nat} (he : Follows (f :: outer) e e') :
    Follows (f' :: outer) e e' := by
  cases he with
  | @jump depth g v hd hu hv =>
    cases depth with
    | zero =>
      cases hd
      rw [← hlabel]
      exact .jump rfl (hused hu) (hty ▸ hv)
    | succ depth =>
      refine .jump ?_ hu hv
      exact hd
  | ret hd => exact .ret hd
  | trap t => exact .trap t
  | exhausted => exact .exhausted

end Frame

/-! ## The invariant -/

namespace Builder

/-- What a reconstruction inside one frame does to the state: it may add locals and nodes of the
innermost frame, while the frames around it wait. -/
structure Grows (b b' : Builder) : Prop where
  locals : b.locals.length ≤ b'.locals.length
  frames : List.Forall₂ Frame.Resumes b.frames b'.frames
  outer : List.Forall₂ Frame.Waits b.frames.tail b'.frames.tail

/-- Doing nothing adds nothing. -/
theorem Grows.refl (b : Builder) : Grows b b :=
  ⟨Nat.le_refl _, List.forall₂_same.2 fun f _ => .refl f, List.forall₂_same.2 fun f _ => .refl f⟩

/-- Two lists related element by element to a third are related to each other, if the relation is
transitive. -/
theorem forall₂_trans {α : Type} {R : α → α → Prop} (hR : ∀ x y z, R x y → R y z → R x z)
    {xs ys zs : List α} (h₁ : List.Forall₂ R xs ys) (h₂ : List.Forall₂ R ys zs) :
    List.Forall₂ R xs zs := by
  induction h₁ generalizing zs with
  | nil => exact h₂
  | cons hxy _ ih => cases h₂ with | cons hyz h₂ => exact .cons (hR _ _ _ hxy hyz) (ih h₂)

/-- What one step and then another add, both add. -/
theorem Grows.trans {b b' b'' : Builder} (h₁ : Grows b b') (h₂ : Grows b' b'') : Grows b b'' :=
  ⟨Nat.le_trans h₁.locals h₂.locals,
    forall₂_trans (R := Frame.Resumes) (fun _ _ _ => .trans) h₁.frames h₂.frames,
    forall₂_trans (R := Frame.Waits) (fun _ _ _ => .trans) h₁.outer h₂.outer⟩

section
variable (h : Host) (resolve : NameId → Nat) (bound : Nat) (locals labels : List Ty)

/-- The innermost frame is `f`, in frames `outer` to which branches carry values of the types
`labels`, and what was emitted into it, followed by the operands `es`, does what the instructions
`M` do. -/
structure Stands (b : Builder) (f : Frame) (outer : List Frame) (es : List Expr)
    (M : Run h Nat (List Value)) : Prop where
  frames : b.frames = f :: outer
  alive : b.deadConstructs = 0
  declared : locals <+: b.locals
  carries : labels = (f :: outer).map Frame.branchTy
  ordered : (f :: outer).Pairwise fun inner outer => outer.label.id < inner.label.id
  fresh : f.label.id < b.freshLabel
  function : ∀ g, (f :: outer).getLast? = some g → g.kind = .function
  values : ∀ e ∈ es, e.isValue = true
  below : ∀ e ∈ f.emitted ++ es, Expr.Below b.locals.length e
  meaning : Matches (World.SameBelow locals.length) (Frame.Follows (f :: outer))
    (fun p stack => stack = p.2.reverse ++ p.1) (Expr.pending h resolve bound f.emitted es) M

/-- In the course of rebuilding an operator, begun at `b₀`: the operands `es` are taken, and `k`
values are left. -/
def Taking (b₀ : Builder) (es : List Expr) (k : Nat) (M : Run h Nat (List Value))
    (b : Builder) : Prop :=
  Grows b₀ b ∧ ∃ f outer, Stands h resolve bound locals labels b f outer es M ∧
    f.unreachable = false ∧ f.emitted.countP Expr.isValue = k

/-- After a transfer of control, begun at `b₀`: the rest of the innermost frame is never reached. -/
def Ended (b₀ : Builder) (M : Run h Nat (List Value)) (b : Builder) : Prop :=
  Grows b₀ b ∧ ∃ f outer, Stands h resolve bound locals labels b f outer [] M ∧
    f.unreachable = true ∧ Gives (fun _ => False) M

/-- Between two operators, begun at `b₀`: there are `k` values, or the place is never reached. -/
def Ready (b₀ : Builder) (k : Nat) (M : Run h Nat (List Value)) (b : Builder) : Prop :=
  Taking h resolve bound locals labels b₀ [] k M b ∨ Ended h resolve bound locals labels b₀ M b

end

/-! ## Taking operands -/

/-- Among nodes with a value there is a latest one, and the nodes after it have none. -/
theorem splitValue_some : ∀ {emitted : List Expr}, 0 < emitted.countP Expr.isValue →
    ∃ later value earlier, splitValue emitted = some (later, value, earlier) ∧
      emitted = later ++ value :: earlier ∧ value.isValue = true ∧
      ∀ e ∈ later, e.isValue = false
  | e :: rest, hpos => by
    rw [splitValue]
    split
    · next he => exact ⟨[], e, rest, rfl, rfl, he, by simp⟩
    · next he =>
      rw [List.countP_cons_of_neg he] at hpos
      obtain ⟨later, value, earlier, hsplit, rfl, hvalue, hlater⟩ := splitValue_some hpos
      rw [hsplit]
      refine ⟨e :: later, value, earlier, rfl, rfl, hvalue, fun e' he' => ?_⟩
      cases he' with
      | head => simpa using he
      | tail _ he' => exact hlater e' he'

section
variable {h : Host} {resolve : NameId → Nat} {bound : Nat} {locals labels : List Ty}
  {b₀ b : Builder} {es : List Expr} {k : Nat} {M : Run h Nat (List Value)}

/-- A change of the innermost frame and new locals keep everything but the meaning. -/
theorem Stands.change {f g : Frame} {outer : List Frame} {es' : List Expr}
    {M' : Run h Nat (List Value)} (hs : Stands h resolve bound locals labels b f outer es M)
    (hf : f.Resumes g) {all : List Ty} (hall : b.locals <+: all)
    (hvalues : ∀ e ∈ es', e.isValue = true)
    (hbelow : ∀ e ∈ g.emitted ++ es', Expr.Below all.length e)
    (hmeaning : Matches (World.SameBelow locals.length) (Frame.Follows (f :: outer))
      (fun p stack => stack = p.2.reverse ++ p.1) (Expr.pending h resolve bound g.emitted es') M') :
    Stands h resolve bound locals labels { b with locals := all, frames := g :: outer } g outer
      es' M' where
  frames := rfl
  alive := hs.alive
  declared := hs.declared.trans hall
  carries := by rw [hs.carries, List.map_cons, List.map_cons, hf.branchTy]
  ordered := by
    have hordered := hs.ordered
    rw [List.pairwise_cons] at hordered ⊢
    rw [hf.label]
    exact hordered
  fresh := hf.label ▸ hs.fresh
  function := by
    have hfunction := hs.function
    cases outer with
    | nil => simpa [hf.kind] using hfunction
    | cons _ outer => simpa using hfunction
  values := hvalues
  below := hbelow
  meaning := hmeaning.mono (fun _ _ => .resume (.cons hf (List.forall₂_same.2 fun f _ => .refl f)))
    fun _ _ => id

/-- To put a later form of the innermost frame in its place only adds to the state. -/
theorem Stands.grows {f g : Frame} {outer : List Frame}
    (hs : Stands h resolve bound locals labels b f outer es M) (hf : f.Resumes g) {all : List Ty}
    (hall : b.locals <+: all) : Grows b { b with locals := all, frames := g :: outer } where
  locals := hall.length_le
  frames := by
    rw [hs.frames]
    exact .cons hf (List.forall₂_same.2 fun f _ => .refl f)
  outer := by
    rw [hs.frames]
    exact List.forall₂_same.2 fun f _ => .refl f

/-- A taken operand stands for the same stack. -/
theorem meaning_of_sameStack {n : Nat} {frames : List Frame} {emitted emitted' es' : List Expr}
    (hsame : ∀ w, EndsMatch (World.SameBelow n) Eq Expr.SameStack
      (Expr.pending h resolve bound emitted' es' w) (Expr.pending h resolve bound emitted es w))
    (hm : Matches (World.SameBelow n) (Frame.Follows frames)
      (fun p stack => stack = p.2.reverse ++ p.1) (Expr.pending h resolve bound emitted es) M) :
    Matches (World.SameBelow n) (Frame.Follows frames) (fun p stack => stack = p.2.reverse ++ p.1)
      (Expr.pending h resolve bound emitted' es') M := by
  refine (Matches.trans hsame hm World.SameBelow.trans).mono (fun _ _ => id) ?_
  rintro p stack ⟨q, hpq, rfl⟩
  exact hpq.symm

/-- A value can be taken where one is left, and it is the first operand then. -/
theorem takeValue_keeps (consumer : String)
    (hb : Taking h resolve bound locals labels b₀ es (k + 1) M b) :
    Yields (takeValue consumer) b fun e b' =>
      Taking h resolve bound locals labels b₀ (e :: es) k M b' := by
  obtain ⟨hgrows, f, outer, hs, hlive, hcount⟩ := hb
  have hpos : 0 < f.emitted.countP Expr.isValue := by omega
  obtain ⟨later, value, earlier, hsplit, hemitted, hvalue, hlater⟩ :=
    splitValue_some hpos
  have hnone : later.countP Expr.isValue = 0 := by
    simpa [List.countP_eq_zero] using hlater
  have hbelow := hs.below
  have hmeaning := hs.meaning
  rw [hemitted] at hcount hbelow hmeaning
  cases later with
  | nil =>
    let f' := { f with emitted := earlier }
    have hf : f.Resumes f' := ⟨rfl, rfl, rfl, id⟩
    refine .of_eq (a := value) (c := { b with locals := b.locals, frames := f' :: outer }) ?_
      ⟨hgrows.trans (hs.grows hf (List.prefix_refl _)), f', outer, ?_, hlive, ?_⟩
    · rw [takeValue, bind_run (top_run hs.frames), hsplit]
      exact bind_run (modifyTop_run hs.frames _) _
    · refine hs.change hf (List.prefix_refl _) ?_ ?_ ?_
      · exact List.forall_mem_cons.2 ⟨hvalue, hs.values⟩
      · intro e he
        exact hbelow e (by simpa [f', or_left_comm] using he)
      · exact meaning_of_sameStack (Expr.pending_take _ hvalue _ _) hmeaning
    · simpa [hvalue] using hcount
  | cons e later =>
    let set : Expr := .localSet b.locals.length value false .void
    let f' := { f with emitted := e :: later ++ set :: earlier }
    let spilled := { b with locals := b.locals ++ [value.ty] }
    have hf : f.Resumes f' := ⟨rfl, rfl, rfl, id⟩
    have hall : b.locals <+: b.locals ++ [value.ty] := List.prefix_append _ _
    have hty : value.ty ≠ .void := by simpa [Expr.isValue] using hvalue
    have hlength : (b.locals ++ [value.ty]).length = b.locals.length + 1 := by simp
    have hset : Expr.Below (b.locals.length + 1) set := by
      refine .node (fun i hi => ?_) (List.forall_mem_singleton.2 ?_)
      · cases hi
        exact Nat.lt_succ_self _
      · exact (hbelow value (by simp)).mono (Nat.le_succ _)
    have hget : Expr.Below (b.locals.length + 1) (.localGet b.locals.length value.ty) := by
      refine .node (fun i hi => ?_) (by simp [Expr.children])
      cases hi
      exact Nat.lt_succ_self _
    refine .of_eq (a := .localGet b.locals.length value.ty)
      (c := { b with locals := b.locals ++ [value.ty], frames := f' :: outer }) ?_
      ⟨hgrows.trans (hs.grows hf hall), f', outer, ?_, hlive, ?_⟩
    · rw [takeValue, bind_run (top_run hs.frames), hsplit]
      dsimp only
      rw [bind_run (a := b) rfl, bind_run (a := ()) (c := spilled) rfl]
      exact bind_run (modifyTop_run (b := spilled) hs.frames _) _
    · refine hs.change hf hall ?_ ?_ ?_
      · exact List.forall_mem_cons.2 ⟨hvalue, hs.values⟩
      · rw [hlength]
        intro x hx
        simp only [f', List.mem_append, List.mem_cons] at hx hbelow
        rcases hx with (hx | rfl | hx) | rfl | hx
        · exact (hbelow x (.inl (.inl hx))).mono (Nat.le_succ _)
        · exact hset
        · exact (hbelow x (.inl (.inr (.inr hx)))).mono (Nat.le_succ _)
        · exact hget
        · exact (hbelow x (.inr hx)).mono (Nat.le_succ _)
      · refine meaning_of_sameStack (fun w => ?_) hmeaning
        refine Expr.pending_spill hs.declared.length_le (Nat.le_refl _) hvalue hlater ?_ ?_ _ hty w
        · exact fun x hx => hbelow x (List.mem_append_left _ (List.mem_append_left _ hx))
        · exact fun x hx => hbelow x (List.mem_append_right _ hx)
    · rw [List.countP_append, hnone, List.countP_cons_of_pos hvalue] at hcount
      show (e :: later ++ set :: earlier).countP Expr.isValue = k
      rw [List.countP_append, hnone, List.countP_cons_of_neg (by simp [set, Expr.isValue, Expr.ty])]
      omega

/-- Several values can be taken where as many are left. -/
theorem takeValues_keeps (consumer : String) (n : Nat) (taken : List Expr)
    (hb : Taking h resolve bound locals labels b₀ (taken ++ es) (n + k) M b) :
    Yields (takeValues consumer n taken) b fun taken' b' =>
      taken'.length = n + taken.length ∧
        Taking h resolve bound locals labels b₀ (taken' ++ es) k M b' := by
  induction n generalizing taken b with
  | zero => exact .pure ⟨(Nat.zero_add _).symm, by simpa using hb⟩
  | succ n ih =>
    rw [Nat.add_right_comm] at hb
    refine (takeValue_keeps consumer hb).bind fun e b' hb' => ?_
    refine (ih (e :: taken) hb').mono fun taken' b'' hb'' => ⟨?_, hb''.2⟩
    rw [hb''.1, List.length_cons]
    omega

/-- The value that a branch carries can be taken, if it carries one. -/
theorem takeCarried_keeps (consumer : String) {ty : Ty}
    (hb : Taking h resolve bound locals labels b₀ es (ty.arity + k) M b) :
    Yields (takeCarried ty consumer) b fun value b' =>
      value.isSome = (ty != .void) ∧
        Taking h resolve bound locals labels b₀ (value.toList ++ es) k M b' := by
  rw [takeCarried]
  by_cases hty : ty = .void
  · rw [if_pos hty]
    exact .pure ⟨by simp [hty], by simpa [hty, Ty.arity] using hb⟩
  · rw [if_neg hty]
    rw [Ty.arity, if_neg hty, Nat.add_comm] at hb
    exact (takeValue_keeps consumer hb).bind fun e b' hb' => .pure ⟨by simp [hty], hb'⟩

/-! ## Marking labels -/

/-- The frames may have waited meanwhile. -/
theorem Stands.wait {f g : Frame} {outer outer' : List Frame} {c : Builder}
    (hs : Stands h resolve bound locals labels b f outer es M) (hf : f.Waits g)
    (houter : List.Forall₂ Frame.Waits outer outer') (hframes : c.frames = g :: outer')
    (halive : c.deadConstructs = 0) (hdeclared : locals <+: c.locals)
    (hlocals : b.locals.length ≤ c.locals.length) (hfresh : f.label.id < c.freshLabel) :
    Stands h resolve bound locals labels c g outer' es M := by
  have hall : List.Forall₂ Frame.Resumes (f :: outer) (g :: outer') :=
    .cons hf.toResumes (houter.imp fun _ _ hw => hw.toResumes)
  refine ⟨hframes, halive, hdeclared, ?_, ?_, hf.label ▸ hfresh, ?_, hs.values, ?_, ?_⟩
  · rw [hs.carries]
    exact (Frame.map_eq_of_resumes (fun hr => hr.branchTy) hall).symm
  · have hordered := hs.ordered
    have hlabels := Frame.map_eq_of_resumes (fun hr => hr.label) hall
    rw [← List.pairwise_map (f := Frame.label) (R := fun x y => y.id < x.id)] at hordered ⊢
    rw [hlabels]
    exact hordered
  · have hkinds := Frame.map_eq_of_resumes (fun hr => hr.kind) hall
    have hfunction : ∀ k ∈ ((f :: outer).map Frame.kind).getLast?, k = .function := by
      rw [List.getLast?_map]
      intro k hk
      obtain ⟨l, hl, rfl⟩ := Option.map_eq_some_iff.1 hk
      exact hs.function l hl
    rw [← hkinds, List.getLast?_map] at hfunction
    exact fun l hl => hfunction l.kind (by rw [hl]; rfl)
  · rw [hf.emitted]
    exact fun e he => (hs.below e he).mono hlocals
  · rw [hf.emitted]
    exact hs.meaning.mono (fun _ _ => .resume hall) fun _ _ => id

/-- A frame is found at its depth. -/
theorem frameAt_run {depth : Nat} {f : Frame} (hf : b.frames[depth]? = some f) :
    frameAt depth b = .ok (f, b) := by
  rw [frameAt, bind_run (a := b) rfl, hf]
  rfl

/-- To mark a label leaves all frames waiting. -/
theorem modify_waits (frames : List Frame) (depth : Nat) :
    List.Forall₂ Frame.Waits frames (frames.modify depth ({ · with labelUsed := true })) := by
  induction frames generalizing depth with
  | nil => simp
  | cons f outer ih =>
    cases depth with
    | zero => exact .cons (.use f) (List.forall₂_same.2 fun f _ => .refl f)
    | succ depth => exact .cons (.refl f) (ih depth)

/-- Marking a label changes nothing else. -/
theorem markUsed_keeps {depth : Nat} {g : Frame} (hg : b.frames[depth]? = some g)
    (hb : Taking h resolve bound locals labels b₀ es k M b) :
    Yields (markUsed depth) b fun _ b' =>
      Taking h resolve bound locals labels b₀ es k M b' ∧ Grows b b' ∧
        b'.frames[depth]? = some { g with labelUsed := true } := by
  obtain ⟨hgrows, f, outer, hs, hlive, hcount⟩ := hb
  have hwaits := modify_waits b.frames depth
  have hmarked : (b.frames.modify depth ({ · with labelUsed := true }))[depth]? =
      some { g with labelUsed := true } := by simp [hg]
  generalize hframes : b.frames.modify depth ({ · with labelUsed := true }) = frames
    at hwaits hmarked
  have hwaits' := hwaits
  rw [hs.frames] at hwaits'
  cases hwaits' with
  | @cons _ f' _ outer' hf houter =>
    have hgrown : Grows b { b with frames := f' :: outer' } :=
      ⟨Nat.le_refl _, hwaits.imp fun _ _ hw => hw.toResumes, by rw [hs.frames]; exact houter⟩
    refine .of_eq (a := ()) (c := { b with frames := f' :: outer' }) ?_
      ⟨⟨hgrows.trans hgrown, f', outer', ?_, ?_, ?_⟩, hgrown, hmarked⟩
    · rw [← hframes]
      rfl
    · exact hs.wait hf houter rfl hs.alive hs.declared (Nat.le_refl _) hs.fresh
    · rw [hf.unreachable, hlive]
    · rw [hf.emitted, hcount]

/-! ## Emitting nodes -/

/-- Operands give one value each. -/
theorem operands_length (es : List Expr) :
    Gives (fun vs => vs.length = es.length) (Expr.operands h resolve bound es) := by
  induction es with
  | nil => exact .pure rfl
  | cons e rest ih => exact .bind fun v => ih.seq fun vs hvs => .pure (by simp [hvs])

/-- Pending nodes leave one value for each operand. -/
theorem pending_length (emitted es : List Expr) :
    Gives (fun p => p.2.length = es.length) (Expr.pending h resolve bound emitted es) :=
  .bind fun _ => (operands_length es).seq fun _ hvs => .pure hvs

/-- A node that takes the operands and goes on with `act`, where the instructions go on with
`step`. Its own exits may depend on the exits of the operands being branches to open frames. -/
structure Performs (h : Host) (resolve : NameId → Nat) (bound : Nat) (n : Nat)
    (frames : List Frame) (es : List Expr) (e : Expr)
    (act : List Value → Run h Label (Option Value)) (step : List Value → Run h Nat (List Value)) :
    Prop where
  eval : ∀ w, (∀ x w', Expr.operands h resolve bound es w = (.error x, w') →
      ∃ x', Frame.Follows frames x x') →
    Expr.eval h resolve bound e w = (Expr.operands h resolve bound es >>= act) w
  step : ∀ vs stack, vs.length = es.length →
    Matches (World.SameBelow n) (Frame.Follows frames) (fun v s => s = v.toList ++ stack) (act vs)
      (step (vs.reverse ++ stack))

/-- The meaning of a frame after a node that takes the operands. -/
theorem Performs.meaning {n : Nat} {frames : List Frame} {emitted : List Expr} {e : Expr}
    {act : List Value → Run h Label (Option Value)} {step : List Value → Run h Nat (List Value)}
    (he : Performs h resolve bound n frames es e act step)
    (hm : Matches (World.SameBelow n) (Frame.Follows frames)
      (fun p stack => stack = p.2.reverse ++ p.1) (Expr.pending h resolve bound emitted es) M) :
    Matches (World.SameBelow n) (Frame.Follows frames) (fun p stack => stack = p.2.reverse ++ p.1)
      (Expr.pending h resolve bound (e :: emitted) []) (M >>= step) := by
  intro w w' hw
  have hbind := (hm.and_gives (pending_length emitted es) .trivial).bind
    (S := fun p stack => stack = p.2.reverse ++ p.1) (g := step)
    (f := fun p => do return (Option.toList (← act p.2) ++ p.1, []))
    (fun p stack hp => by
      rw [hp.1, ← bind_pure (step _)]
      refine (he.step p.2 p.1 hp.2.1).bind fun v s hv => .pure ?_
      simpa using hv)
  have hends := hbind w w' hw
  -- The operands leave the frame at most by branches, so the node runs as it should.
  suffices hsame : Expr.pending h resolve bound (e :: emitted) [] w =
      (Expr.pending h resolve bound emitted es >>= fun p => do
        return (Option.toList (← act p.2) ++ p.1, [])) w by
    rw [hsame]
    exact hends
  have hfollows := hm w w' hw
  simp only [Expr.pending, Expr.stackOn, Expr.operands, bind_assoc, pure_bind] at hfollows ⊢
  rw [bind_apply, bind_apply]
  rcases hstack : Expr.stackOn h resolve bound emitted [] w with ⟨_ | stack, w₁⟩
  · rfl
  dsimp only
  rw [bind_apply_ok hstack] at hfollows
  rw [bind_apply, he.eval w₁ fun x w₂ hx => ?_, ← bind_apply, bind_assoc]
  rw [bind_apply_error hx] at hfollows
  generalize M w' = rm at hfollows
  cases hfollows with | error hx _ => exact ⟨_, hx⟩

section
variable {f : Frame} {outer : List Frame} {e : Expr}
  {act : List Value → Run h Label (Option Value)} {step : List Value → Run h Nat (List Value)}

/-- Emitting a node that takes the operands. -/
theorem Stands.emit (hs : Stands h resolve bound locals labels b f outer es M)
    (hbelow : locals.length ≤ b.locals.length → (∀ x ∈ es, Expr.Below b.locals.length x) →
      Expr.Below b.locals.length e)
    (he : Performs h resolve bound locals.length (f :: outer) es e act step) (dead : Bool) :
    Stands h resolve bound locals labels
      { b with frames := { f with emitted := e :: f.emitted, unreachable := dead } :: outer }
      { f with emitted := e :: f.emitted, unreachable := dead } outer [] (M >>= step) := by
  refine hs.change (g := { f with emitted := e :: f.emitted, unreachable := dead })
    ⟨rfl, rfl, rfl, id⟩ (List.prefix_refl _) (by simp) ?_ (he.meaning hs.meaning)
  intro x hx
  rw [List.append_nil] at hx
  rcases List.mem_cons.1 hx with rfl | hx
  · exact hbelow hs.declared.length_le fun y hy => hs.below y (List.mem_append_right _ hy)
  · exact hs.below x (List.mem_append_left _ hx)

/-- A node adds one to the values in its frame, if it has one. -/
theorem countP_emit (e : Expr) (emitted : List Expr) :
    (e :: emitted).countP Expr.isValue = e.ty.arity + emitted.countP Expr.isValue := by
  rw [List.countP_cons, Nat.add_comm, Ty.arity, Expr.isValue]
  by_cases hty : e.ty = .void <;> simp [hty]

/-- A node that takes the operands taken so far, and goes on, is put in their place. -/
theorem push_keeps (hb : Taking h resolve bound locals labels b₀ es k M b)
    (hbelow : locals.length ≤ b.locals.length → (∀ x ∈ es, Expr.Below b.locals.length x) →
      Expr.Below b.locals.length e)
    (he : Performs h resolve bound locals.length b.frames es e act step)
    (hgoes : e.isTerminator = false) :
    Yields (push e) b fun _ b' =>
      Taking h resolve bound locals labels b₀ [] (e.ty.arity + k) (M >>= step) b' := by
  obtain ⟨hgrows, f, outer, hs, hlive, hcount⟩ := hb
  rw [hs.frames] at he
  refine .of_eq (modifyTop_run hs.frames _)
    ⟨hgrows.trans (hs.grows ?_ (List.prefix_refl _)), _, outer, hs.emit hbelow he _, ?_, ?_⟩
  · exact ⟨rfl, rfl, rfl, id⟩
  · simp [hlive, hgoes]
  · rw [countP_emit, hcount]

/-- A node that takes the operands and never goes on ends the stretch. -/
theorem push_ends (hb : Taking h resolve bound locals labels b₀ es k M b)
    (hbelow : locals.length ≤ b.locals.length → (∀ x ∈ es, Expr.Below b.locals.length x) →
      Expr.Below b.locals.length e)
    (he : Performs h resolve bound locals.length b.frames es e act step)
    (hends : e.isTerminator = true) (hdead : ∀ stack, Gives (fun _ => False) (step stack)) :
    Yields (push e) b fun _ b' => Ended h resolve bound locals labels b₀ (M >>= step) b' := by
  obtain ⟨hgrows, f, outer, hs, -, -⟩ := hb
  rw [hs.frames] at he
  refine .of_eq (modifyTop_run hs.frames _)
    ⟨hgrows.trans (hs.grows ?_ (List.prefix_refl _)), _, outer, hs.emit hbelow he _, ?_, ?_⟩
  · exact ⟨rfl, rfl, rfl, id⟩
  · simp [hends]
  · exact .bind hdead

end

end

end Builder

end WasmLift
