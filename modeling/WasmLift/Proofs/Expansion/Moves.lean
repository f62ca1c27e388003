import WasmLift.Proofs.Execution.Nodes
import WasmLift.Proofs.Expansion.Body
import WasmLift.Proofs.Outcomes

/-!
# What a reconstruction can do

Every step of a reconstruction that succeeds, on any operators, is made of a few moves
(`Builder.Move`): it stores a value into a scratch local, makes a node out of the last nodes of the
innermost frame, opens a construct, passes to the second arm of an `if`, or folds a finished
construct into the one around it. An operand that has been taken counts as still standing in the
innermost frame, until a node is made of it (`Builder.hold`). What every move keeps holds of every
accepted body.
-/

namespace WasmLift

/-- The nodes that a frame was opened with: the condition of an `if`, and its first arm once the
second is open. -/
def FrameKind.held : FrameKind → List Expr
  | .function | .block | .loop => []
  | .ifThen condition => [condition]
  | .ifElse condition thenArm _ => condition :: thenArm

namespace Frame

/-- All nodes that stand in a frame, in order. -/
def content (f : Frame) : List Expr :=
  f.kind.held ++ f.emitted.reverse

/-- The nodes that a finished construct, other than the function, leaves in the one around it. -/
def folded (f : Frame) : List Expr :=
  match f.kind with
  | .function => []
  | .block =>
    match f.usedLabel with
    | some _ => [.block f.usedLabel f.emitted.reverse f.result]
    | none => f.emitted.reverse
  | .loop => [.loop f.usedLabel (.sequence f.emitted.reverse f.result) f.result]
  | .ifThen condition =>
    [Builder.conditional f.usedLabel condition (.sequence f.emitted.reverse f.result) none f.result]
  | .ifElse condition thenArm _ =>
    [Builder.conditional f.usedLabel condition (.sequence thenArm f.result)
      (some (.sequence f.emitted.reverse f.result)) f.result]

/-- Marks the labels of the frames at the given depths. -/
def marked (depths : List Nat) (frames : List Frame) : List Frame :=
  depths.foldl (fun frames depth => frames.modify depth ({ · with labelUsed := true })) frames

end Frame

namespace Builder

/-- The state with operands put back into the innermost frame. -/
def hold (hand : List Expr) (b : Builder) : Builder :=
  { b with frames := b.frames.modifyHead fun f => { f with emitted := hand.reverse ++ f.emitted } }

/-- The state with the innermost frames replaced. -/
abbrev withFrames (b : Builder) (frames : List Frame) : Builder :=
  { b with frames := frames }

/-- A move of a reconstruction, with the nodes that it makes. -/
inductive Move : Builder → List Expr → Builder → Prop where
  /-- A value is stored into a scratch local where it stands, and read again further on. -/
  | spill {b : Builder} {f : Frame} {outer : List Frame} {value : Expr}
      {before between after : List Expr} (frames : b.frames = f :: outer)
      (emitted : f.emitted = after ++ between ++ value :: before) :
      Move b []
        { b with
          locals := b.locals ++ [value.ty]
          frames :=
            { f with emitted := after ++ .localGet b.locals.length value.ty :: between ++
                .localSet b.locals.length value false .void :: before } :: outer }
  /-- A node is made of the last nodes, and the labels it jumps to are marked. -/
  | make {b : Builder} {f : Frame} {outer : List Frame} {e : Expr} {before : List Expr}
      {depths : List Nat} {dead : Bool} (frames : b.frames = f :: outer)
      (emitted : f.emitted = e.children.reverse ++ before) (label : e.label? = none)
      (own : ∀ i, e.ownLocal? = some i → i < b.locals.length)
      (targets : e.branchTargets.map some = depths.map fun d => b.frames[d]?.map Frame.label) :
      Move b [e]
        (b.withFrames (Frame.marked depths
          ({ f with emitted := e :: before, unreachable := dead } :: outer)))
  | flag {b : Builder} {f : Frame} {outer : List Frame} {dead : Bool}
      (frames : b.frames = f :: outer) :
      Move b [] (b.withFrames ({ f with unreachable := dead } :: outer))
  | skip {b : Builder} {depth : Nat} : Move b [] { b with deadConstructs := depth }
  | enter {b : Builder} {k : FrameKind} {result : Ty} (kind : k = .block ∨ k = .loop) :
      Move b [] (b.opened k result)
  /-- An `if` takes its condition along. -/
  | enterIf {b : Builder} {f : Frame} {outer : List Frame} {condition : Expr} {before : List Expr}
      {result : Ty} (frames : b.frames = f :: outer) (emitted : f.emitted = condition :: before) :
      Move b [] ((b.withFrames ({ f with emitted := before } :: outer)).opened
        (.ifThen condition) result)
  | pass {b : Builder} {f : Frame} {outer : List Frame} {condition : Expr}
      (frames : b.frames = f :: outer) (kind : f.kind = .ifThen condition) :
      Move b [] (b.withFrames
        ({ f with
            kind := .ifElse condition f.emitted.reverse f.unreachable
            emitted := []
            unreachable := false } :: outer))
  | leave {b : Builder} {f g : Frame} {outer : List Frame} (frames : b.frames = f :: g :: outer)
      (kind : f.kind ≠ .function) :
      Move b [] (b.withFrames ({ g with emitted := f.folded.reverse ++ g.emitted } :: outer))
  | finish {b : Builder} {f : Frame} {outer : List Frame} (frames : b.frames = f :: outer)
      (kind : f.kind = .function) :
      Move b [] { b with frames := outer, body := some (bodyOf f) }

/-- Moves in a row, with the nodes that they make. -/
inductive Moves : Builder → List Expr → Builder → Prop where
  | refl {b : Builder} : Moves b [] b
  | step {b c d : Builder} {es es' : List Expr} (move : Move b es c) (rest : Moves c es' d) :
      Moves b (es ++ es') d

/-- One move is a row of moves. -/
theorem Move.moves {b c : Builder} {es : List Expr} (h : Move b es c) : Moves b es c := by
  simpa using Moves.step h .refl

/-- Two rows of moves are one. -/
theorem Moves.trans {b c d : Builder} {es es' : List Expr} (h : Moves b es c)
    (h' : Moves c es' d) : Moves b (es ++ es') d := by
  induction h with
  | refl => exact h'
  | step move _ ih => simpa using Moves.step move (ih h')

/-- What a move keeps, moves in a row keep. -/
theorem Moves.keep {P : Builder → Prop} (hP : ∀ {b c es}, Move b es c → P b → P c) {b c : Builder}
    {es : List Expr} (h : Moves b es c) (hb : P b) : P c := by
  induction h with
  | refl => exact hb
  | step move _ ih => exact ih (hP move hb)

/-! ## Steps that succeeded -/

section
variable {α β : Type} {b b' : Builder} {hand : List Expr}

/-- Two steps succeed if the first does and then the second. -/
theorem seq_ok {x : Build α} {f : α → Build β} {r : β} :
    (x >>= f) b = .ok (r, b') ↔ ∃ a c, x b = .ok (a, c) ∧ f a c = .ok (r, b') := by
  show (x b >>= fun p => f p.1 p.2) = _ ↔ _
  rw [bind_eq_ok]
  exact Prod.exists

/-- The innermost frame that is had is the first of the open ones. -/
theorem top_ok {f : Frame} (h : top b = .ok (f, b')) : b' = b ∧ ∃ outer, b.frames = f :: outer := by
  cases hframes : b.frames with
  | nil =>
    rw [top, bind_run (a := b) rfl, hframes] at h
    cases h
  | cons g outer =>
    rw [top_run hframes] at h
    cases h
    exact ⟨rfl, outer, rfl⟩

/-- To change the innermost frame succeeds if one is open. -/
theorem modifyTop_ok {g : Frame → Frame} (h : modifyTop g b = .ok ((), b')) :
    ∃ f outer, b.frames = f :: outer ∧ b' = b.withFrames (g f :: outer) := by
  cases hframes : b.frames with
  | nil =>
    rw [modifyTop, bind_run (a := b) rfl, hframes] at h
    cases h
  | cons f outer =>
    rw [modifyTop_run hframes] at h
    cases h
    exact ⟨f, outer, rfl, rfl⟩

/-- The innermost frame that is changed is the one that is known to be open. -/
theorem modifyTop_at {g : Frame → Frame} {f : Frame} {outer : List Frame}
    (hframes : b.frames = f :: outer) (h : modifyTop g b = .ok ((), b')) :
    b' = b.withFrames (g f :: outer) := by
  rw [modifyTop_run hframes] at h
  cases h
  rfl

/-- Nothing is put back without operands. -/
@[simp] theorem hold_nil (b : Builder) : b.hold [] = b := by
  obtain ⟨locals, _ | ⟨f, outer⟩, label, dead, body⟩ := b <;> rfl

/-- To put operands back declares no local. -/
@[simp] theorem hold_locals (hand : List Expr) (b : Builder) :
    (b.hold hand).locals = b.locals := rfl

/-- Operands that are put back stand behind what was emitted. -/
theorem hold_frames {f : Frame} {outer : List Frame} (h : b.frames = f :: outer)
    (hand : List Expr) :
    (b.hold hand).frames = { f with emitted := hand.reverse ++ f.emitted } :: outer := by
  simp [hold, h]

/-- A change of the state always succeeds. -/
theorem modify_ok {g : Builder → Builder} (h : (modify g : Build Unit) b = .ok ((), b')) :
    b' = g b := by
  cases h
  rfl

/-- A result that is given at once leaves the state alone. -/
theorem pure_ok {a r : α} (h : (pure a : Build α) b = .ok (r, b')) : r = a ∧ b' = b := by
  cases h
  exact ⟨rfl, rfl⟩

/-! ## Taking operands -/

/-- What is split at the latest value is put together again. -/
theorem splitValue_eq {es later earlier : List Expr} {value : Expr}
    (h : splitValue es = some (later, value, earlier)) : es = later ++ value :: earlier := by
  fun_induction splitValue es generalizing later with
  | case1 => cases h
  | case2 e rest hvalue =>
    cases h
    rfl
  | case3 e rest _ hnone => cases h
  | case4 e rest _ later' value' earlier' hsome ih =>
    cases h
    rw [ih hsome, List.cons_append]

/-- The value that is taken from a split frame, and the state afterwards. -/
def taken (b : Builder) (f : Frame) (outer : List Frame) (later : List Expr) (value : Expr)
    (earlier : List Expr) : Expr × Builder :=
  if later = [] then (value, b.withFrames ({ f with emitted := earlier } :: outer))
  else
    (.localGet b.locals.length value.ty,
      { b with
        locals := b.locals ++ [value.ty]
        frames :=
          { f with emitted := later ++ .localSet b.locals.length value false .void :: earlier } ::
            outer })

/-- A value is taken from a frame that has one. -/
theorem takeValue_run {consumer : String} {f : Frame} {outer : List Frame}
    {later earlier : List Expr} {value : Expr} (hframes : b.frames = f :: outer)
    (hsplit : splitValue f.emitted = some (later, value, earlier)) :
    takeValue consumer b = .ok (b.taken f outer later value earlier) := by
  rw [takeValue, bind_run (top_run hframes), hsplit]
  cases later with
  | nil => exact bind_run (modifyTop_run hframes _) _
  | cons statement later =>
    let c := { b with locals := b.locals ++ [value.ty] }
    refine (bind_run (a := b) (c := b) rfl _).trans ?_
    refine (bind_run (a := ()) (c := c) rfl _).trans ?_
    exact bind_run (modifyTop_run (b := c) hframes _) _

/-- The outcome of taking a value from the innermost frame. -/
theorem takeValue_ok {consumer : String} {v : Expr} (h : takeValue consumer b = .ok (v, b')) :
    ∃ f outer later value earlier, b.frames = f :: outer ∧
      splitValue f.emitted = some (later, value, earlier) ∧
      (v, b') = b.taken f outer later value earlier := by
  obtain ⟨f, c, htop, hrest⟩ := seq_ok.1 h
  obtain ⟨rfl, outer, hframes⟩ := top_ok htop
  cases hsplit : splitValue f.emitted with
  | none =>
    rw [hsplit] at hrest
    cases hrest
  | some split =>
    obtain ⟨later, value, earlier⟩ := split
    rw [takeValue_run hframes hsplit] at h
    exact ⟨f, outer, later, value, earlier, hframes, hsplit, (Except.ok.inj h).symm⟩

/-- To take a value does not finish the body. -/
theorem takeValue_body {consumer : String} {v : Expr} (h : takeValue consumer b = .ok (v, b')) :
    b'.body = b.body := by
  obtain ⟨f, outer, later, value, earlier, -, -, htaken⟩ := takeValue_ok h
  unfold taken at htaken
  split at htaken <;> (cases htaken; rfl)

/-- A value that is taken still stands where it did, or in a scratch local. -/
theorem takeValue_moves {consumer : String} {v : Expr} (h : takeValue consumer b = .ok (v, b'))
    (hand : List Expr) : Moves (b.hold hand) [] (b'.hold (v :: hand)) := by
  obtain ⟨f, outer, later, value, earlier, hframes, hsplit, htaken⟩ := takeValue_ok h
  unfold taken at htaken
  split at htaken
  next hlater =>
    cases htaken
    have hsame : b.hold hand =
        (b.withFrames ({ f with emitted := earlier } :: outer)).hold (v :: hand) := by
      simp [hold, hframes, splitValue_eq hsplit, hlater]
    exact hsame ▸ .refl
  next =>
    cases htaken
    have hspill := @Move.spill (b.hold hand) _ outer value earlier later hand.reverse
      (hold_frames hframes hand) (by simp [splitValue_eq hsplit])
    simpa [hold, hframes] using hspill.moves

/-! ## Marking labels -/

/-- The state with the labels of the frames at the given depths marked. -/
def mark (depths : List Nat) (b : Builder) : Builder :=
  b.withFrames (Frame.marked depths b.frames)

/-- Marking labels does not look at what a frame holds. -/
theorem marked_cons (depths : List Nat) (f : Frame) (outer : List Frame) :
    ∃ used outer', ∀ emitted dead,
      Frame.marked depths ({ f with emitted := emitted, unreachable := dead } :: outer) =
        { f with emitted := emitted, unreachable := dead, labelUsed := used } :: outer' := by
  induction depths generalizing f outer with
  | nil => exact ⟨f.labelUsed, outer, fun _ _ => rfl⟩
  | cons depth rest ih =>
    cases depth with
    | zero => exact ih { f with labelUsed := true } outer
    | succ depth => exact ih f (outer.modify depth ({ · with labelUsed := true }))

/-- What does not depend on marks is the same in marked frames. -/
theorem marked_map {g : Frame → α} (hg : ∀ f, g { f with labelUsed := true } = g f)
    (depths : List Nat) (frames : List Frame) :
    (Frame.marked depths frames).map g = frames.map g := by
  induction depths generalizing frames with
  | nil => rfl
  | cons depth rest ih =>
    rw [Frame.marked, List.foldl_cons, ← Frame.marked, ih]
    exact List.ext_getElem? fun i => by
      simp only [List.getElem?_map, List.getElem?_modify]
      split <;> cases frames[i]? <;> simp [hg]

/-- Labels may be marked in two goes. -/
theorem mark_mark (depths depths' : List Nat) (b : Builder) :
    (b.mark depths).mark depths' = b.mark (depths ++ depths') := by
  simp [mark, Frame.marked]

/-- The label of the frame at a depth. -/
def labelAt? (b : Builder) (depth : Nat) : Option Label :=
  b.frames[depth]?.map Frame.label

/-- The label at a depth depends on the labels of the frames only. -/
theorem labelAt?_eq {c : Builder} (h : c.frames.map Frame.label = b.frames.map Frame.label)
    (depth : Nat) : c.labelAt? depth = b.labelAt? depth := by
  rw [labelAt?, labelAt?, ← List.getElem?_map, h, List.getElem?_map]

/-- To mark labels changes none. -/
@[simp] theorem labelAt?_mark (depths : List Nat) (depth : Nat) :
    (b.mark depths).labelAt? depth = b.labelAt? depth :=
  labelAt?_eq (marked_map (fun _ => rfl) depths b.frames) depth

/-- A state with marked labels has frames if the one before had them. -/
theorem mark_frames {depths : List Nat} {f' : Frame} {outer' : List Frame}
    (h : (b.mark depths).frames = f' :: outer') :
    ∃ f outer used, b.frames = f :: outer ∧ f' = { f with labelUsed := used } ∧
      ∀ emitted dead,
        Frame.marked depths ({ f with emitted := emitted, unreachable := dead } :: outer) =
          { f with emitted := emitted, unreachable := dead, labelUsed := used } :: outer' := by
  cases hframes : b.frames with
  | nil =>
    have := congrArg List.length (marked_map (g := Frame.label) (fun _ => rfl) depths b.frames)
    simp_all [mark]
  | cons f outer =>
    obtain ⟨used, outer₁, hmarked⟩ := marked_cons depths f outer
    have hhead : Frame.marked depths (f :: outer) = { f with labelUsed := used } :: outer₁ :=
      hmarked f.emitted f.unreachable
    rw [mark, hframes, hhead] at h
    obtain ⟨rfl, rfl⟩ := List.cons.inj h
    exact ⟨f, outer, used, rfl, rfl, hmarked⟩

/-- Taking a value does not look at whether labels are marked. -/
theorem takeValue_mark {consumer : String} {depths : List Nat} {v : Expr}
    (h : takeValue consumer (b.mark depths) = .ok (v, b')) :
    ∃ c, takeValue consumer b = .ok (v, c) ∧ b' = c.mark depths := by
  obtain ⟨f', outer', later, value, earlier, hframes', hsplit, htaken⟩ := takeValue_ok h
  obtain ⟨f, outer, used, hframes, rfl, hmarked⟩ := mark_frames hframes'
  refine ⟨(b.taken f outer later value earlier).2, ?_⟩
  have hrun : takeValue consumer b = _ := takeValue_run hframes hsplit
  unfold taken at htaken hrun ⊢
  split at htaken
  next hlater =>
    cases htaken
    rw [if_pos hlater] at hrun ⊢
    refine ⟨hrun, ?_⟩
    simp only [mark, hmarked earlier f.unreachable]
  next hlater =>
    cases htaken
    rw [if_neg hlater] at hrun ⊢
    refine ⟨hrun, ?_⟩
    simp only [mark, hmarked _ f.unreachable]

/-- The value of a branch may be taken before or after labels are marked. -/
theorem takeCarried_mark {consumer : String} {depths : List Nat} {ty : Ty} {v : Option Expr}
    (h : takeCarried ty consumer (b.mark depths) = .ok (v, b')) :
    ∃ c, takeCarried ty consumer b = .ok (v, c) ∧ b' = c.mark depths := by
  unfold takeCarried at h ⊢
  split at h
  next hty =>
    obtain ⟨rfl, rfl⟩ := pure_ok h
    exact ⟨b, by rw [if_pos hty]; rfl, rfl⟩
  next hty =>
    obtain ⟨v, c', hv, hpure⟩ := seq_ok.1 h
    obtain ⟨rfl, rfl⟩ := pure_ok hpure
    obtain ⟨c, htake, rfl⟩ := takeValue_mark hv
    exact ⟨c, by rw [if_neg hty, bind_run htake]; rfl, rfl⟩

/-- To put operands back changes no label. -/
theorem labelAt?_hold (hand : List Expr) (b : Builder) (depth : Nat) :
    (b.hold hand).labelAt? depth = b.labelAt? depth := by
  cases hframes : b.frames with
  | nil => simp [labelAt?, hold, hframes]
  | cons f outer => exact labelAt?_eq (by simp [hold_frames hframes, hframes]) depth

/-! ## Emitting nodes -/

/-- A node is made of the operands in hand, after the labels it jumps to have been marked. -/
theorem pushJump_moves {e : Expr} {depths : List Nat} (h : push e (b.mark depths) = .ok ((), b'))
    (label : e.label? = none) (own : ∀ i, e.ownLocal? = some i → i < b.locals.length)
    (targets : e.branchTargets.map some = depths.map b.labelAt?) :
    Moves (b.hold e.children) [e] b' := by
  obtain ⟨f', outer', hframes', rfl⟩ := modifyTop_ok h
  obtain ⟨f, outer, used, hframes, rfl, hmarked⟩ := mark_frames hframes'
  have hmake := @Move.make (b.hold e.children) _ outer e _ depths
    (f.unreachable || e.isTerminator) (hold_frames hframes _) rfl label own
    (targets.trans (List.map_congr_left fun d _ => (labelAt?_hold _ b d).symm))
  simpa [hold, mark, hframes, hmarked] using hmake.moves

/-- A node is made of the operands in hand. -/
theorem push_moves {e : Expr} (h : push e b = .ok ((), b')) (label : e.label? = none)
    (own : ∀ i, e.ownLocal? = some i → i < b.locals.length) (targets : e.branchTargets = []) :
    Moves (b.hold e.children) [e] b' :=
  pushJump_moves (show push e (b.mark []) = .ok ((), b') from h) label own (by simp [targets])

/-- A value that is taken and put back has at most become a scratch local. -/
theorem pushBack_moves {consumer : String} {v : Expr} {c : Builder}
    (h : takeValue consumer b = .ok (v, c)) (hpush : push v c = .ok ((), b')) : Moves b [] b' := by
  obtain ⟨f, outer, hframes, rfl⟩ := modifyTop_ok hpush
  have hflag := @Move.flag (c.hold [v]) _ outer (f.unreachable || v.isTerminator)
    (hold_frames hframes [v])
  have hmoves := (takeValue_moves h []).trans hflag.moves
  rw [hold_nil] at hmoves
  simpa [hold, hframes] using hmoves

/-- To move the result last makes no node. -/
theorem resultLast_moves (h : resultLast b = .ok ((), b')) : Moves b [] b' := by
  obtain ⟨f, c, htop, hrest⟩ := seq_ok.1 h
  obtain ⟨rfl, -⟩ := top_ok htop
  split at hrest
  · obtain ⟨v, c₁, hv, hpush⟩ := seq_ok.1 hrest
    exact pushBack_moves hv hpush
  · obtain ⟨-, rfl⟩ := pure_ok hrest
    exact .refl

/-! ## Constructs -/

/-- A finished construct is folded into the one around it by moves. -/
theorem append_moves {f : Frame} {outer : List Frame} (hframes : b.frames = f :: outer)
    (hkind : f.kind ≠ .function) (h : append f.folded (b.withFrames outer) = .ok ((), b')) :
    Moves b [] b' := by
  obtain ⟨g, outer', houter, rfl⟩ := modifyTop_ok h
  have houter : outer = g :: outer' := houter
  subst houter
  exact (Move.leave hframes hkind).moves

/-- To mark a frame as dead is made of moves, or of none. -/
theorem markDead_moves {dead : Bool} (h : markDead dead b = .ok ((), b')) : Moves b [] b' := by
  obtain ⟨f, outer, hframes, rfl⟩ := modifyTop_ok h
  exact (Move.flag hframes).moves

/-- What closing a construct other than the function does: its nodes go to the one around it, which
may be dead from then on. -/
theorem fold_eq {f : Frame} (hkind : f.kind ≠ .function) :
    fold f = append f.folded ∨ ∃ dead, fold f = append f.folded >>= fun _ => markDead dead := by
  unfold fold Frame.folded
  cases hk : f.kind with
  | function => exact (hkind hk).elim
  | block => exact .inr ⟨f.unreachable && !f.labelUsed, by cases f.usedLabel <;> rfl⟩
  | loop => exact .inr ⟨f.unreachable, rfl⟩
  | ifThen condition => exact .inl (appendConditional_eq ..)
  | ifElse condition thenArm thenDead =>
    refine .inr ⟨thenDead && f.unreachable && !f.labelUsed, ?_⟩
    dsimp only
    rw [appendConditional_eq]

/-- A finished construct is folded into the one around it. -/
theorem fold_moves {f : Frame} {outer : List Frame} (hframes : b.frames = f :: outer)
    (h : fold f (b.withFrames outer) = .ok ((), b')) : Moves b [] b' := by
  by_cases hkind : f.kind = .function
  · rw [fold_function hkind] at h
    cases h
    exact (Move.finish hframes hkind).moves
  · obtain heq | ⟨dead, heq⟩ := fold_eq hkind
    · exact append_moves hframes hkind (heq ▸ h)
    · rw [heq] at h
      obtain ⟨_, c, happend, hdead⟩ := seq_ok.1 h
      exact (append_moves hframes hkind happend).trans (markDead_moves hdead)

/-- To close a construct makes no node but those of control. -/
theorem close_moves (h : close b = .ok ((), b')) : Moves b [] b' := by
  obtain ⟨_, c, hlast, hrest⟩ := seq_ok.1 h
  obtain ⟨f, c₁, htop, htail⟩ := seq_ok.1 hrest
  obtain ⟨rfl, outer, hframes⟩ := top_ok htop
  obtain ⟨_, c₂, hmodify, hfold⟩ := seq_ok.1 htail
  obtain rfl := modify_ok hmodify
  rw [hframes] at hfold
  exact (resultLast_moves hlast).trans (fold_moves hframes hfold)

/-- To begin the second arm of a conditional makes no node. -/
theorem beginElse_moves (h : beginElse b = .ok ((), b')) : Moves b [] b' := by
  obtain ⟨_, c, hlast, hrest⟩ := seq_ok.1 h
  obtain ⟨f, c₁, htop, hpass⟩ := seq_ok.1 hrest
  obtain ⟨rfl, outer, hframes⟩ := top_ok htop
  cases hkind : f.kind with
  | ifThen condition =>
    rw [hkind] at hpass
    obtain rfl := modifyTop_at hframes hpass
    exact (resultLast_moves hlast).trans (Move.pass hframes hkind).moves
  | function | block | loop | ifElse =>
    rw [hkind] at hpass
    cases hpass

/-! ## Branches -/

/-- A frame that is found at a depth bears the label at that depth. -/
theorem frameAt_ok {depth : Nat} {f : Frame} (h : frameAt depth b = .ok (f, b')) :
    b' = b ∧ b.labelAt? depth = some f.label := by
  cases hf : b.frames[depth]? with
  | none =>
    rw [frameAt, bind_run (a := b) rfl] at h
    simp only [hf] at h
    cases h
  | some g =>
    rw [frameAt_run hf] at h
    cases h
    exact ⟨rfl, by rw [labelAt?, hf]; rfl⟩

/-- To mark one label is to mark a list of one. -/
theorem markUsed_ok {depth : Nat} (h : markUsed depth b = .ok ((), b')) : b' = b.mark [depth] :=
  modify_ok h

/-- The labels of a branch table are those of the frames it names, which are marked. -/
theorem targetLabels_ok {depths : List Nat} {labels : List Label}
    (h : targetLabels depths b = .ok (labels, b')) :
    b' = b.mark depths ∧ labels.map some = depths.map b.labelAt? := by
  induction depths generalizing b labels with
  | nil =>
    obtain ⟨rfl, rfl⟩ := pure_ok h
    exact ⟨rfl, rfl⟩
  | cons depth rest ih =>
    obtain ⟨f, c, hf, hmark⟩ := seq_ok.1 h
    obtain ⟨rfl, hlabel⟩ := frameAt_ok hf
    obtain ⟨_, c₁, hmarked, hrest⟩ := seq_ok.1 hmark
    obtain rfl := markUsed_ok hmarked
    obtain ⟨labels', c₂, hlabels, hpure⟩ := seq_ok.1 hrest
    obtain ⟨rfl, rfl⟩ := pure_ok hpure
    obtain ⟨rfl, hnames⟩ := ih hlabels
    exact ⟨mark_mark [depth] rest c, by simp [hlabel, hnames]⟩

end

end Builder

end WasmLift
