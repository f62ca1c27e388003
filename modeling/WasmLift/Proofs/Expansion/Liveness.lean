import WasmLift.Proofs.Expansion.Steps

/-!
# Operators that are reached

Which operators of a body are live can be told from the operators alone. A scan keeps the open
constructs (`Scan`): after a jump the rest of the innermost one is dead, and what follows a finished
construct is dead if neither its end is reached nor a live branch leads there (`Level.endsDead`). A
reconstruction translates the live operators and no others (`Builder.translated_eq_live`). If the
operator that closes the function is the last one (`Operator.closesLast`), all others are rebuilt
before the body is finished (`Builder.rebuildAll_closesLast`).
-/

namespace WasmLift

/-! ## Scanning operators -/

/-- What an open construct is. In the second arm of an `if` it is known whether the first is dead at
its end. -/
inductive Construct where
  | function
  | block
  | loop
  | ifThen
  | ifElse (thenDead : Bool)
deriving DecidableEq, Repr

/-- The construct is the function itself. -/
def Construct.isFunction : Construct → Bool
  | .function => true
  | _ => false

/-- An open construct. -/
structure Level where
  construct : Construct
  /-- The rest of the construct is never reached. -/
  dead : Bool := false
  /-- Some live branch names the construct. -/
  targeted : Bool := false
deriving DecidableEq, Repr

namespace Level

/-- What comes after the finished construct is never reached. -/
def endsDead (l : Level) : Bool :=
  match l.construct with
  | .function | .ifThen => false
  | .block => l.dead && !l.targeted
  | .loop => l.dead
  | .ifElse thenDead => thenDead && l.dead && !l.targeted

/-- A branch names the construct. A branch to the function itself is a return. -/
def target (l : Level) : Level :=
  { l with targeted := l.targeted || !l.construct.isFunction }

end Level

/-- The state of a scan: the open constructs, innermost first, and how many constructs are open in
code that is skipped. -/
structure Scan where
  levels : List Level
  skipped : Nat
deriving DecidableEq, Repr

namespace Scan

/-- The start of a body. -/
def start : Scan :=
  ⟨[⟨.function, false, false⟩], 0⟩

/-- The rest of the innermost construct is never reached. -/
def isDead (s : Scan) : Bool :=
  match s.levels with
  | [] => false
  | l :: _ => l.dead

/-- Branches name the constructs at the given depths. -/
def target (s : Scan) (depths : List Nat) : Scan :=
  { s with levels := depths.foldl (fun levels depth => levels.modify depth Level.target) s.levels }

/-- Control leaves the innermost construct. -/
def halt (s : Scan) : Scan :=
  { s with levels := s.levels.modifyHead ({ · with dead := true }) }

/-- A construct begins. -/
def enter (s : Scan) (construct : Construct) : Scan :=
  { s with levels := ⟨construct, false, false⟩ :: s.levels }

/-- The second arm of an `if` begins. -/
def switchArm (s : Scan) : Scan :=
  { s with
    levels := s.levels.modifyHead fun l => { l with construct := .ifElse l.dead, dead := false } }

/-- The innermost construct ends. -/
def leave (s : Scan) : Scan :=
  match s.levels with
  | l :: m :: outer => { s with levels := { m with dead := m.dead || l.endsDead } :: outer }
  | _ => { s with levels := [] }

/-- A live operator. -/
def follow (s : Scan) : Operator → Scan
  | .block _ => s.enter .block
  | .loop _ => s.enter .loop
  | .ifThen _ => s.enter .ifThen
  | .elseArm => s.switchArm
  | .finish => s.leave
  | .br depth => (s.target [depth]).halt
  | .brIf depth => s.target [depth]
  | .brTable depths fallback => (s.target (depths ++ [fallback])).halt
  | .ret | .unreachable => s.halt
  | _ => s

/-- An operator in dead code. -/
def skip (s : Scan) : Operator → Scan
  | .block _ | .loop _ | .ifThen _ => { s with skipped := s.skipped + 1 }
  | .elseArm => if s.skipped = 0 then s.switchArm else s
  | .finish => if s.skipped = 0 then s.leave else { s with skipped := s.skipped - 1 }
  | _ => s

/-- A plain operator in dead code leaves the scan as it is. -/
theorem skip_plain {op : Operator} (hop : op.isPlain = true) (s : Scan) : s.skip op = s := by
  cases op with
  | block | loop | ifThen | elseArm | finish => cases hop
  | _ => rfl

/-- One operator. -/
def step (s : Scan) (op : Operator) : Scan :=
  if s.isDead then s.skip op else s.follow op

/-- The operators that are reached, up to the end of the function. -/
def live (s : Scan) : List Operator → List Operator
  | [] => []
  | op :: rest =>
    if s.levels.isEmpty then []
    else if s.isDead then (s.step op).live rest
    else op :: (s.step op).live rest

end Scan

/-- The operators of a body that are reached. -/
def Operator.live (ops : List Operator) : List Operator :=
  Scan.start.live ops

/-- Where `depth` constructs are open in the function, the operator that closes the function is the
last one. -/
def Operator.closesLast (depth : Nat) : List Operator → Bool
  | [] => false
  | .block _ :: rest | .loop _ :: rest | .ifThen _ :: rest => closesLast (depth + 1) rest
  | .finish :: rest => if depth = 0 then rest.isEmpty else closesLast (depth - 1) rest
  | _ :: rest => closesLast depth rest

/-- A plain operator does not count for which one closes the function. -/
theorem Operator.closesLast_plain {depth : Nat} {op : Operator} {rest : List Operator}
    (hop : op.isPlain = true) : closesLast depth (op :: rest) = closesLast depth rest := by
  cases op with
  | block | loop | ifThen | elseArm | finish => cases hop
  | _ => rfl

/-! ## Scans and reconstructions -/

/-- What a frame was opened for, without its nodes. -/
def FrameKind.construct : FrameKind → Construct
  | .function => .function
  | .block => .block
  | .loop => .loop
  | .ifThen _ => .ifThen
  | .ifElse _ _ thenDead => .ifElse thenDead

namespace Frame

/-- A frame as a scan sees it. -/
def level (f : Frame) : Level :=
  ⟨f.kind.construct, f.unreachable, f.labelUsed && !f.kind.construct.isFunction⟩

/-- What follows a frame is dead just if what follows its construct is. -/
theorem level_endsDead (f : Frame) : f.level.endsDead = f.endsDead := by
  unfold level Level.endsDead endsDead
  cases f.kind <;> simp [FrameKind.construct, Construct.isFunction]

/-- A frame whose label is used is a construct that a branch leads to. -/
theorem level_used (f : Frame) : { f with labelUsed := true }.level = f.level.target := by
  cases hused : f.labelUsed <;> simp [level, Level.target, hused]

end Frame

namespace Builder

/-- A reconstruction as a scan sees it. -/
def scan (b : Builder) : Scan :=
  ⟨b.frames.map Frame.level, b.deadConstructs⟩

section
variable {b b' c : Builder} {scope : Scope} {op : Operator}

/-- The scan of a builder is dead just if the builder is. -/
theorem scan_isDead (b : Builder) : b.scan.isDead = b.isDead := by
  unfold Scan.isDead scan isDead
  cases b.frames <;> rfl

/-- Marking labels is noting in the scan where branches lead. -/
theorem scan_mark (depths : List Nat) (b : Builder) :
    (b.mark depths).scan = b.scan.target depths := by
  have hmodify : ∀ (frames : List Frame) (depth : Nat),
      (frames.modify depth ({ · with labelUsed := true })).map Frame.level =
        (frames.map Frame.level).modify depth Level.target := by
    intro frames depth
    refine List.ext_getElem? fun i => ?_
    simp only [List.getElem?_map, List.getElem?_modify]
    split <;> cases frames[i]? <;> simp [Frame.level_used]
  have hlevels : ∀ frames : List Frame, (Frame.marked depths frames).map Frame.level =
      depths.foldl (fun levels depth => levels.modify depth Level.target)
        (frames.map Frame.level) := by
    induction depths with
    | nil => exact fun _ => rfl
    | cons depth rest ih =>
      intro frames
      rw [Frame.marked, List.foldl_cons, ← Frame.marked, ih, hmodify]
      rfl
  exact congrArg (Scan.mk · b.deadConstructs) (hlevels b.frames)

/-- The scan is the same after operands are taken. -/
theorem Takes.scan {vs : List Expr} (h : Takes b vs c) : c.scan = b.scan := by
  have hdead : c.deadConstructs = b.deadConstructs := by
    induction h with
    | none => rfl
    | more _ last ih =>
      obtain ⟨f, outer, later, value, earlier, -, -, htaken⟩ := takeValue_ok last
      unfold taken at htaken
      split at htaken <;> (cases htaken; exact ih)
  rw [Builder.scan, Builder.scan, hdead, h.map_frames fun _ _ => rfl]

/-- The scan halts just where a terminator is pushed. -/
theorem push_scan {e : Expr} (h : push e b = .ok ((), b')) :
    b'.scan = if e.isTerminator then b.scan.halt else b.scan := by
  obtain ⟨f, outer, hframes, rfl⟩ := modifyTop_ok h
  cases e.isTerminator <;> simp [scan, Scan.halt, hframes, Frame.level]

/-- What is taken as a value is one. -/
theorem takeValue_isValue {consumer : String} {v : Expr} (h : takeValue consumer b = .ok (v, c)) :
    v.isValue = true := by
  obtain ⟨f, outer, later, value, earlier, -, hsplit, htaken⟩ := takeValue_ok h
  have hvalue := isValue_of_splitValue hsplit
  unfold taken at htaken
  split at htaken <;> (cases htaken; exact hvalue)

/-- The scan is the same after the result is put last. -/
theorem resultLast_scan (h : resultLast b = .ok ((), c)) : c.scan = b.scan := by
  obtain ⟨f, outer, -, ⟨-, rfl⟩ | ⟨-, v, c₁, hv, hpush⟩⟩ := resultLast_cases h
  · rfl
  · rw [push_scan hpush, isTerminator_of_isValue (takeValue_isValue hv)]
    exact (takeValue_takes hv).scan

/-- The scan turns to the other arm where the builder does. -/
theorem beginElse_scan (h : beginElse b = .ok ((), b')) : b'.scan = b.scan.switchArm := by
  obtain ⟨c, f, outer, condition, hlast, hframes, hkind, rfl⟩ := beginElse_cases h
  rw [← resultLast_scan hlast]
  simp [scan, Scan.switchArm, hframes, Frame.level, hkind, FrameKind.construct,
    Construct.isFunction]

/-- The scan leaves a construct where the builder closes its frame. -/
theorem close_scan (h : close b = .ok ((), b')) (hb : Founded b) : b'.scan = b.scan.leave := by
  obtain ⟨c, f, outer, hlast, hframes, hfold⟩ := close_cases h
  rw [← resultLast_scan hlast]
  obtain ⟨hkind, rfl⟩ | ⟨-, g, rest, rfl, rfl⟩ := hfold
  · have hc : Founded c := (resultLast_moves hlast).keep Move.founded hb
    obtain rfl := hc.outer_eq_nil hframes hkind
    simp [scan, Scan.leave, hframes]
  · simp only [scan, Scan.leave, hframes, List.map_cons, f.level_endsDead]
    rfl

/-- A branch to the function itself is a return, and leads nowhere in it. -/
theorem scan_target_outermost {depth : Nat} (hb : Founded b) (hbody : b.body = none)
    (hdepth : b.frames.length = depth + 1) : b.scan.target [depth] = b.scan := by
  have hlast : b.frames[depth]?.map Frame.kind = some .function := by
    have hkind := hb.unfinished hbody
    rwa [List.getLast?_eq_getElem?, List.length_map, hdepth, List.getElem?_map] at hkind
  obtain ⟨f, hf, hkind⟩ := Option.map_eq_some_iff.1 hlast
  have hlevels :
      (b.frames.map Frame.level).modify depth Level.target = b.frames.map Frame.level := by
    refine List.ext_getElem? fun i => ?_
    rw [List.getElem?_modify]
    split
    next hi =>
      simp [← hi, hf, Level.target, Frame.level, hkind, FrameKind.construct, Construct.isFunction]
    next => cases (b.frames.map Frame.level)[i]? <;> rfl
  exact congrArg (Scan.mk · b.deadConstructs) hlevels

/-- An operator that is written as an expression leaves the scan as it is. -/
theorem follow_of_writes {e : Expr} (h : op.Writes scope e) (s : Scan) :
    s.follow op = s ∧ e.isTerminator = false := by
  cases h <;> exact ⟨rfl, rfl⟩

/-- A live operator does to a reconstruction what it does to a scan. -/
theorem Translates.scan (h : Translates scope b op b') (hb : Founded b)
    (hbody : b.body = none ∨ op.isPlain = false) : b'.scan = b.scan.follow op := by
  cases h with
  | nop => rfl
  | write writes _ takes pushed =>
    obtain ⟨hfollow, hend⟩ := follow_of_writes writes b.scan
    rw [push_scan pushed, hend, hfollow]
    exact takes.scan
  | jump jumps _ takes pushed =>
    rw [push_scan pushed, scan_mark, takes.scan]
    cases jumps with
    | leave depth value outermost =>
      rw [Scan.follow, scan_target_outermost hb (hbody.resolve_right (by rintro ⟨⟩)) outermost]
      rfl
    | _ => rfl
  | leaveIf outermost takes pushed =>
    rw [push_scan pushed, Scan.follow,
      scan_target_outermost hb (hbody.resolve_right (by rintro ⟨⟩)) outermost]
    exact takes.scan
  | block | loop => rfl
  | ifThen takes =>
    rw [Scan.follow, ← takes.scan]
    rfl
  | elseArm passed => exact beginElse_scan passed
  | finish closed => exact close_scan closed hb

/-- A dead operator does to a reconstruction what it does to a scan. -/
theorem PassesOver.scan (h : PassesOver b op b') (hb : Founded b) : b'.scan = b.scan.skip op := by
  cases h with
  | block | loop | ifThen => rfl
  | elseInside inside | finishInside inside => exact (if_neg inside).symm
  | elseArm closes passed =>
    rw [beginElse_scan passed]
    exact (if_pos closes).symm
  | finish closes closed =>
    rw [close_scan closed hb]
    exact (if_pos closes).symm
  | plain hplain => exact (Scan.skip_plain hplain _).symm

/-- Every operator does to a reconstruction what it does to a scan. -/
theorem rebuild_scan (h : rebuild scope op b = .ok ((), b')) (hb : Founded b)
    (hbody : b.body = none) : b'.scan = b.scan.step op := by
  rw [Scan.step, scan_isDead]
  cases hdead : b.isDead with
  | false =>
    rw [rebuild_live hdead] at h
    exact (rebuildLive_translates h).scan hb (.inl hbody)
  | true => exact (rebuildDead_passesOver hdead h).scan hb

/-! ## The end of the body -/

/-- Pushing an expression does not finish the body. -/
theorem push_body {e : Expr} (h : push e b = .ok ((), b')) : b'.body = b.body := by
  obtain ⟨f, outer, -, rfl⟩ := modifyTop_ok h
  rfl

/-- Putting the result last does not finish the body. -/
theorem resultLast_body (h : resultLast b = .ok ((), c)) : c.body = b.body := by
  obtain ⟨f, outer, -, ⟨-, rfl⟩ | ⟨-, v, c₁, hv, hpush⟩⟩ := resultLast_cases h
  · rfl
  · exact (push_body hpush).trans (takeValue_body hv)

/-- When the body is finished, no construct is open any more. -/
theorem Rebuilds.body (h : Rebuilds op b b') (hb : Founded b) :
    b'.body = b.body ∨ b'.frames = [] := by
  cases h with
  | skip => exact .inl rfl
  | emit _ takes pushed => exact .inl ((push_body pushed).trans takes.body)
  | leaveIf _ takes pushed => exact .inl ((push_body pushed).trans takes.body)
  | enter => exact .inl rfl
  | enterIf _ takes => exact .inl takes.body
  | pass passed =>
    obtain ⟨c, f, outer, condition, hlast, -, -, rfl⟩ := beginElse_cases passed
    have hsame := resultLast_body hlast
    exact .inl hsame
  | leave closed =>
    obtain ⟨c, f, outer, hlast, hframes, ⟨hkind, rfl⟩ | ⟨-, g, rest, -, rfl⟩⟩ := close_cases closed
    · have hc : Founded c := (resultLast_moves hlast).keep Move.founded hb
      exact .inr (hc.outer_eq_nil hframes hkind)
    · have hsame := resultLast_body hlast
      exact .inl hsame

/-- Nothing is translated once the body is finished. -/
theorem translated_finished {ops : List Operator} (hbody : b.body.isSome) :
    translated scope ops b = [] := by
  induction ops generalizing b with
  | nil => rfl
  | cons op rest ih =>
    rw [translated]
    cases hop : rebuild scope op b with
    | error cause => rfl
    | ok result =>
      obtain ⟨⟨⟩, c⟩ := result
      obtain ⟨es, hmoves, -⟩ := rebuild_moves hop
      simpa [hbody] using ih (hmoves.keep Move.body_isSome hbody)

/-- A reconstruction translates the operators that are reached. -/
theorem translated_eq_live {ops : List Operator} (h : rebuildAll scope ops b = .ok ((), b'))
    (hb : Founded b) (hbody : b.body = none) : translated scope ops b = b.scan.live ops := by
  induction ops generalizing b with
  | nil => rfl
  | cons op rest ih =>
    obtain ⟨_, c, hop, hrest⟩ := seq_ok.1 h
    have hlevels : b.scan.levels.isEmpty = false := by
      have hlast := hb.unfinished hbody
      cases hframes : b.frames with
      | nil =>
        rw [hframes] at hlast
        cases hlast
      | cons f outer => simp [scan, hframes]
    have hc : translated scope rest c = (b.scan.step op).live rest := by
      obtain ⟨es, hmoves, -⟩ := rebuild_moves hop
      rw [← rebuild_scan hop hb hbody]
      cases hfinished : c.body with
      | none => exact ih hrest (hmoves.keep Move.founded hb) hfinished
      | some e =>
        have hnil : c.frames = [] := by
          rcases (rebuild_cases hop).body hb with hsame | hnil
          · rw [hfinished, hbody] at hsame
            cases hsame
          · exact hnil
        rw [translated_finished (by simp [hfinished])]
        cases rest <;> simp [Scan.live, scan, hnil]
    rw [translated, hop, Scan.live, hlevels, scan_isDead]
    simp [hbody, hc]

end

end Builder

/-! ## Open constructs -/

namespace Scan

/-- How many constructs are open. -/
def height (s : Scan) : Nat :=
  s.levels.length + s.skipped

/-- Some construct is open, and code is skipped only where the innermost one is dead. -/
structure Sound (s : Scan) : Prop where
  opened : s.levels ≠ []
  skips : s.skipped ≠ 0 → s.isDead = true

section
variable {s t : Scan} {op : Operator}

/-- Noting where branches lead opens and closes no construct. -/
theorem length_target (s : Scan) (depths : List Nat) :
    (s.target depths).levels.length = s.levels.length := by
  induction depths generalizing s with
  | nil => rfl
  | cons depth rest ih =>
    exact (ih ⟨s.levels.modify depth Level.target, s.skipped⟩).trans (List.length_modify ..)

/-- No construct is skipped in code that can be reached. -/
theorem Sound.skipped_eq_zero (hs : s.Sound) (hlive : s.isDead = false) : s.skipped = 0 := by
  by_contra hne
  have hdead := hs.skips hne
  rw [hlive] at hdead
  cases hdead

/-- Where nothing is skipped, only the number of open constructs matters. -/
theorem sound_of_length (hskipped : t.skipped = 0) (hlevels : 0 < t.levels.length) : t.Sound :=
  ⟨List.length_pos_iff.1 hlevels, fun hne => (hne hskipped).elim⟩

/-- An operator that neither opens nor closes a construct. -/
theorem Sound.follow_plain (hs : s.Sound) (hlive : s.isDead = false) (hop : op.isPlain = true) :
    (s.follow op).Sound ∧ (s.follow op).height = s.height := by
  have hzero := hs.skipped_eq_zero hlive
  have hpos := List.length_pos_iff.2 hs.opened
  have same (hlevels : (s.follow op).levels.length = s.levels.length)
      (hskipped : (s.follow op).skipped = s.skipped) :
      (s.follow op).Sound ∧ (s.follow op).height = s.height :=
    ⟨sound_of_length (hskipped.trans hzero) (by omega), by rw [height, height, hlevels, hskipped]⟩
  cases op with
  | block | loop | ifThen | elseArm | finish => cases hop
  | br depth => exact same (by simp [follow, halt, length_target]) rfl
  | brIf depth => exact same (length_target s [depth]) rfl
  | brTable depths fallback => exact same (by simp [follow, halt, length_target]) rfl
  | ret | unreachable => exact same (by simp [follow, halt]) rfl
  | _ => exact ⟨hs, rfl⟩

/-- Turning to the other arm leaves the scan sound and as deep as it was. -/
theorem Sound.switchArm (hs : s.Sound) (hzero : s.skipped = 0) :
    s.switchArm.Sound ∧ s.switchArm.height = s.height := by
  have hlevels : s.switchArm.levels.length = s.levels.length := by simp [Scan.switchArm]
  refine ⟨sound_of_length hzero ?_, by rw [height, hlevels]; rfl⟩
  rw [hlevels]
  exact List.length_pos_iff.2 hs.opened

/-- Leaving an inner construct leaves the scan sound and one construct less deep. -/
theorem leave_sound (hzero : s.skipped = 0) (hheight : 1 < s.height) :
    s.leave.Sound ∧ s.leave.height + 1 = s.height := by
  obtain ⟨levels, skipped⟩ := s
  obtain rfl : skipped = 0 := hzero
  cases levels with
  | nil => simp [height] at hheight
  | cons l rest =>
    cases rest with
    | nil => simp [height] at hheight
    | cons m outer => exact ⟨sound_of_length rfl (Nat.succ_pos _), rfl⟩

/-- The operators that end an arm or a construct do so in any case, unless they belong to a
construct that is skipped. -/
theorem step_elseArm (hzero : s.skipped = 0) : s.step .elseArm = s.switchArm := by
  rw [Scan.step, skip, if_pos hzero, follow, ite_self]

/-- An end that closes no skipped construct leaves the innermost one. -/
theorem step_finish (hzero : s.skipped = 0) : s.step .finish = s.leave := by
  rw [Scan.step, skip, if_pos hzero, follow, ite_self]

/-- One operator: it closes the function, or leaves some construct open, as many as are counted for
the rest of the body. -/
theorem Sound.step_cases {depth : Nat} (hs : s.Sound) (hheight : s.height = depth + 1)
    (op : Operator) :
    (op = .finish ∧ depth = 0 ∧ s.skipped = 0 ∧ s.step op = ⟨[], 0⟩) ∨
      ∃ depth', (s.step op).Sound ∧ (s.step op).height = depth' + 1 ∧
        ∀ rest, Operator.closesLast depth (op :: rest) = Operator.closesLast depth' rest := by
  cases hplain : op.isPlain with
  | true =>
    refine .inr ⟨depth, ?_⟩
    rw [Scan.step]
    cases hdead : s.isDead with
    | true =>
      rw [if_pos rfl, skip_plain hplain s]
      exact ⟨hs, hheight, fun _ => Operator.closesLast_plain hplain⟩
    | false =>
      obtain ⟨hsound, hsame⟩ := hs.follow_plain hdead hplain
      exact ⟨hsound, hsame.trans hheight, fun _ => Operator.closesLast_plain hplain⟩
  | false =>
    cases op with
    | block | loop | ifThen =>
      refine .inr ⟨depth + 1, ?_⟩
      rw [Scan.step]
      cases hdead : s.isDead with
      | true =>
        refine ⟨⟨hs.opened, fun _ => hdead⟩, ?_, fun _ => rfl⟩
        rw [← hheight]
        rfl
      | false =>
        refine ⟨sound_of_length (hs.skipped_eq_zero hdead) (Nat.succ_pos _), ?_, fun _ => rfl⟩
        rw [← hheight]
        exact Nat.succ_add ..
    | elseArm =>
      refine .inr ⟨depth, ?_⟩
      by_cases hzero : s.skipped = 0
      · rw [step_elseArm hzero]
        obtain ⟨hsound, hsame⟩ := hs.switchArm hzero
        exact ⟨hsound, hsame.trans hheight, fun _ => rfl⟩
      · rw [Scan.step, if_pos (hs.skips hzero), skip, if_neg hzero]
        exact ⟨hs, hheight, fun _ => rfl⟩
    | finish =>
      have hopen := List.length_pos_iff.2 hs.opened
      have hcount : s.levels.length + s.skipped = depth + 1 := hheight
      cases depth with
      | zero =>
        obtain ⟨l, hl⟩ := List.length_eq_one_iff.1 (show s.levels.length = 1 by omega)
        have hzero : s.skipped = 0 := by omega
        refine .inl ⟨rfl, rfl, hzero, ?_⟩
        rw [step_finish hzero, leave, hl, hzero]
      | succ depth =>
        refine .inr ⟨depth, ?_⟩
        by_cases hzero : s.skipped = 0
        · rw [step_finish hzero]
          obtain ⟨hsound, hless⟩ := leave_sound hzero (by omega)
          exact ⟨hsound, by omega, fun _ => rfl⟩
        · have hdead := hs.skips hzero
          rw [Scan.step, if_pos hdead, skip, if_neg hzero]
          refine ⟨⟨hs.opened, fun _ => hdead⟩, ?_, fun _ => rfl⟩
          show s.levels.length + (s.skipped - 1) = depth + 1
          omega
    | _ => cases hplain

end

end Scan

/-- If the operator that closes the function is the last one, all others are rebuilt before the body
is finished. -/
theorem Builder.rebuildAll_closesLast {scope : Scope} {b b' : Builder} {depth : Nat}
    {ops : List Operator} (h : rebuildAll scope ops b = .ok ((), b')) (hb : Founded b)
    (hbody : b.body = none) (hs : b.scan.Sound) (hheight : b.scan.height = depth + 1)
    (hlast : Operator.closesLast depth ops = true) :
    ∃ before c, ops = before ++ [Operator.finish] ∧ rebuildAll scope before b = .ok ((), c) ∧
      c.body = none ∧ close c = .ok ((), b') := by
  induction ops generalizing b depth with
  | nil => cases hlast
  | cons op rest ih =>
    obtain ⟨_, c, hop, hrest⟩ := seq_ok.1 h
    have hscan := rebuild_scan hop hb hbody
    rcases hs.step_cases hheight op with ⟨rfl, rfl, hzero, -⟩ | ⟨depth', hsound, hheight', hlast'⟩
    · obtain rfl : rest = [] := List.isEmpty_iff.1 hlast
      obtain ⟨-, rfl⟩ := pure_ok hrest
      exact ⟨[], b, rfl, rfl, hbody, by rwa [rebuild_finish hzero] at hop⟩
    · rw [← hscan] at hsound hheight'
      have hnone : c.body = none := by
        rcases (rebuild_cases hop).body hb with hsame | hnil
        · exact hsame.trans hbody
        · exact (hsound.opened (by simp [scan, hnil])).elim
      obtain ⟨es, hmoves, -⟩ := rebuild_moves hop
      obtain ⟨before, d, rfl, hbefore, hd, hclose⟩ :=
        ih hrest (hmoves.keep Move.founded hb) hnone hsound hheight'
          ((hlast' rest).symm.trans hlast)
      exact ⟨op :: before, d, rfl, seq_ok.2 ⟨(), c, hop, hbefore⟩, hd, hclose⟩

end WasmLift
