import WasmLift.Proofs.Expansion.Liveness

/-!
# Nesting of constructs

An accepted body is well nested: up to the operator that closes the function, every construct that
is opened is closed, and an `else` belongs to one `if` (`Operator.nests`). Dead code is counted only
as far as its constructs go: an `else` inside a construct that is opened there is not looked at. So
the condition on `else` is one on the operators that are not passed over (`Operator.heeded`). A live
operator names a parameter or a declared local, or a scratch local that is known where it stands.
Both together are `Expr.ofOperators_nested`. After the operator that closes the function there is
nothing but `nop` and a construct that is never closed (`Expr.ofOperators_trailing`).
-/

namespace WasmLift

/-- Where the given constructs are open, innermost first, every one is closed, every `else` belongs
to one `if`, and nothing comes after the operator that closes the last. A construct is marked if it
is an `if` that may still have an `else`. -/
def Operator.nests : (marks : List Bool) → List Operator → Bool
  | [], ops => ops.isEmpty
  | _ :: _, [] => false
  | mark :: outer, op :: rest =>
    match op with
    | .block _ | .loop _ => nests (false :: mark :: outer) rest
    | .ifThen _ => nests (true :: mark :: outer) rest
    | .elseArm => mark && nests (false :: outer) rest
    | .finish => nests outer rest
    | _ => nests (mark :: outer) rest

/-- What is accepted after the operator that closes the function: `nop`, and a block or a loop that
is never closed, with all that stands in it. -/
inductive Operator.Trailing : List Operator → Prop where
  | nil : Trailing []
  | nop {rest : List Operator} (hrest : Trailing rest) : Trailing (.nop :: rest)
  | opens {op : Operator} {type : BlockType} {inner : List Operator}
      (hop : op = .block type ∨ op = .loop type)
      (hopen : ∀ inside, inside <+: inner → closesLast 0 inside = false) : Trailing (op :: inner)

theorem Operator.nests_plain {mark : Bool} {outer : List Bool} {op : Operator}
    {rest : List Operator} (hop : op.isPlain = true) :
    nests (mark :: outer) (op :: rest) = nests (mark :: outer) rest := by
  cases op with
  | block | loop | ifThen | elseArm | finish => cases hop
  | _ => rfl

namespace Scan

/-- The operator is in dead code, and does not end the dead stretch. -/
def passesOver (s : Scan) (op : Operator) : Bool :=
  s.isDead && (s.skipped != 0 || (op != .finish && op != .elseArm))

/-- The operators that are not passed over, up to the end of the function. -/
def heeded (s : Scan) : List Operator → List Operator
  | [] => []
  | op :: rest =>
    if s.levels.isEmpty then []
    else if s.passesOver op then (s.step op).heeded rest
    else op :: (s.step op).heeded rest

/-- Which of the open constructs are an `if` in its first arm, innermost first. -/
def marks (s : Scan) : List Bool :=
  s.levels.map (·.construct = .ifThen)

end Scan

/-- The operators of a body that are not passed over. -/
def Operator.heeded (ops : List Operator) : List Operator :=
  Scan.start.heeded ops

namespace Scan

section
variable {s : Scan} {op : Operator}

theorem marks_target (s : Scan) (depths : List Nat) : (s.target depths).marks = s.marks := by
  have hlevels : ∀ levels : List Level,
      (depths.foldl (fun levels depth => levels.modify depth Level.target) levels).map
          (fun l => decide (l.construct = .ifThen)) =
        levels.map (fun l => decide (l.construct = .ifThen)) := by
    induction depths with
    | nil => exact fun _ => rfl
    | cons depth rest ih =>
      intro levels
      rw [List.foldl_cons, ih]
      refine List.ext_getElem? fun i => ?_
      simp only [List.getElem?_map, List.getElem?_modify]
      split <;> cases levels[i]? <;> rfl
  exact hlevels s.levels

theorem marks_halt (s : Scan) : s.halt.marks = s.marks := by
  obtain ⟨levels, skipped⟩ := s
  cases levels <;> rfl

theorem marks_enter (s : Scan) (construct : Construct) :
    (s.enter construct).marks = (construct = .ifThen : Bool) :: s.marks :=
  rfl

theorem marks_leave (s : Scan) : s.leave.marks = s.marks.tail := by
  obtain ⟨levels, skipped⟩ := s
  match levels with
  | [] | [_] | _ :: _ :: _ => rfl

theorem marks_switchArm (s : Scan) : s.switchArm.marks = s.marks.modifyHead fun _ => false := by
  obtain ⟨levels, skipped⟩ := s
  cases levels <;> rfl

theorem marks_follow_plain (hop : op.isPlain = true) (s : Scan) :
    (s.follow op).marks = s.marks := by
  cases op with
  | block | loop | ifThen | elseArm | finish => cases hop
  | br depth => exact (marks_halt _).trans (marks_target s [depth])
  | brIf depth => exact marks_target s [depth]
  | brTable depths fallback => exact (marks_halt _).trans (marks_target s (depths ++ [fallback]))
  | ret | unreachable => exact marks_halt s
  | _ => rfl

/-- An operator that is passed over leaves the open constructs as they are. -/
theorem marks_passesOver (h : s.passesOver op = true) : (s.step op).marks = s.marks := by
  rw [passesOver, Bool.and_eq_true] at h
  obtain ⟨hdead, hskips⟩ := h
  rw [step, if_pos hdead]
  cases op with
  | block | loop | ifThen => rfl
  | elseArm | finish =>
    have hne : s.skipped ≠ 0 := by simpa using hskips
    rw [marks, skip, if_neg hne, marks]
  | _ => rfl

/-- What an operator that is not passed over does to the open constructs, if an `else` stands in an
`if`. -/
theorem nests_cons (hs : s.Sound) (h : s.passesOver op = false)
    (helse : op = .elseArm → s.marks.head? = some true) (rest : List Operator) :
    Operator.nests s.marks (op :: rest) = Operator.nests (s.step op).marks rest := by
  obtain ⟨mark, outer, hmarks⟩ : ∃ mark outer, s.marks = mark :: outer :=
    List.exists_cons_of_ne_nil fun hnil => hs.opened (List.map_eq_nil_iff.1 hnil)
  have hzero : s.skipped = 0 := by
    cases hdead : s.isDead with
    | false => exact hs.skipped_eq_zero hdead
    | true =>
      rw [passesOver, hdead, Bool.true_and, Bool.or_eq_false_iff] at h
      exact bne_eq_false_iff_eq.1 h.1
  cases hplain : op.isPlain with
  | true =>
    have hdead : s.isDead = false := by
      cases op with
      | block | loop | ifThen | elseArm | finish => cases hplain
      | _ => simpa [passesOver] using h
    rw [step, hdead, if_neg Bool.false_ne_true, marks_follow_plain hplain, hmarks]
    exact Operator.nests_plain hplain
  | false =>
    cases op with
    | block | loop | ifThen =>
      have hdead : s.isDead = false := by simpa [passesOver] using h
      rw [step, hdead, if_neg Bool.false_ne_true, follow, marks_enter, hmarks]
      rfl
    | elseArm =>
      rw [hmarks] at helse
      rw [step_elseArm hzero, marks_switchArm, hmarks, Option.some_inj.1 (helse rfl)]
      exact Bool.true_and _
    | finish =>
      rw [step_finish hzero, marks_leave, hmarks]
      rfl
    | _ => cases hplain

/-- One operator, whether it is passed over or not. -/
theorem nests_heeded (hs : s.Sound)
    (helse : s.passesOver op = false → op = .elseArm → s.marks.head? = some true)
    (rest : List Operator) :
    Operator.nests s.marks (s.heeded (op :: rest)) =
      Operator.nests (s.step op).marks ((s.step op).heeded rest) := by
  have hopened : s.levels.isEmpty = false := by
    rw [List.isEmpty_eq_false_iff]
    exact hs.opened
  rw [heeded, hopened, if_neg Bool.false_ne_true]
  cases hpass : s.passesOver op with
  | true => rw [if_pos rfl, marks_passesOver hpass]
  | false => exact nests_cons hs hpass (helse hpass) _

end

end Scan

namespace Builder

section
variable {scope : Scope} {b b' c : Builder} {op : Operator}

/-- An `else` that is not passed over is accepted in the first arm of an `if`. -/
theorem head_marks_of_else (h : rebuild scope .elseArm b = .ok ((), b'))
    (hpass : b.scan.passesOver .elseArm = false) : b.scan.marks.head? = some true := by
  have helse : beginElse b = .ok ((), b') := by
    cases hdead : b.isDead with
    | false =>
      rw [rebuild_live hdead] at h
      exact h
    | true =>
      have hzero : b.deadConstructs = 0 := by
        rw [Scan.passesOver, scan_isDead, hdead] at hpass
        simpa [scan] using hpass
      rwa [rebuild_else hzero] at h
  obtain ⟨c, f, outer, condition, hlast, hframes, hkind, -⟩ := beginElse_cases helse
  rw [← resultLast_scan hlast]
  simp [scan, Scan.marks, hframes, Frame.level, hkind, FrameKind.construct]

/-- Once the body is finished, it stays as it is. -/
theorem Move.finished {es : List Expr} {body : Expr} (h : Move b es c)
    (hb : Founded b ∧ b.body = some body) : Founded c ∧ c.body = some body := by
  obtain ⟨hfounded, hbody⟩ := hb
  refine ⟨h.founded hfounded, ?_⟩
  rcases h.change with ⟨-, hsame⟩ | ⟨f, outer, hframes, hkind, -, -⟩
  · exact hsame.trans hbody
  · exact (hfounded.finished (by simp [hbody]) f.kind (by simp [hframes]) hkind).elim

/-- A reconstruction that finishes the body is well nested up to where it does. -/
theorem rebuildAll_nested {ops : List Operator} {depth : Nat} {body : Expr}
    (h : rebuildAll scope ops b = .ok ((), b')) (hb : Founded b) (hbody : b.body = none)
    (hs : b.scan.Sound) (hheight : b.scan.height = depth + 1) (hdone : b'.body = some body) :
    ∃ inside rest c, ops = inside ++ rest ∧ rebuildAll scope inside b = .ok ((), c) ∧
      rebuildAll scope rest c = .ok ((), b') ∧ c.body = some body ∧ c.scan = ⟨[], 0⟩ ∧
      Operator.closesLast depth inside = true ∧
      Operator.nests b.scan.marks (b.scan.heeded inside) = true := by
  induction ops generalizing b depth with
  | nil =>
    obtain ⟨-, rfl⟩ := pure_ok h
    rw [hbody] at hdone
    cases hdone
  | cons op rest ih =>
    obtain ⟨_, c, hop, hrest⟩ := seq_ok.1 h
    obtain ⟨es, hmoves, -⟩ := rebuild_moves hop
    have hc := hmoves.keep Move.founded hb
    have hscan := rebuild_scan hop hb hbody
    have hnests (inside : List Operator) :
        Operator.nests b.scan.marks (b.scan.heeded (op :: inside)) =
          Operator.nests c.scan.marks (c.scan.heeded inside) := by
      rw [hscan]
      refine Scan.nests_heeded hs (fun hpass helse => ?_) inside
      subst helse
      exact head_marks_of_else hop hpass
    rcases hs.step_cases hheight op with
      ⟨rfl, rfl, -, hclosed⟩ | ⟨depth', hsound, hheight', hlast⟩
    · rw [← hscan] at hclosed
      have hframes : c.frames = [] := List.map_eq_nil_iff.1 (congrArg Scan.levels hclosed)
      have hfinished : c.body = some body := by
        cases hsome : c.body with
        | none =>
          have hlast := hc.unfinished hsome
          rw [hframes] at hlast
          cases hlast
        | some e =>
          obtain ⟨es', hmoves', -⟩ := rebuildAll_moves hrest
          obtain ⟨-, hsame⟩ := hmoves'.keep Move.finished ⟨hc, hsome⟩
          rw [← hdone, hsame]
      refine ⟨[.finish], rest, c, rfl, seq_ok.2 ⟨(), c, hop, rfl⟩, hrest, hfinished, hclosed, rfl,
        ?_⟩
      rw [hnests, hclosed]
      rfl
    · rw [← hscan] at hsound hheight'
      have hnone : c.body = none := by
        rcases (rebuild_cases hop).body hb with hsame | hnil
        · exact hsame.trans hbody
        · exact (hsound.opened (by simp [scan, hnil])).elim
      obtain ⟨inside, after, d, rfl, hinside, hafter, hd, hend, hcloses, hnested⟩ :=
        ih hrest hc hnone hsound hheight'
      refine ⟨op :: inside, after, d, rfl, seq_ok.2 ⟨(), c, hop, hinside⟩, hafter, hd, hend, ?_, ?_⟩
      · rw [hlast, hcloses]
      · rw [hnests, hnested]

/-! ## After the end -/

/-- Where no construct is open any more, no operator is accepted but `nop` and one that opens a
block or a loop. -/
theorem Translates.afterEnd (h : Translates scope b op c) (hb : b.frames = []) :
    (op = .nop ∧ c = b) ∨
      ∃ type kind result, (op = .block type ∨ op = .loop type) ∧ c = b.opened kind result := by
  have hnone : b.frames.length = 0 := List.length_eq_zero_iff.2 hb
  -- Values are taken from the innermost construct, and nodes are put into it.
  have not_taken {vs : List Expr} {v : Expr} {d d' : Builder} {consumer : String}
      (htakes : Takes b vs d) (hlast : takeValue consumer d = .ok (v, d')) : False := by
    obtain ⟨f, outer, -, hframes, -⟩ := takeValue_frames hlast
    have hheight := htakes.height
    rw [hframes, hnone] at hheight
    cases hheight
  have not_pushed {vs : List Expr} {e : Expr} {d d' : Builder} (htakes : Takes b vs d)
      (depths : List Nat) (hpush : push e (d.mark depths) = .ok ((), d')) : False := by
    obtain ⟨f, outer, hframes, -⟩ := modifyTop_ok hpush
    have hmarked : (d.mark depths).scan.levels.length = d.scan.levels.length := by
      rw [scan_mark, Scan.length_target]
    simp only [Builder.scan, List.length_map, htakes.height, hnone, hframes] at hmarked
    cases hmarked
  have not_last {d : Builder} (hlast : resultLast b = .ok ((), d)) : False := by
    obtain ⟨f, outer, hframes, -⟩ := resultLast_cases hlast
    rw [hb] at hframes
    cases hframes
  cases h with
  | nop => exact .inl ⟨rfl, rfl⟩
  | write _ _ takes pushed => exact (not_pushed takes [] pushed).elim
  | jump _ _ takes pushed => exact (not_pushed takes _ pushed).elim
  | leaveIf _ takes pushed => exact (not_pushed takes [] pushed).elim
  | block => exact .inr ⟨_, _, _, .inl rfl, rfl⟩
  | loop => exact .inr ⟨_, _, _, .inr rfl, rfl⟩
  | ifThen takes =>
    cases takes with
    | more init last => exact (not_taken init last).elim
  | elseArm passed =>
    obtain ⟨d, f, outer, condition, hlast, -⟩ := beginElse_cases passed
    exact (not_last hlast).elim
  | finish closed =>
    obtain ⟨d, f, outer, hlast, -⟩ := close_cases closed
    exact (not_last hlast).elim

/-- A live operator that neither opens nor closes a construct leaves as many open. -/
theorem Translates.plain_height (h : Translates scope b op c) (hop : op.isPlain = true)
    (hzero : b.deadConstructs = 0) (hopened : b.scan.levels ≠ []) :
    c.scan.Sound ∧ c.scan.height = b.scan.height := by
  have same {s : Scan} (hc : c.scan = s) (hlevels : s.levels.length = b.scan.levels.length)
      (hskipped : s.skipped = b.scan.skipped) : c.scan.Sound ∧ c.scan.height = b.scan.height := by
    have hpos := List.length_pos_iff.2 hopened
    rw [hc]
    exact ⟨Scan.sound_of_length (hskipped.trans hzero) (by omega),
      by rw [Scan.height, Scan.height, hlevels, hskipped]⟩
  have halted (s : Scan) (e : Expr) :
      (if e.isTerminator then s.halt else s).levels.length = s.levels.length ∧
        (if e.isTerminator then s.halt else s).skipped = s.skipped := by
    cases e.isTerminator <;> simp [Scan.halt]
  cases h with
  | nop => exact same rfl rfl rfl
  | write _ _ takes pushed =>
    have hscan := push_scan pushed
    rw [takes.scan] at hscan
    exact same hscan (halted _ _).1 (halted _ _).2
  | @jump _ _ _ _ depths _ _ takes pushed =>
    have hscan := push_scan pushed
    rw [scan_mark, takes.scan] at hscan
    exact same hscan ((halted _ _).1.trans (Scan.length_target _ depths)) (halted _ _).2
  | leaveIf _ takes pushed =>
    have hscan := push_scan pushed
    rw [takes.scan] at hscan
    exact same hscan (halted _ _).1 (halted _ _).2
  | block | loop | ifThen | elseArm | finish => cases hop

/-- Once the body is finished, an operator leaves some construct open, as many as are counted for
the rest. -/
theorem rebuild_staysOpen {depth : Nat} (h : rebuild scope op b = .ok ((), c)) (hb : Founded b)
    (hbody : b.body.isSome) (hs : b.scan.Sound) (hheight : b.scan.height = depth + 1) :
    ∃ depth', c.scan.Sound ∧ c.scan.height = depth' + 1 ∧
      ∀ rest, Operator.closesLast depth (op :: rest) = Operator.closesLast depth' rest := by
  by_cases hlive : b.isDead = false ∧ op.isPlain = true
  · obtain ⟨hlive, hplain⟩ := hlive
    have hzero := hs.skipped_eq_zero ((scan_isDead b).trans hlive)
    rw [rebuild_live hlive] at h
    obtain ⟨hsound, hsame⟩ := (rebuildLive_translates h).plain_height hplain hzero hs.opened
    exact ⟨depth, hsound, hsame.trans hheight, fun _ => Operator.closesLast_plain hplain⟩
  · have hscan : c.scan = b.scan.step op := by
      rw [Scan.step, scan_isDead]
      cases hdead : b.isDead with
      | false =>
        rw [rebuild_live hdead] at h
        refine (rebuildLive_translates h).scan hb (.inr ?_)
        simpa [hdead] using hlive
      | true => exact (rebuildDead_passesOver hdead h).scan hb
    rw [hscan]
    refine (hs.step_cases hheight op).resolve_left ?_
    rintro ⟨rfl, -, hzero, hclosed⟩
    -- The construct would be closed into one around it, or be the function itself.
    rw [rebuild_finish hzero] at h
    obtain ⟨d, f, outer, hlast, hframes, ⟨hkind, -⟩ | ⟨-, g, rest, -, rfl⟩⟩ := close_cases h
    · have hd : Founded d := (resultLast_moves hlast).keep Move.founded hb
      have hsome : d.body.isSome := by rwa [resultLast_body hlast]
      exact hd.finished hsome f.kind (by simp [hframes]) hkind
    · rw [← hscan] at hclosed
      cases congrArg Scan.levels hclosed

/-- What is opened once the body is finished is never closed. -/
theorem rebuildAll_staysOpen {ops : List Operator} {depth : Nat}
    (h : rebuildAll scope ops b = .ok ((), b')) (hb : Founded b) (hbody : b.body.isSome)
    (hs : b.scan.Sound) (hheight : b.scan.height = depth + 1) {inside : List Operator}
    (hinside : inside <+: ops) : Operator.closesLast depth inside = false := by
  induction ops generalizing b depth inside with
  | nil =>
    obtain rfl := List.prefix_nil.1 hinside
    rfl
  | cons op rest ih =>
    obtain ⟨_, c, hop, hrest⟩ := seq_ok.1 h
    obtain ⟨es, hmoves, -⟩ := rebuild_moves hop
    obtain ⟨depth', hsound, hheight', hcloses⟩ := rebuild_staysOpen hop hb hbody hs hheight
    rcases List.prefix_cons_iff.1 hinside with rfl | ⟨inside, rfl, hafter⟩
    · rfl
    · rw [hcloses]
      exact ih hrest (hmoves.keep Move.founded hb) (hmoves.keep Move.body_isSome hbody) hsound
        hheight' hafter

/-- Once the body is finished and no construct is open, nothing is accepted but `nop` and a
construct that is never closed. -/
theorem rebuildAll_trailing {ops : List Operator} (h : rebuildAll scope ops b = .ok ((), b'))
    (hb : Founded b) (hbody : b.body.isSome) (hend : b.scan = ⟨[], 0⟩) : Operator.Trailing ops := by
  have hframes : b.frames = [] := List.map_eq_nil_iff.1 (congrArg Scan.levels hend)
  induction ops with
  | nil => exact .nil
  | cons op rest ih =>
    obtain ⟨_, c, hop, hrest⟩ := seq_ok.1 h
    have hlive : b.isDead = false := by
      rw [← scan_isDead, hend]
      rfl
    obtain ⟨es, hmoves, -⟩ := rebuild_moves hop
    rw [rebuild_live hlive] at hop
    rcases (rebuildLive_translates hop).afterEnd hframes with
      ⟨rfl, rfl⟩ | ⟨type, kind, result, hopens, rfl⟩
    · exact .nop (ih hrest)
    · refine .opens hopens fun inside hinside => ?_
      have hscan : (b.opened kind result).scan = b.scan.enter kind.construct := rfl
      rw [hend] at hscan
      refine rebuildAll_staysOpen hrest (hmoves.keep Move.founded hb)
        (hmoves.keep Move.body_isSome hbody) ?_ ?_ hinside
      · rw [hscan]
        exact Scan.sound_of_length rfl (Nat.succ_pos _)
      · rw [hscan]
        rfl

/-- A live operator names a local that is known. -/
theorem rebuild_ownLocal (h : rebuild scope op b = .ok ((), b')) (hlive : b.isDead = false)
    {i : Nat} (hi : op.ownLocal? = some i) : i < b.locals.length := by
  rw [rebuild_live hlive] at h
  cases rebuildLive_translates h with
  | write _ own => exact own i hi
  | jump jumps => cases jumps <;> cases hi
  | _ => cases hi

end

end Builder

/-- An accepted body is well nested up to the operator that closes the function: all constructs that
are opened are closed, those in dead code too, and every `else` that is not passed over belongs to
one `if`. The operators up to there already give the tree; what may follow them is told by
`Expr.ofOperators_trailing`. A live operator names a parameter or a declared local, unless it names
a scratch local that is known where it stands. -/
theorem Expr.ofOperators_nested {scope : Scope} {params locals ls : List Ty} {result : Ty}
    {ops : List Operator} {body : Expr}
    (h : ofOperators scope params locals result ops = .ok (ls, body)) :
    (∃ inside rest ls', ops = inside ++ rest ∧
        ofOperators scope params locals result inside = .ok (ls', body) ∧
        Operator.closesLast 0 inside = true ∧
        Operator.nests [false] (Operator.heeded inside) = true) ∧
      ∀ before op after, ops = before ++ op :: after →
        ∃ b scratch,
          Builder.rebuildAll scope before (.start (params ++ locals) result) = .ok ((), b) ∧
          b.locals = params ++ locals ++ scratch ∧ locals ++ scratch <+: ls ∧
          (b.isDead = false → ∀ i, op.ownLocal? = some i →
            i < params.length + locals.length ∨
              ∃ j ty, i = params.length + locals.length + j ∧ scratch[j]? = some ty) := by
  obtain ⟨b', hrun, hbody, rfl⟩ := ofOperators_ok h
  refine ⟨?_, ?_⟩
  · have hs : (Builder.start (params ++ locals) result).scan.Sound :=
      Scan.sound_of_length rfl (Nat.zero_lt_one)
    obtain ⟨inside, rest, c, rfl, hinside, -, hc, -, hcloses, hnested⟩ :=
      Builder.rebuildAll_nested hrun (Builder.start_founded _ _) rfl hs rfl hbody
    refine ⟨inside, rest, c.locals.drop params.length, rfl, ?_, hcloses, hnested⟩
    rw [ofOperators, StateT.run, hinside, ok_bind]
    simp only [hc]
    rfl
  · rintro before op after rfl
    rw [Builder.rebuildAll_append] at hrun
    obtain ⟨_, b, hbefore, hrest⟩ := Builder.seq_ok.1 hrun
    obtain ⟨_, c, hop, -⟩ := Builder.seq_ok.1 hrest
    obtain ⟨es, hmoves, -⟩ := Builder.rebuildAll_moves hbefore
    obtain ⟨es', hmoves', -⟩ := Builder.rebuildAll_moves hrest
    obtain ⟨scratch, hscratch⟩ : params ++ locals <+: b.locals := hmoves.locals_grow
    obtain ⟨more, hmore⟩ := hmoves'.locals_grow
    refine ⟨b, scratch, hbefore, hscratch.symm, ⟨more, ?_⟩, fun hlive i hi => ?_⟩
    · rw [← hmore, ← hscratch]
      simp
    · have hknown := Builder.rebuild_ownLocal hop hlive hi
      rw [← hscratch, List.length_append, List.length_append] at hknown
      by_cases hown : i < params.length + locals.length
      · exact .inl hown
      · have hj : i - (params.length + locals.length) < scratch.length := by omega
        exact .inr ⟨i - (params.length + locals.length), _, by omega, List.getElem?_eq_getElem hj⟩

/-- In a block, a conditional branch out of it comes first. The dead code after a trap holds an `if`
with two arms, and one of them names a local that there is not. -/
theorem Expr.ofOperators_nested_trap :
    ofOperators ⟨[], [], [], []⟩ [.i32] [] .void
        [.block .empty, .localGet 0, .brIf 0, .unreachable, .ifThen .empty, .elseArm, .localGet 9,
          .finish, .finish, .finish] =
        .ok ([], .block (some ⟨1⟩) [.br ⟨1⟩ (some (.localGet 0 .i32)) none, .unreachable] .void) ∧
      ∃ inside rest ls',
        [.block .empty, .localGet 0, .brIf 0, .unreachable, .ifThen .empty, .elseArm, .localGet 9,
            .finish, .finish, .finish] = inside ++ rest ∧
          ofOperators ⟨[], [], [], []⟩ [.i32] [] .void inside =
            .ok (ls', .block (some ⟨1⟩) [.br ⟨1⟩ (some (.localGet 0 .i32)) none, .unreachable]
              .void) ∧
          Operator.closesLast 0 inside = true ∧
          Operator.nests [false] (Operator.heeded inside) = true :=
  ⟨rfl, (@ofOperators_nested _ _ _ [] _ _ _ rfl).1⟩

/-- An `else` inside a block is accepted in dead code. -/
theorem Expr.ofOperators_strayElse :
    ofOperators ⟨[], [], [], []⟩ [] [] .void
        [.unreachable, .block .empty, .elseArm, .finish, .finish] = .ok ([], .unreachable) ∧
      Operator.nests [false] [.unreachable, .block .empty, .elseArm, .finish, .finish] = false :=
  ⟨rfl, rfl⟩

/-- After the operator that closes the function, an accepted body holds nothing but `nop` and a
block or a loop that is never closed, with all that stands in it. -/
theorem Expr.ofOperators_trailing {scope : Scope} {params locals ls : List Ty} {result : Ty}
    {ops : List Operator} {body : Expr}
    (h : ofOperators scope params locals result ops = .ok (ls, body)) :
    ∃ inside rest, ops = inside ++ rest ∧ Operator.closesLast 0 inside = true ∧
      Operator.Trailing rest := by
  obtain ⟨b', hrun, hbody, -⟩ := ofOperators_ok h
  have hs : (Builder.start (params ++ locals) result).scan.Sound :=
    Scan.sound_of_length rfl (Nat.zero_lt_one)
  have hstart := Builder.start_founded (params ++ locals) result
  obtain ⟨inside, rest, c, rfl, hinside, hrest, hc, hend, hcloses, -⟩ :=
    Builder.rebuildAll_nested hrun hstart rfl hs rfl hbody
  obtain ⟨es, hmoves, -⟩ := Builder.rebuildAll_moves hinside
  refine ⟨inside, rest, rfl, hcloses, ?_⟩
  exact Builder.rebuildAll_trailing hrest (hmoves.keep Builder.Move.founded hstart) (by simp [hc])
    hend

end WasmLift
