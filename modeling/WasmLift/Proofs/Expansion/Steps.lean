import WasmLift.Proofs.Expansion.Accepted

/-!
# What an operator does

A step that succeeds, on any operator, does one of a few things (`Builder.Rebuilds`): it takes
values and emits a node made of them, opens a construct, passes to the second arm of an `if`, closes
a construct, or is passed over. Unlike a move, a step says which nodes are values and where the
frame is dead. What every step keeps, a run of them keeps (`Builder.rebuildAll_invariant`). The
first use is that every node of an accepted body has values for operands, accesses at least one byte
if the operators do, and is no value if it only assigns (`Expr.ofOperators_proper`).
-/

namespace WasmLift

/-- The bytes that a load or a store touches. -/
def Operator.accessBytes? : Operator → Option Nat
  | .load shape _ | .store shape _ => some shape.bytes
  | _ => none

namespace Expr

/-- The bytes that a load or a store touches. -/
def accessBytes? : Expr → Option Nat
  | .load _ arg _ | .store _ _ arg => some arg.bytes
  | _ => none

/-- The node is an assignment that does not give the value on. -/
def isBareSet : Expr → Bool
  | .localSet _ _ tee _ => !tee
  | _ => false

end Expr

/-- A node that an operator is rebuilt as touches the bytes that the operator does, and has no value
if it is an assignment that does not give the value on. -/
structure Operator.Makes (op : Operator) (e : Expr) : Prop where
  access : ∀ n, e.accessBytes? = some n → op.accessBytes? = some n
  bare : e.isBareSet = true → e.isValue = false

namespace Builder

/-- What a step does with an operator. -/
inductive Rebuilds (op : Operator) (b : Builder) : Builder → Prop where
  | skip {depth : Nat} : Rebuilds op b { b with deadConstructs := depth }
  /-- A node is made of values that were taken, after the labels it jumps to were marked. -/
  | emit {b' c : Builder} {vs : List Expr} {e : Expr} {depths : List Nat} (live : b.isDead = false)
      (takes : Takes b vs c) (pushed : push e (c.mark depths) = .ok ((), b'))
      (simple : e.isSimple = true) (operands : e.children ⊆ vs)
      (makes : op.Makes e) : Rebuilds op b b'
  /-- A conditional branch to the end of the function. -/
  | leaveIf {b' c : Builder} {condition : Expr} (live : b.isDead = false)
      (takes : Takes b [condition] c)
      (pushed : push (.ite condition (.ret none) none .void) c = .ok ((), b')) : Rebuilds op b b'
  | enter {kind : FrameKind} {result : Ty} (live : b.isDead = false)
      (held : kind = .block ∨ kind = .loop) : Rebuilds op b (b.opened kind result)
  | enterIf {c : Builder} {condition : Expr} {result : Ty} (live : b.isDead = false)
      (takes : Takes b [condition] c) : Rebuilds op b (c.opened (.ifThen condition) result)
  | pass {b' : Builder} (passed : beginElse b = .ok ((), b')) : Rebuilds op b b'
  | leave {b' : Builder} (closed : close b = .ok ((), b')) : Rebuilds op b b'

section
variable {b b' c d : Builder} {scope : Scope} {op : Operator}

/-! ## One operator -/

/-- An operator makes the node that it is written as. -/
theorem makes_of_writes {e : Expr} (h : op.Writes scope e) : op.Makes e where
  access n hn := by
    cases h with
    | load | store => exact hn
    | _ => cases hn
  bare hbare := by
    cases h with
    | localSet => rfl
    | _ => cases hbare

/-- An operator that jumps makes the node of the jump. -/
theorem makes_of_jumps {e : Expr} {height : Nat} {depths : List Nat}
    (h : op.Jumps height depths e) : op.Makes e where
  access n hn := by cases h <;> cases hn
  bare hbare := by cases h <;> cases hbare

/-- A live operator that is rebuilt. -/
theorem rebuildLive_cases (live : b.isDead = false) (h : rebuildLive scope op b = .ok ((), b')) :
    Rebuilds op b b' := by
  cases rebuildLive_translates h with
  | nop => exact .skip
  | @write _ _ c e writes _ takes pushed =>
    have hpush : push e (c.mark []) = .ok ((), b') := pushed
    exact .emit live takes hpush writes.isSimple (List.Subset.refl _) (makes_of_writes writes)
  | jump jumps _ takes pushed =>
    exact .emit live takes pushed jumps.isSimple (List.Subset.refl _) (makes_of_jumps jumps)
  | leaveIf _ takes pushed => exact .leaveIf live takes pushed
  | block => exact .enter live (.inl rfl)
  | loop => exact .enter live (.inr rfl)
  | ifThen takes => exact .enterIf live takes
  | elseArm passed => exact .pass passed
  | finish closed => exact .leave closed

/-- A dead operator that is passed over, or that closes the dead stretch. -/
theorem PassesOver.rebuilds (h : PassesOver b op b') : Rebuilds op b b' := by
  cases h with
  | elseArm _ passed => exact .pass passed
  | finish _ closed => exact .leave closed
  | _ => exact .skip

/-- Every operator that is accepted is rebuilt in one of the ways there are. -/
theorem rebuild_cases (h : rebuild scope op b = .ok ((), b')) : Rebuilds op b b' := by
  cases hdead : b.isDead with
  | false => exact rebuildLive_cases hdead (by rwa [rebuild_live hdead] at h)
  | true => exact (rebuildDead_passesOver hdead h).rebuilds

/-- What every step keeps, a run of steps keeps. -/
theorem rebuildAll_invariant {P : Builder → Prop} {ops : List Operator}
    (hstep : ∀ op ∈ ops, ∀ {b b'}, Rebuilds op b b' → P b → P b')
    (h : rebuildAll scope ops b = .ok ((), b')) (hb : P b) : P b' := by
  induction ops generalizing b with
  | nil =>
    obtain ⟨-, rfl⟩ := pure_ok h
    exact hb
  | cons op rest ih =>
    obtain ⟨_, c, hop, hrest⟩ := seq_ok.1 h
    refine ih (fun op' hop' => hstep op' (.tail _ hop')) hrest ?_
    exact hstep op (.head _) (rebuild_cases hop) hb

/-! ## Ends of constructs -/

/-- Moving the result last takes it and puts it back, if the end is reached with one. -/
theorem resultLast_cases (h : resultLast b = .ok ((), c)) :
    ∃ f outer, b.frames = f :: outer ∧
      ((f.result = .void ∨ f.unreachable = true) ∧ c = b ∨
        (f.result ≠ .void ∧ f.unreachable = false) ∧
          ∃ v c₁, takeValue "block result" b = .ok (v, c₁) ∧ push v c₁ = .ok ((), c)) := by
  obtain ⟨f, c₀, htop, hrest⟩ := seq_ok.1 h
  obtain ⟨rfl, outer, hframes⟩ := top_ok htop
  refine ⟨f, outer, hframes, ?_⟩
  split at hrest
  next hlive =>
    obtain ⟨v, c₁, hv, hpush⟩ := seq_ok.1 hrest
    exact .inr ⟨by simpa using hlive, v, c₁, hv, hpush⟩
  next hdead =>
    obtain ⟨-, rfl⟩ := pure_ok hrest
    exact .inl ⟨by simpa [or_iff_not_imp_left] using hdead, rfl⟩

/-- Where the other arm begins, the frame is that of a condition, and its first arm is kept. -/
theorem beginElse_cases (h : beginElse b = .ok ((), b')) :
    ∃ c f outer condition, resultLast b = .ok ((), c) ∧ c.frames = f :: outer ∧
      f.kind = .ifThen condition ∧
      b' = c.withFrames
        ({ f with
            kind := .ifElse condition f.emitted.reverse f.unreachable
            emitted := []
            unreachable := false } :: outer) := by
  obtain ⟨_, c, hlast, hrest⟩ := seq_ok.1 h
  obtain ⟨f, c₁, htop, hpass⟩ := seq_ok.1 hrest
  obtain ⟨rfl, outer, hframes⟩ := top_ok htop
  cases hkind : f.kind with
  | ifThen condition =>
    rw [hkind] at hpass
    exact ⟨_, f, outer, condition, hlast, hframes, hkind, modifyTop_at hframes hpass⟩
  | function | block | loop | ifElse =>
    rw [hkind] at hpass
    cases hpass

end

end Builder

/-- What comes after the finished construct is never reached. -/
def Frame.endsDead (f : Frame) : Bool :=
  match f.kind with
  | .function | .ifThen _ => false
  | .block => f.unreachable && !f.labelUsed
  | .loop => f.unreachable
  | .ifElse _ _ thenDead => thenDead && f.unreachable && !f.labelUsed

namespace Builder

section
variable {b b' c : Builder}

/-- A finished construct leaves its nodes in the one around it. -/
theorem fold_cases {f : Frame} (hkind : f.kind ≠ .function) (h : fold f b = .ok ((), b')) :
    ∃ g outer, b.frames = g :: outer ∧
      b' = b.withFrames
        ({ g with
            emitted := f.folded.reverse ++ g.emitted
            unreachable := g.unreachable || f.endsDead } :: outer) := by
  have happend {dead : Bool} (hfold : (append f.folded >>= fun _ => markDead dead) b = .ok ((), b'))
      (hdead : dead = f.endsDead) :
      ∃ g outer, b.frames = g :: outer ∧
        b' = b.withFrames
          ({ g with
              emitted := f.folded.reverse ++ g.emitted
              unreachable := g.unreachable || f.endsDead } :: outer) := by
    obtain ⟨_, c, hnodes, hmark⟩ := seq_ok.1 hfold
    obtain ⟨g, outer, hframes, rfl⟩ := modifyTop_ok hnodes
    exact ⟨g, outer, hframes, hdead ▸ modifyTop_at rfl hmark⟩
  unfold fold at h
  unfold Frame.folded Frame.endsDead at happend ⊢
  cases hk : f.kind with
  | function => exact (hkind hk).elim
  | block =>
    simp only [hk] at h happend ⊢
    refine happend ?_ rfl
    cases hused : f.usedLabel <;> rw [hused] at h <;> exact h
  | loop =>
    simp only [hk] at h happend ⊢
    exact happend h rfl
  | ifThen condition =>
    simp only [hk, appendConditional_eq] at h ⊢
    obtain ⟨g, outer, hframes, rfl⟩ := modifyTop_ok h
    exact ⟨g, outer, hframes, by simp⟩
  | ifElse condition thenArm thenDead =>
    simp only [hk, appendConditional_eq] at h happend ⊢
    exact happend h rfl

/-- Closing the function finishes its body; closing any other construct leaves its nodes in the one
around it. -/
theorem close_cases (h : close b = .ok ((), b')) :
    ∃ c f outer, resultLast b = .ok ((), c) ∧ c.frames = f :: outer ∧
      (f.kind = .function ∧ b' = { c with frames := outer, body := some (bodyOf f) } ∨
        f.kind ≠ .function ∧ ∃ g rest, outer = g :: rest ∧
          b' = c.withFrames
            ({ g with
                emitted := f.folded.reverse ++ g.emitted
                unreachable := g.unreachable || f.endsDead } :: rest)) := by
  obtain ⟨_, c, hlast, hrest⟩ := seq_ok.1 h
  obtain ⟨f, c₁, htop, htail⟩ := seq_ok.1 hrest
  obtain ⟨rfl, outer, hframes⟩ := top_ok htop
  obtain ⟨_, c₂, hmodify, hfold⟩ := seq_ok.1 htail
  obtain rfl := modify_ok hmodify
  refine ⟨_, f, outer, hlast, hframes, ?_⟩
  rw [hframes] at hfold
  by_cases hkind : f.kind = .function
  · rw [fold_function hkind] at hfold
    cases hfold
    exact .inl ⟨hkind, rfl⟩
  · obtain ⟨g, rest, houter, rfl⟩ := fold_cases hkind hfold
    exact .inr ⟨hkind, g, rest, houter, rfl⟩

end

end Builder

/-! ## Proper nodes -/

namespace Expr

/-- The operands of a node are values, an access touches at least one byte, and an assignment that
does not give its value on has none. -/
structure Proper (e : Expr) : Prop where
  operands : e.isSimple = true → ∀ c ∈ e.children, c.isValue = true
  access : ∀ n, e.accessBytes? = some n → 0 < n
  bare : e.isBareSet = true → e.isValue = false

/-- A construct is proper, whatever is inside. -/
theorem proper_of_structured {e : Expr} (h : e.isSimple = false) : e.Proper where
  operands hsimple := by
    rw [h] at hsimple
    cases hsimple
  access n hn := by
    cases e with
    | load | store => cases h
    | _ => cases hn
  bare hbare := by
    cases e with
    | localSet => cases h
    | _ => cases hbare

section
variable {Q : Expr → Prop} {label : Option Label} {ty : Ty}

/-- A sequence has a property if its nodes do, and the block that it may be. -/
theorem all_sequence {es : List Expr} (hnop : Q .nop) (hblock : Q (.block none es ty))
    (h : ∀ e ∈ es, e.All Q) : (sequence es ty).All Q := by
  cases es with
  | nil => exact .node hnop (List.forall_mem_nil _)
  | cons e rest =>
    cases rest with
    | nil => exact h e (.head _)
    | cons e' rest => exact .node hblock h

/-- What holds of all of a conditional's parts holds of it, with its label or without. -/
theorem all_conditional {condition ifTrue : Expr} {ifFalse : Option Expr}
    (hite : Q (.ite condition ifTrue ifFalse ty))
    (hblock : Q (.block label [.ite condition ifTrue ifFalse ty] ty))
    (h : ∀ e ∈ condition :: ifTrue :: ifFalse.toList, e.All Q) :
    (Builder.conditional label condition ifTrue ifFalse ty).All Q := by
  have hnode : (ite condition ifTrue ifFalse ty).All Q := .node hite h
  cases label with
  | none => exact hnode
  | some label => exact .node hblock (List.forall_mem_singleton.2 hnode)

end

/-- The node that does nothing is proper. -/
theorem proper_nop : nop.Proper := by
  constructor
  · intro _ c hc
    cases hc
  · intro n hn
    cases hn
  · intro hbare
    cases hbare

/-- A sequence of proper trees is proper. -/
theorem allProper_sequence {es : List Expr} {ty : Ty} (h : ∀ e ∈ es, e.All Proper) :
    (sequence es ty).All Proper :=
  all_sequence proper_nop (proper_of_structured rfl) h

/-- A conditional with proper parts is proper. -/
theorem allProper_conditional {label : Option Label} {condition ifTrue : Expr}
    {ifFalse : Option Expr} {ty : Ty}
    (h : ∀ e ∈ condition :: ifTrue :: ifFalse.toList, e.All Proper) :
    (Builder.conditional label condition ifTrue ifFalse ty).All Proper :=
  all_conditional (proper_of_structured rfl) (proper_of_structured rfl) h

end Expr

open WasmLift.Expr

/-- A construct is folded into proper trees if what it holds is proper. -/
theorem Frame.allProper_folded {f : Frame} (hkind : f.kind ≠ .function)
    (h : ∀ e ∈ f.content, e.All Proper) : ∀ e ∈ f.folded, e.All Proper := by
  unfold Frame.content at h
  unfold Frame.folded
  cases hk : f.kind with
  | function => exact (hkind hk).elim
  | block =>
    rw [hk] at h
    cases f.usedLabel with
    | none => exact h
    | some label => exact List.forall_mem_singleton.2 (.node (proper_of_structured rfl) h)
  | loop =>
    rw [hk] at h
    refine List.forall_mem_singleton.2 (.node (proper_of_structured rfl) ?_)
    exact List.forall_mem_singleton.2 (allProper_sequence h)
  | ifThen condition =>
    rw [hk] at h
    obtain ⟨hcondition, hnodes⟩ := List.forall_mem_cons.1 h
    refine List.forall_mem_singleton.2 (allProper_conditional ?_)
    refine List.forall_mem_cons.2 ⟨hcondition, ?_⟩
    exact List.forall_mem_singleton.2 (allProper_sequence hnodes)
  | ifElse condition thenArm thenDead =>
    rw [hk] at h
    obtain ⟨hcondition, hnodes⟩ := List.forall_mem_cons.1 h
    obtain ⟨hthen, helse⟩ := List.forall_mem_append.1 hnodes
    refine List.forall_mem_singleton.2 (allProper_conditional ?_)
    refine List.forall_mem_cons.2 ⟨hcondition, List.forall_mem_cons.2 ⟨?_, ?_⟩⟩
    · exact allProper_sequence hthen
    · exact List.forall_mem_singleton.2 (allProper_sequence helse)

namespace Builder

/-- All nodes are proper. -/
structure Proper (b : Builder) : Prop where
  standing : ∀ e ∈ standing b.frames, e.All Expr.Proper
  body : ∀ e, b.body = some e → e.All Expr.Proper

section
variable {b b' c : Builder}

/-- The innermost frame of a proper state, and those around it. -/
theorem Proper.top (hb : b.Proper) {f : Frame} {outer : List Frame} (h : b.frames = f :: outer) :
    (∀ e ∈ Builder.standing outer, e.All Expr.Proper) ∧ (∀ e ∈ f.kind.held, e.All Expr.Proper) ∧
      ∀ e ∈ f.emitted, e.All Expr.Proper := by
  have hall := hb.standing
  rw [h, standing_cons, Frame.content] at hall
  simp only [List.forall_mem_append, List.mem_reverse] at hall
  exact ⟨hall.1, hall.2.1, hall.2.2⟩

/-- A state is proper if its frames are, and its body was. -/
theorem Proper.withFrames (hb : b.Proper) {f : Frame} {outer : List Frame}
    (hbody : c.body = b.body) (hframes : c.frames = f :: outer)
    (houter : ∀ e ∈ Builder.standing outer, e.All Expr.Proper)
    (hheld : ∀ e ∈ f.kind.held, e.All Expr.Proper) (hemitted : ∀ e ∈ f.emitted, e.All Expr.Proper) :
    c.Proper := by
  refine ⟨?_, hbody ▸ hb.body⟩
  rw [hframes, standing_cons, Frame.content]
  simp only [List.forall_mem_append, List.mem_reverse]
  exact ⟨houter, hheld, hemitted⟩

/-- What is split off as a value is one. -/
theorem isValue_of_splitValue {es later earlier : List Expr} {value : Expr}
    (h : splitValue es = some (later, value, earlier)) : value.isValue = true := by
  fun_induction splitValue es generalizing later with
  | case1 => cases h
  | case2 e rest hvalue =>
    cases h
    exact hvalue
  | case3 e rest _ hnone => cases h
  | case4 e rest _ later' value' earlier' hsome ih =>
    cases h
    exact ih hsome

/-- A value that is taken is proper, and so is what is left. -/
theorem Proper.take {consumer : String} {v : Expr} (hb : b.Proper)
    (h : takeValue consumer b = .ok (v, c)) : c.Proper ∧ v.isValue = true ∧ v.All Expr.Proper := by
  obtain ⟨f, outer, later, value, earlier, hframes, hsplit, htaken⟩ := takeValue_ok h
  obtain ⟨houter, hheld, hemitted⟩ := hb.top hframes
  have hvalue := isValue_of_splitValue hsplit
  rw [splitValue_eq hsplit, List.forall_mem_append, List.forall_mem_cons] at hemitted
  obtain ⟨hlater, hproper, hearlier⟩ := hemitted
  unfold taken at htaken
  split at htaken
  · cases htaken
    exact ⟨hb.withFrames rfl rfl houter hheld hearlier, hvalue, hproper⟩
  · cases htaken
    refine ⟨hb.withFrames rfl rfl houter hheld ?_, ?_, .node ⟨fun _ => nofun, nofun, nofun⟩ nofun⟩
    · refine List.forall_mem_append.2 ⟨hlater, List.forall_mem_cons.2 ⟨?_, hearlier⟩⟩
      exact .node ⟨fun _ => List.forall_mem_singleton.2 hvalue, nofun, fun _ => rfl⟩
        (List.forall_mem_singleton.2 hproper)
    · exact hvalue

/-- Values that are taken are proper, and so is what is left. -/
theorem Proper.takes {vs : List Expr} (hb : b.Proper) (h : Takes b vs c) :
    c.Proper ∧ ∀ v ∈ vs, v.isValue = true ∧ v.All Expr.Proper := by
  induction h with
  | none => exact ⟨hb, nofun⟩
  | more _ last ih =>
    obtain ⟨hc, hvs⟩ := ih
    obtain ⟨hd, hv⟩ := hc.take last
    exact ⟨hd, List.forall_mem_cons.2 ⟨hv, hvs⟩⟩

/-- Marking labels changes no tree. -/
theorem Proper.mark (hb : b.Proper) (depths : List Nat) : (b.mark depths).Proper :=
  ⟨by rw [Builder.mark, standing_marked]; exact hb.standing, hb.body⟩

/-- A proper tree may be pushed. -/
theorem Proper.push {e : Expr} (hb : b.Proper) (he : e.All Expr.Proper)
    (h : push e b = .ok ((), c)) : c.Proper := by
  obtain ⟨f, outer, hframes, rfl⟩ := modifyTop_ok h
  obtain ⟨houter, hheld, hemitted⟩ := hb.top hframes
  exact hb.withFrames rfl rfl houter hheld (List.forall_mem_cons.2 ⟨he, hemitted⟩)

/-- A construct may be opened that holds proper trees. -/
theorem Proper.opened {kind : FrameKind} {result : Ty} (hb : b.Proper)
    (hheld : ∀ e ∈ kind.held, e.All Expr.Proper) : (b.opened kind result).Proper :=
  hb.withFrames rfl rfl hb.standing hheld nofun

/-- Putting the result last keeps all trees proper. -/
theorem Proper.resultLast (hb : b.Proper) (h : resultLast b = .ok ((), c)) : c.Proper := by
  obtain ⟨f, outer, -, ⟨-, rfl⟩ | ⟨-, v, c₁, hv, hpush⟩⟩ := resultLast_cases h
  · exact hb
  · obtain ⟨hc₁, -, hproper⟩ := hb.take hv
    exact hc₁.push hproper hpush

/-- The first arm stays proper where the other begins. -/
theorem Proper.beginElse (hb : b.Proper) (h : beginElse b = .ok ((), b')) : b'.Proper := by
  obtain ⟨c, f, outer, condition, hlast, hframes, hkind, rfl⟩ := beginElse_cases h
  have hc := hb.resultLast hlast
  obtain ⟨houter, hheld, hemitted⟩ := hc.top hframes
  refine hc.withFrames rfl rfl houter ?_ nofun
  rw [hkind] at hheld
  refine List.forall_mem_cons.2 ⟨hheld condition (.head _), fun e he => ?_⟩
  exact hemitted e (List.mem_reverse.1 he)

/-- Closing a construct keeps all trees proper. -/
theorem Proper.close (hb : b.Proper) (h : close b = .ok ((), b')) : b'.Proper := by
  obtain ⟨c, f, outer, hlast, hframes, hfold⟩ := close_cases h
  have hc := hb.resultLast hlast
  obtain ⟨houter, hheld, hemitted⟩ := hc.top hframes
  obtain ⟨-, rfl⟩ | ⟨hkind, g, rest, rfl, rfl⟩ := hfold
  · refine ⟨houter, ?_⟩
    rintro _ ⟨⟩
    have hnodes : ∀ e ∈ f.emitted.reverse, e.All Expr.Proper := by simpa using hemitted
    unfold bodyOf
    split
    · exact .node (proper_of_structured rfl) hnodes
    · exact allProper_sequence hnodes
  · have hcontent : ∀ e ∈ f.content, e.All Expr.Proper := by
      rw [Frame.content, List.forall_mem_append]
      exact ⟨hheld, by simpa using hemitted⟩
    have hfolded := Frame.allProper_folded hkind hcontent
    rw [standing_cons, Frame.content] at houter
    simp only [List.forall_mem_append, List.mem_reverse] at houter
    refine hc.withFrames rfl rfl houter.1 houter.2.1 ?_
    rw [List.forall_mem_append]
    exact ⟨by simpa using hfolded, houter.2.2⟩

/-- A step keeps nodes proper, if its operator accesses at least one byte. -/
theorem Rebuilds.proper {op : Operator} (hop : ∀ n, op.accessBytes? = some n → 0 < n)
    (h : Rebuilds op b b') (hb : b.Proper) : b'.Proper := by
  cases h with
  | skip => exact ⟨hb.standing, hb.body⟩
  | emit _ takes pushed simple operands makes =>
    obtain ⟨hc, hvs⟩ := hb.takes takes
    refine (hc.mark _).push (.node ⟨fun _ x hx => ?_, fun n hn => ?_, makes.bare⟩ ?_) pushed
    · exact (hvs x (operands hx)).1
    · exact hop n (makes.access n hn)
    · exact fun x hx => (hvs x (operands hx)).2
  | leaveIf _ takes pushed =>
    obtain ⟨hc, hvs⟩ := hb.takes takes
    have hret : (Expr.ret none).All Expr.Proper := .node ⟨fun _ => nofun, nofun, nofun⟩ nofun
    refine hc.push (.node (proper_of_structured rfl) ?_) pushed
    exact List.forall_mem_cons.2 ⟨(hvs _ (.head _)).2, List.forall_mem_singleton.2 hret⟩
  | enter _ held =>
    refine hb.opened ?_
    obtain rfl | rfl := held <;> nofun
  | enterIf _ takes =>
    obtain ⟨hc, hvs⟩ := hb.takes takes
    exact hc.opened (List.forall_mem_singleton.2 (hvs _ (.head _)).2)
  | pass passed => exact hb.beginElse passed
  | leave closed => exact hb.close closed

/-- A function starts without any tree. -/
theorem start_proper (locals : List Ty) (result : Ty) : (start locals result).Proper :=
  ⟨by simp [start, Frame.content, FrameKind.held], nofun⟩

end

end Builder

/-- All nodes of an accepted body have values for operands, and access at least one byte if the
operators do. -/
theorem Expr.ofOperators_proper {scope : Scope} {params locals ls : List Ty} {result : Ty}
    {ops : List Operator} {body : Expr}
    (hops : ∀ op ∈ ops, ∀ n, op.accessBytes? = some n → 0 < n)
    (h : ofOperators scope params locals result ops = .ok (ls, body)) : body.All Proper := by
  obtain ⟨b, hrun, hbody, -⟩ := ofOperators_ok h
  have hproper : b.Proper := Builder.rebuildAll_invariant
    (fun op hop _ _ hstep => hstep.proper (hops op hop)) hrun (Builder.start_proper _ _)
  exact hproper.body body hbody

end WasmLift
