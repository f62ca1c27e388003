import WasmLift.Proofs.Expansion.Steps

/-!
# How constructs end

Nodes conclude (`Expr.Concludes`) if the last of them is a value, or one after which control never
goes on by its shape alone (`Expr.neverFalls`). A construct that is marked as dead while a body is
rebuilt ends in such a node, and one that is not has its result moved last when it is closed. So in
an accepted body every construct with a result concludes (`Expr.ofOperators_concludes`).

Nodes complete if in some surroundings they can be run one after the other to the end of the last
(`Expr.Completes`). A node after which control never goes on does not. So the statements of an
accepted body that returns a value end in a value, if their end can be reached
(`Expr.ofOperators_endsInValue`).
-/

namespace WasmLift

namespace Expr

open Run

/-! ## Ends of lists -/

mutual

/-- Control never goes on after the node, by its shape: it is a terminator, a loop whose body never
ends, a conditional with two arms neither of which ends, or an unlabeled block whose last node never
ends. -/
def neverFalls : Expr → Bool
  | .loop _ body _ => neverFalls body
  | .ite _ ifTrue ifFalse _ => neverFalls ifTrue && armNeverFalls ifFalse
  | .block none children _ => lastNeverFalls children
  | e => e.isTerminator
termination_by structural e => e

/-- Control never goes on after an arm; it does after one that is missing. -/
def armNeverFalls : Option Expr → Bool
  | none => false
  | some e => neverFalls e
termination_by structural arm => arm

/-- Control never goes on after the last of the nodes. -/
def lastNeverFalls : List Expr → Bool
  | [] => false
  | e :: rest => if rest.isEmpty then neverFalls e else lastNeverFalls rest
termination_by structural es => es

end

/-- There is a last node, and it is a value or control never goes on after it. -/
def Concludes (es : List Expr) : Prop :=
  ∃ last ∈ es.getLast?, last.isValue = true ∨ last.neverFalls = true

/-- The nodes that were put in sequence: those of an unlabeled block, or the one node. -/
def sequenced : Expr → List Expr
  | .block none children _ => children
  | e => [e]

/-- The lists of nodes in a node that stand for a construct with a result. -/
def typedLists (e : Expr) : List (List Expr) :=
  if e.ty = .void then []
  else
    match e with
    | .block _ children _ => [children]
    | .loop _ body _ => [body.sequenced]
    | .ite _ ifTrue ifFalse _ => ifTrue.sequenced :: ifFalse.toList.map sequenced
    | _ => []

/-- The lists of nodes that are to give a result conclude. -/
def Orderly (e : Expr) : Prop :=
  ∀ es ∈ e.typedLists, Concludes es

/-- Control never goes on after a list if it never does after its last node. -/
theorem lastNeverFalls_iff {es : List Expr} :
    lastNeverFalls es = true ↔ ∃ last ∈ es.getLast?, last.neverFalls = true := by
  induction es with
  | nil => simp [lastNeverFalls]
  | cons e rest ih =>
    cases rest with
    | nil => simp [lastNeverFalls]
    | cons e' rest =>
      rw [List.getLast?_cons_cons, ← ih]
      rfl

/-- Nodes after the last of which control never goes on conclude. -/
theorem concludes_of_lastNeverFalls {es : List Expr} (h : lastNeverFalls es = true) :
    Concludes es := by
  obtain ⟨last, hlast, hfalls⟩ := lastNeverFalls_iff.1 h
  exact ⟨last, hlast, .inr hfalls⟩

/-- A single node concludes if it is a value or control never goes on after it. -/
theorem concludes_singleton {e : Expr} :
    Concludes [e] ↔ e.isValue = true ∨ e.neverFalls = true := by
  simp [Concludes]

/-- A node that is no construct has no list that is to give a result. -/
theorem orderly_of_isSimple {e : Expr} (he : e.isSimple = true) : e.Orderly := by
  have hnone : e.typedLists = [] := by
    unfold typedLists
    cases e with
    | block | ite | loop => cases he
    | _ => simp
  intro es hes
  rw [hnone] at hes
  cases hes

/-- A block is orderly if its nodes conclude where it has a result. -/
theorem orderly_block {label : Option Label} {es : List Expr} {ty : Ty}
    (h : ty ≠ .void → Concludes es) : (block label es ty).Orderly := by
  intro es' hes'
  unfold typedLists at hes'
  split at hes'
  · cases hes'
  next hty => exact List.mem_singleton.1 hes' ▸ h hty

/-- A loop is orderly if its body concludes where it has a result. -/
theorem orderly_loop {label : Option Label} {body : Expr} {ty : Ty}
    (h : ty ≠ .void → Concludes body.sequenced) : (loop label body ty).Orderly := by
  intro es' hes'
  unfold typedLists at hes'
  split at hes'
  · cases hes'
  next hty => exact List.mem_singleton.1 hes' ▸ h hty

/-- A conditional is orderly if both arms conclude where it has a result. -/
theorem orderly_ite {condition ifTrue : Expr} {ifFalse : Option Expr} {ty : Ty}
    (h : ty ≠ .void → Concludes ifTrue.sequenced ∧ ∀ e ∈ ifFalse, Concludes e.sequenced) :
    (ite condition ifTrue ifFalse ty).Orderly := by
  intro es' hes'
  unfold typedLists at hes'
  split at hes'
  · cases hes'
  next hty =>
    obtain ⟨hthen, helse⟩ := h hty
    rcases List.mem_cons.1 hes' with rfl | hmem
    · exact hthen
    · obtain ⟨e, he, rfl⟩ := List.mem_map.1 hmem
      exact helse e (Option.mem_toList.1 he)

/-- One node in sequence concludes, also if it is a block with nodes of its own. -/
theorem concludes_sequenced {e : Expr} (he : e.Orderly) (h : Concludes [e]) :
    Concludes e.sequenced := by
  cases e with
  | block label children ty =>
    cases label with
    | some label => exact h
    | none =>
      rcases concludes_singleton.1 h with hvalue | hfalls
      · have hty : ty ≠ .void := by simpa [isValue, Expr.ty] using hvalue
        exact he children (by simp [typedLists, Expr.ty, hty])
      · exact concludes_of_lastNeverFalls hfalls
  | _ => exact h

/-- Nodes that conclude still do when they are put in sequence. -/
theorem concludes_sequence {es : List Expr} {ty : Ty} (hall : ∀ e ∈ es, e.Orderly)
    (h : Concludes es) : Concludes (sequence es ty).sequenced := by
  cases es with
  | nil =>
    obtain ⟨last, hlast, -⟩ := h
    cases hlast
  | cons e rest =>
    cases rest with
    | nil => exact concludes_sequenced (hall e (.head _)) h
    | cons e' rest => exact h

/-- A sequence never goes on if control never goes on after the last of its nodes. -/
theorem neverFalls_sequence {es : List Expr} {ty : Ty} (h : lastNeverFalls es = true) :
    (sequence es ty).neverFalls = true := by
  cases es with
  | nil => cases h
  | cons e rest =>
    cases rest with
    | nil => exact h
    | cons e' rest => exact h

/-- A sequence of orderly nodes that conclude is orderly. -/
theorem allOrderly_sequence {es : List Expr} {ty : Ty} (hty : ty ≠ .void → Concludes es)
    (h : ∀ e ∈ es, e.All Orderly) : (sequence es ty).All Orderly :=
  all_sequence (orderly_of_isSimple rfl) (orderly_block hty) h

/-- The node of a conditional is orderly with its block, if its arms conclude. -/
theorem allOrderly_conditional {label : Option Label} {condition ifTrue : Expr}
    {ifFalse : Option Expr} {ty : Ty}
    (hty : ty ≠ .void → Concludes ifTrue.sequenced ∧ ∀ e ∈ ifFalse, Concludes e.sequenced)
    (h : ∀ e ∈ condition :: ifTrue :: ifFalse.toList, e.All Orderly) :
    (Builder.conditional label condition ifTrue ifFalse ty).All Orderly := by
  refine all_conditional (orderly_ite hty) (orderly_block fun hvoid => ?_) h
  exact concludes_singleton.2 (.inl (by simpa [isValue, Expr.ty] using hvoid))

end Expr

/-! ## Constructs -/

open WasmLift.Expr

/-- A frame marked as dead ends in a node after which control never goes on, and so does a first arm
that is; a first arm concludes if it is to give a result; and a frame of the function itself is to
give the result of the function. -/
structure Frame.Honest (result : Ty) (f : Frame) : Prop where
  result : f.kind = .function → f.result = result
  dead : f.unreachable = true → lastNeverFalls f.emitted.reverse = true
  deadArm : ∀ condition thenArm, f.kind = .ifElse condition thenArm true →
    lastNeverFalls thenArm = true
  arm : ∀ condition thenArm thenDead, f.kind = .ifElse condition thenArm thenDead →
    f.result ≠ .void → Concludes thenArm
  held : ∀ e ∈ f.kind.held, e.All Orderly
  emitted : ∀ e ∈ f.emitted, e.All Orderly

namespace Frame

variable {result : Ty} {f : Frame}

/-- A frame that is reached is honest whatever orderly nodes it has. -/
theorem Honest.withEmitted (hf : f.Honest result) (hlive : f.unreachable = false) {es : List Expr}
    (hes : ∀ e ∈ es, e.All Orderly) : { f with emitted := es }.Honest result where
  result := hf.result
  dead hdead := by
    rw [hlive] at hdead
    cases hdead
  deadArm := hf.deadArm
  arm := hf.arm
  held := hf.held
  emitted := hes

/-- Control never goes on after a construct that ends dead. -/
theorem Honest.neverFalls_folded (hf : f.Honest result) (hends : f.endsDead = true) :
    lastNeverFalls f.folded = true := by
  unfold endsDead at hends
  unfold folded
  cases hkind : f.kind with
  | function | ifThen =>
    rw [hkind] at hends
    cases hends
  | block =>
    simp only [hkind, Bool.and_eq_true, Bool.not_eq_true'] at hends ⊢
    simp only [usedLabel, hends.2, Bool.false_eq_true, if_false]
    exact hf.dead hends.1
  | loop =>
    simp only [hkind] at hends ⊢
    exact neverFalls_sequence (hf.dead hends)
  | ifElse condition thenArm thenDead =>
    simp only [hkind, Bool.and_eq_true, Bool.not_eq_true'] at hends ⊢
    obtain ⟨⟨rfl, hdead⟩, hunused⟩ := hends
    simp only [usedLabel, hunused, Bool.false_eq_true, if_false]
    refine Bool.and_eq_true_iff.2 ⟨neverFalls_sequence ?_, neverFalls_sequence (hf.dead hdead)⟩
    exact hf.deadArm condition thenArm hkind

/-- A finished construct is orderly if it concludes where it is to give a result. -/
theorem Honest.orderly_folded (hf : f.Honest result)
    (hends : f.result ≠ .void → Concludes f.emitted.reverse) :
    ∀ e ∈ f.folded, e.All Orderly := by
  have hnodes : ∀ e ∈ f.emitted.reverse, e.All Orderly := by simpa using hf.emitted
  have hheld := hf.held
  have hlast (hty : f.result ≠ .void) :
      Concludes (sequence f.emitted.reverse f.result).sequenced :=
    concludes_sequence (fun e he => (hnodes e he).own) (hends hty)
  unfold folded
  cases hkind : f.kind with
  | function => exact List.forall_mem_nil _
  | block =>
    cases f.usedLabel with
    | none => exact hnodes
    | some label => exact List.forall_mem_singleton.2 (.node (orderly_block hends) hnodes)
  | loop =>
    refine List.forall_mem_singleton.2 (.node (orderly_loop hlast) ?_)
    exact List.forall_mem_singleton.2 (allOrderly_sequence hends hnodes)
  | ifThen condition =>
    rw [hkind] at hheld
    refine List.forall_mem_singleton.2 (allOrderly_conditional (fun hty => ⟨hlast hty, ?_⟩) ?_)
    · intro e he
      cases he
    · refine List.forall_mem_cons.2 ⟨hheld condition (.head _), ?_⟩
      exact List.forall_mem_singleton.2 (allOrderly_sequence hends hnodes)
  | ifElse condition thenArm thenDead =>
    rw [hkind] at hheld
    obtain ⟨hcondition, hthen⟩ := List.forall_mem_cons.1 hheld
    have harm := hf.arm condition thenArm thenDead hkind
    refine List.forall_mem_singleton.2 (allOrderly_conditional (fun hty => ⟨?_, ?_⟩) ?_)
    · exact concludes_sequence (fun e he => (hthen e he).own) (harm hty)
    · rintro _ ⟨⟩
      exact hlast hty
    · refine List.forall_mem_cons.2 ⟨hcondition, List.forall_mem_cons.2 ⟨?_, ?_⟩⟩
      · exact allOrderly_sequence harm hthen
      · exact List.forall_mem_singleton.2 (allOrderly_sequence hends hnodes)

/-- The body of the function concludes if the function is to give a result. -/
theorem Honest.orderly_bodyOf (hf : f.Honest result)
    (hends : f.result ≠ .void → Concludes f.emitted.reverse) :
    (f.result ≠ .void → Concludes (Builder.bodyOf f).sequenced) ∧
      (Builder.bodyOf f).All Orderly := by
  have hnodes : ∀ e ∈ f.emitted.reverse, e.All Orderly := by simpa using hf.emitted
  unfold Builder.bodyOf
  split
  next label hused =>
    refine ⟨fun hty => ?_, .node (orderly_block hends) hnodes⟩
    rw [hused]
    exact concludes_singleton.2 (.inl (by simpa [isValue, Expr.ty] using hty))
  next =>
    refine ⟨fun hty => ?_, allOrderly_sequence hends hnodes⟩
    exact concludes_sequence (fun e he => (hnodes e he).own) (hends hty)

end Frame

namespace Builder

/-- Every frame is honest, those around the innermost one are reached, and the finished body
concludes if it is to give a result. -/
structure Honest (result : Ty) (b : Builder) : Prop where
  frames : ∀ f ∈ b.frames, f.Honest result
  outer : ∀ dead ∈ (b.frames.map Frame.unreachable).tail, dead = false
  body : ∀ e, b.body = some e → (result ≠ .void → Concludes e.sequenced) ∧ e.All Orderly

section
variable {result : Ty} {b b' c : Builder}

/-- The innermost frame and those around it are honest, and these are reached. -/
theorem Honest.top (hb : b.Honest result) {f : Frame} {outer : List Frame}
    (h : b.frames = f :: outer) :
    f.Honest result ∧ (∀ g ∈ outer, g.Honest result) ∧
      ∀ dead ∈ outer.map Frame.unreachable, dead = false := by
  obtain ⟨hframes, houter, -⟩ := hb
  rw [h] at hframes houter
  obtain ⟨hf, hrest⟩ := List.forall_mem_cons.1 hframes
  exact ⟨hf, hrest, houter⟩

/-- A state stays honest with an honest frame in place of the innermost one. -/
theorem Honest.withFrames (hb : b.Honest result) {f : Frame} {outer : List Frame}
    (hbody : c.body = b.body) (hframes : c.frames = f :: outer) (hf : f.Honest result)
    (houter : (∀ g ∈ outer, g.Honest result) ∧ ∀ dead ∈ outer.map Frame.unreachable, dead = false) :
    c.Honest result := by
  refine ⟨?_, ?_, hbody ▸ hb.body⟩
  · rw [hframes]
    exact List.forall_mem_cons.2 ⟨hf, houter.1⟩
  · rw [hframes]
    exact houter.2

/-- Code is dead if the innermost frame is never reached any more. -/
theorem isDead_cons {f : Frame} {outer : List Frame} (h : b.frames = f :: outer) :
    b.isDead = f.unreachable := by
  rw [isDead, h]

/-- Taking a value from a frame that is reached. -/
theorem Honest.take {consumer : String} {v : Expr} (hb : b.Honest result) (hlive : b.isDead = false)
    (h : takeValue consumer b = .ok (v, c)) :
    c.Honest result ∧ v.All Orderly ∧ v.isValue = true := by
  obtain ⟨f, outer, later, value, earlier, hframes, hsplit, htaken⟩ := takeValue_ok h
  obtain ⟨hf, houter⟩ := hb.top hframes
  rw [isDead_cons hframes] at hlive
  have hvalue := isValue_of_splitValue hsplit
  have hemitted := hf.emitted
  rw [splitValue_eq hsplit, List.forall_mem_append, List.forall_mem_cons] at hemitted
  obtain ⟨hlater, horderly, hearlier⟩ := hemitted
  unfold taken at htaken
  split at htaken
  · cases htaken
    exact ⟨hb.withFrames rfl rfl (hf.withEmitted hlive hearlier) houter, horderly, hvalue⟩
  · cases htaken
    refine ⟨hb.withFrames rfl rfl (hf.withEmitted hlive ?_) houter, ?_, hvalue⟩
    · refine List.forall_mem_append.2 ⟨hlater, List.forall_mem_cons.2 ⟨?_, hearlier⟩⟩
      exact .node (orderly_of_isSimple rfl) (List.forall_mem_singleton.2 horderly)
    · exact .node (orderly_of_isSimple rfl) (List.forall_mem_nil _)

/-- Values may be taken from an honest state, and they are orderly. -/
theorem Honest.takes {vs : List Expr} (hb : b.Honest result) (hlive : b.isDead = false)
    (h : Takes b vs c) : c.Honest result ∧ ∀ v ∈ vs, v.All Orderly := by
  induction h with
  | none => exact ⟨hb, List.forall_mem_nil _⟩
  | more before last ih =>
    obtain ⟨hc, hvs⟩ := ih
    obtain ⟨hd, hv, -⟩ := hc.take (before.isDead.trans hlive) last
    exact ⟨hd, List.forall_mem_cons.2 ⟨hv, hvs⟩⟩

/-- A node emitted into a frame that is reached. -/
theorem Honest.push {e : Expr} (hb : b.Honest result) (hlive : b.isDead = false)
    (he : e.All Orderly) (h : push e b = .ok ((), c)) :
    c.Honest result ∧ ∃ f outer, c.frames = f :: outer ∧ f.emitted.head? = some e := by
  obtain ⟨f, outer, hframes, rfl⟩ := modifyTop_ok h
  obtain ⟨hf, houter⟩ := hb.top hframes
  rw [isDead_cons hframes] at hlive
  refine ⟨hb.withFrames rfl rfl
    ⟨hf.result, fun hdead => ?_, hf.deadArm, hf.arm, hf.held, ?_⟩ houter,
    _, _, rfl, rfl⟩
  · have hterminator : e.isTerminator = true := by simpa [hlive] using hdead
    refine lastNeverFalls_iff.2 ⟨e, by simp, ?_⟩
    cases e with
    | block | ite | loop => cases hterminator
    | _ => exact hterminator
  · exact List.forall_mem_cons.2 ⟨he, hf.emitted⟩

/-- Whether labels are marked makes no difference. -/
theorem Honest.mark (hb : b.Honest result) (depths : List Nat) : (b.mark depths).Honest result := by
  refine ⟨fun f hf => ?_, ?_, hb.body⟩
  · have hmap := marked_map (g := fun f => { f with labelUsed := false }) (fun _ => rfl) depths
      b.frames
    have hmem := List.mem_map_of_mem (f := fun f : Frame => { f with labelUsed := false }) hf
    rw [Builder.mark, hmap] at hmem
    obtain ⟨g, hg, heq⟩ := List.mem_map.1 hmem
    have hhonest := hb.frames g hg
    have hsame : { g with labelUsed := false }.Honest result :=
      ⟨hhonest.result, hhonest.dead, hhonest.deadArm, hhonest.arm, hhonest.held, hhonest.emitted⟩
    rw [heq] at hsame
    exact ⟨hsame.result, hsame.dead, hsame.deadArm, hsame.arm, hsame.held, hsame.emitted⟩
  · rw [Builder.mark, marked_map fun _ => rfl]
    exact hb.outer

/-- To mark labels makes nothing dead. -/
theorem isDead_mark (depths : List Nat) (b : Builder) : (b.mark depths).isDead = b.isDead := by
  have hmap := marked_map (g := Frame.unreachable) (fun _ => rfl) depths b.frames
  unfold isDead Builder.mark
  cases hframes : b.frames with
  | nil =>
    rw [hframes, List.map_nil, List.map_eq_nil_iff] at hmap
    simp only [hmap]
  | cons f outer =>
    rw [hframes] at hmap
    cases hmarked : Frame.marked depths (f :: outer) with
    | nil =>
      rw [hmarked] at hmap
      cases hmap
    | cons f' outer' =>
      rw [hmarked, List.map_cons, List.map_cons] at hmap
      simpa only [hmarked] using (List.cons.inj hmap).1

/-- A construct that is opened where code is live is honest. -/
theorem Honest.opened {kind : FrameKind} {ty : Ty} (hb : b.Honest result) (hlive : b.isDead = false)
    (hkind : kind = .block ∨ kind = .loop ∨
      ∃ condition, kind = .ifThen condition ∧ condition.All Orderly) :
    (b.opened kind ty).Honest result := by
  have houter : ∀ dead ∈ b.frames.map Frame.unreachable, dead = false := by
    cases hframes : b.frames with
    | nil => exact List.forall_mem_nil _
    | cons f outer =>
      rw [isDead_cons hframes] at hlive
      exact List.forall_mem_cons.2 ⟨hlive, (hb.top hframes).2.2⟩
  refine hb.withFrames rfl rfl ⟨?_, fun hdead => ?_, ?_, ?_, ?_, List.forall_mem_nil _⟩
    ⟨hb.frames, houter⟩
  · intro hfunction
    obtain rfl | rfl | ⟨condition, rfl, -⟩ := hkind <;> cases hfunction
  · cases hdead
  · intro _ _ harm
    obtain rfl | rfl | ⟨condition, rfl, -⟩ := hkind <;> cases harm
  · intro _ _ _ harm
    obtain rfl | rfl | ⟨condition, rfl, -⟩ := hkind <;> cases harm
  · obtain rfl | rfl | ⟨condition, rfl, hcondition⟩ := hkind
    · exact List.forall_mem_nil _
    · exact List.forall_mem_nil _
    · exact List.forall_mem_singleton.2 hcondition

/-- Once its result is moved last, the innermost frame concludes if it is to give one. -/
theorem Honest.resultLast (hb : b.Honest result) (h : resultLast b = .ok ((), c)) :
    c.Honest result ∧ ∀ f outer, c.frames = f :: outer →
      f.result ≠ .void → Concludes f.emitted.reverse := by
  obtain ⟨f, outer, hframes, ⟨hdead, rfl⟩ | ⟨⟨-, hlive⟩, v, c₁, hv, hpush⟩⟩ := resultLast_cases h
  · refine ⟨hb, fun f' outer' hframes' hty => ?_⟩
    obtain ⟨rfl, rfl⟩ := List.cons.inj (hframes.symm.trans hframes')
    obtain hvoid | hdead := hdead
    · exact (hty hvoid).elim
    · exact concludes_of_lastNeverFalls ((hb.top hframes).1.dead hdead)
  · rw [← isDead_cons hframes] at hlive
    obtain ⟨hc₁, horderly, hvalue⟩ := hb.take hlive hv
    have hlive₁ := (takeValue_takes hv).isDead.trans hlive
    obtain ⟨hc, f₁, outer₁, hframes₁, hlast⟩ := hc₁.push hlive₁ horderly hpush
    refine ⟨hc, fun f' outer' hframes' _ => ?_⟩
    obtain ⟨rfl, rfl⟩ := List.cons.inj (hframes₁.symm.trans hframes')
    exact ⟨v, by rw [List.getLast?_reverse, hlast]; exact rfl, .inl hvalue⟩

/-- The second arm of a conditional begins honestly: the first arm, which is put away, concludes. -/
theorem Honest.beginElse (hb : b.Honest result) (h : beginElse b = .ok ((), b')) :
    b'.Honest result := by
  obtain ⟨c, f, outer, condition, hlast, hframes, hkind, rfl⟩ := beginElse_cases h
  obtain ⟨hc, hends⟩ := hb.resultLast hlast
  obtain ⟨hf, houter⟩ := hc.top hframes
  have hheld := hf.held
  rw [hkind] at hheld
  refine hc.withFrames rfl rfl ⟨?_, ?_, ?_, ?_, ?_, List.forall_mem_nil _⟩ houter
  · intro hfunction
    cases hfunction
  · intro hdead
    cases hdead
  · intro condition' thenArm harm
    obtain ⟨-, rfl, hdead⟩ := FrameKind.ifElse.inj harm
    exact hf.dead hdead
  · intro condition' thenArm thenDead harm hty
    obtain ⟨-, rfl, -⟩ := FrameKind.ifElse.inj harm
    exact hends f outer hframes hty
  · refine List.forall_mem_cons.2 ⟨hheld condition (.head _), fun e he => ?_⟩
    exact hf.emitted e (List.mem_reverse.1 he)

/-- A construct is closed honestly: it concludes when its result comes last. -/
theorem Honest.close (hb : b.Honest result) (h : close b = .ok ((), b')) : b'.Honest result := by
  obtain ⟨c, f, outer, hlast, hframes, hfold⟩ := close_cases h
  obtain ⟨hc, hends⟩ := hb.resultLast hlast
  obtain ⟨hf, houter, hreached⟩ := hc.top hframes
  have hends := hends f outer hframes
  obtain ⟨hkind, rfl⟩ | ⟨hkind, g, rest, rfl, rfl⟩ := hfold
  · refine ⟨houter, fun dead hdead => hreached dead (List.mem_of_mem_tail hdead), ?_⟩
    rintro _ ⟨⟩
    rw [← hf.result hkind]
    exact hf.orderly_bodyOf hends
  · obtain ⟨hg, hrest⟩ := List.forall_mem_cons.1 houter
    obtain ⟨hlive, hreached⟩ := List.forall_mem_cons.1 hreached
    refine hc.withFrames rfl rfl
      ⟨hg.result, fun hdead => ?_, hg.deadArm, hg.arm, hg.held, ?_⟩ ⟨hrest, hreached⟩
    · -- The frame around was reached, so it is the finished construct that never ends.
      have hfalls := hf.neverFalls_folded (by simpa [hlive] using hdead)
      obtain ⟨last, hmem, hnever⟩ := lastNeverFalls_iff.1 hfalls
      refine lastNeverFalls_iff.2 ⟨last, ?_, hnever⟩
      rw [List.reverse_append, List.reverse_reverse, List.getLast?_append, Option.mem_def.1 hmem]
      rfl
    · rw [List.forall_mem_append]
      exact ⟨by simpa using hf.orderly_folded hends, hg.emitted⟩

/-- Every step keeps frames honest. -/
theorem Rebuilds.honest {op : Operator} (h : Rebuilds op b b') (hb : b.Honest result) :
    b'.Honest result := by
  cases h with
  | skip => exact ⟨hb.frames, hb.outer, hb.body⟩
  | emit live takes pushed simple operands _ =>
    obtain ⟨hc, hvs⟩ := hb.takes live takes
    have hclive := takes.isDead.trans live
    rw [← isDead_mark] at hclive
    refine ((hc.mark _).push hclive (.node (orderly_of_isSimple simple) ?_) pushed).1
    exact fun x hx => hvs x (operands hx)
  | leaveIf live takes pushed =>
    obtain ⟨hc, hvs⟩ := hb.takes live takes
    have hret : (Expr.ret none).All Orderly :=
      .node (orderly_of_isSimple rfl) (List.forall_mem_nil _)
    refine (hc.push (takes.isDead.trans live) (.node (orderly_ite fun hty => ?_) ?_) pushed).1
    · exact (hty rfl).elim
    · exact List.forall_mem_cons.2 ⟨hvs _ (.head _), List.forall_mem_singleton.2 hret⟩
  | enter live held => exact hb.opened live (held.imp_right .inl)
  | enterIf live takes =>
    obtain ⟨hc, hvs⟩ := hb.takes live takes
    exact hc.opened (takes.isDead.trans live) (.inr (.inr ⟨_, rfl, hvs _ (.head _)⟩))
  | pass passed => exact hb.beginElse passed
  | leave closed => exact hb.close closed

/-- A reconstruction begins honestly. -/
theorem start_honest (locals : List Ty) (result : Ty) : (start locals result).Honest result := by
  refine ⟨List.forall_mem_singleton.2 ⟨fun _ => rfl, ?_, ?_, ?_, ?_, ?_⟩, ?_, ?_⟩
  · intro hdead
    cases hdead
  · intro _ _ harm
    cases harm
  · intro _ _ _ harm
    cases harm
  · exact List.forall_mem_nil _
  · exact List.forall_mem_nil _
  · exact List.forall_mem_nil _
  · intro e he
    cases he

end

end Builder

namespace Expr

variable {scope : Scope} {params locals ls : List Ty} {result : Ty} {ops : List Operator}
  {body : Expr}

/-- An accepted body is orderly, and concludes if the function has a result. -/
theorem ofOperators_orderly (h : ofOperators scope params locals result ops = .ok (ls, body)) :
    (result ≠ .void → Concludes body.sequenced) ∧ body.All Orderly := by
  obtain ⟨b, hrun, hbody, -⟩ := ofOperators_ok h
  have hhonest : b.Honest result := Builder.rebuildAll_invariant
    (fun _ _ _ _ hstep => hstep.honest) hrun (Builder.start_honest _ _)
  exact hhonest.body body hbody

/-- In an accepted body every list of nodes that stands for a construct with a result ends in a
value or in a node after which control never goes on: the body itself, the children of a block, the
body of a loop, and the arms of a conditional. -/
theorem ofOperators_concludes (h : ofOperators scope params locals result ops = .ok (ls, body)) :
    (result ≠ .void → Concludes body.sequenced) ∧
      ∀ e ∈ body.nodes, ∀ es ∈ e.typedLists, Concludes es := by
  obtain ⟨hbody, hall⟩ := ofOperators_orderly h
  exact ⟨hbody, all_iff.1 hall⟩

/-- A loop that is restarted by one arm of the conditional in it, where the other arm traps. -/
theorem ofOperators_concludes_loop :
    let arms : Expr := .ite (.localGet 0 .i32) .unreachable (some (.br ⟨1⟩ none none)) .i32
    ofOperators ⟨[], [], [], []⟩ [.i32] [] .i32
        [.loop (.value .i32), .localGet 0, .ifThen (.value .i32), .unreachable, .elseArm, .br 1,
          .finish, .finish, .finish] =
      .ok ([], .loop (some ⟨1⟩) arms .i32) ∧
    Concludes [.loop (some ⟨1⟩) arms .i32] ∧ Concludes [arms] ∧ Concludes [.unreachable] ∧
      Concludes [.br ⟨1⟩ none none] := by
  intro arms
  have haccepted : ofOperators ⟨[], [], [], []⟩ [.i32] [] .i32
      [.loop (.value .i32), .localGet 0, .ifThen (.value .i32), .unreachable, .elseArm, .br 1,
        .finish, .finish, .finish] = .ok ([], .loop (some ⟨1⟩) arms .i32) := rfl
  obtain ⟨hbody, hlists⟩ := ofOperators_concludes haccepted
  have harms : arms ∈ (Expr.loop (some ⟨1⟩) arms .i32).nodes := by
    rw [nodes_eq]
    simp [children, nodes_eq arms]
  have hloop : Expr.loop (some ⟨1⟩) arms .i32 ∈ (Expr.loop (some ⟨1⟩) arms .i32).nodes := by
    rw [nodes_eq]
    simp
  refine ⟨haccepted, hbody (by decide), hlists _ hloop [arms] ?_, hlists arms harms _ ?_,
    hlists arms harms _ ?_⟩
  · exact List.mem_singleton.2 rfl
  · exact .head _
  · exact .tail _ (.head _)

/-! ## Running to the end -/

/-- In some surroundings the nodes can be run one after the other to the end of the last. -/
def Completes (es : List Expr) : Prop :=
  ∃ (h : Host) (resolve : NameId → Nat) (bound : Nat) (w w' : World h) (vs : List (Option Value)),
    runAll h resolve bound es w = (.ok vs, w')

section
variable {h : Host} {resolve : NameId → Nat} {bound : Nat} {w w' : World h}

/-- Nodes that are run to the end are run in two goes. -/
theorem runAll_append_ok {xs ys : List Expr} {vs : List (Option Value)}
    (hes : runAll h resolve bound (xs ++ ys) w = (.ok vs, w')) :
    ∃ us w₁ us', runAll h resolve bound xs w = (.ok us, w₁) ∧
      runAll h resolve bound ys w₁ = (.ok us', w') := by
  induction xs generalizing w vs with
  | nil => exact ⟨[], w, vs, rfl, hes⟩
  | cons x xs ih =>
    obtain ⟨v, w₁, vs', hx, hrest, -⟩ := runAll_cons_ok hes
    obtain ⟨us, w₂, us', hxs, hys⟩ := ih hrest
    exact ⟨v :: us, w₂, us', runAll_cons hx hxs, hys⟩

/-- A terminator does not come to an end. -/
theorem eval_terminator {e : Expr} (he : e.isTerminator = true) {v : Option Value} :
    eval h resolve bound e w ≠ (.ok v, w') := by
  have hsimple : e.isSimple = true := by cases e <;> first | rfl | cases he
  rw [eval_simple hsimple]
  intro hrun
  obtain ⟨vs, w₁, -, hact⟩ := bind_ok hrun
  cases e with
  | ret value => cases hact
  | unreachable => cases vs <;> cases hact
  | br label condition value =>
    cases condition with
    | none => cases hact
    | some condition => cases he
  | switch labels fallback condition value =>
    obtain ⟨c, w₂, -, hjump⟩ := bind_ok hact
    cases hlabel : labels[c.asIndex]?.or fallback <;> rw [hlabel] at hjump <;> cases hjump
  | _ => cases he

end

/-- If a list can be run to its end, so can its last part. -/
theorem Completes.right {xs ys : List Expr} (h : Completes (xs ++ ys)) : Completes ys := by
  obtain ⟨h, resolve, bound, w, w', vs, hrun⟩ := h
  obtain ⟨us, w₁, us', -, hys⟩ := runAll_append_ok hrun
  exact ⟨h, resolve, bound, w₁, w', us', hys⟩

/-- A terminator cannot be run to its end. -/
theorem not_completes_terminator {e : Expr} (he : e.isTerminator = true) : ¬Completes [e] := by
  rintro ⟨h, resolve, bound, w, w', vs, hrun⟩
  obtain ⟨v, w₁, vs', heval, -⟩ := runAll_cons_ok hrun
  exact eval_terminator he heval

/-- A loop that can be run to its end has a body that can. -/
theorem Completes.loop {label : Option Label} {body : Expr} {ty : Ty}
    (h : Completes [.loop label body ty]) : Completes [body] := by
  obtain ⟨h, resolve, bound, w, w', vs, hrun⟩ := h
  obtain ⟨v, w₁, vs', heval, -⟩ := runAll_cons_ok hrun
  obtain ⟨o, w₂, hloop, -⟩ := bind_ok heval
  obtain ⟨w₃, -, hround⟩ := looping_ok hloop
  exact ⟨h, resolve, bound, w₃, w₂, [o], runAll_single hround⟩

/-- A conditional that can be run to its end has an arm that can. -/
theorem Completes.ite {condition ifTrue ifFalse : Expr} {ty : Ty}
    (h : Completes [.ite condition ifTrue (some ifFalse) ty]) :
    Completes [ifTrue] ∨ Completes [ifFalse] := by
  obtain ⟨h, resolve, bound, w, w', vs, hrun⟩ := h
  obtain ⟨v, w₁, vs', heval, -⟩ := runAll_cons_ok hrun
  obtain ⟨c, w₂, -, harms⟩ := bind_ok heval
  obtain ⟨o, w₃, harm, -⟩ := bind_ok harms
  split at harm
  · exact .inl ⟨h, resolve, bound, w₂, w₃, [o], runAll_single harm⟩
  · exact .inr ⟨h, resolve, bound, w₂, w₃, [o], runAll_single harm⟩

/-- An unlabeled block that can be run to its end has nodes that can. -/
theorem Completes.block {es : List Expr} {ty : Ty} (h : Completes [.block none es ty]) :
    Completes es := by
  obtain ⟨h, resolve, bound, w, w', vs, hrun⟩ := h
  obtain ⟨v, w₁, vs', heval, -⟩ := runAll_cons_ok hrun
  obtain ⟨o, w₂, hcatch, -⟩ := bind_ok heval
  rcases catching_ok hcatch with hrun | ⟨target, hlabel, -⟩
  · obtain ⟨us, hus⟩ := statements_ok hrun
    exact ⟨h, resolve, bound, w, w₂, us, hus⟩
  · cases hlabel

/-- A list cannot be run to its end if its last node cannot. -/
theorem not_completes_last {es : List Expr} {last : Expr} (hlast : last ∈ es.getLast?)
    (h : ¬Completes [last]) : ¬Completes es := by
  obtain ⟨before, rfl⟩ := List.getLast?_eq_some_iff.1 (Option.mem_def.1 hlast)
  exact fun hcompletes => h hcompletes.right

/-- A node after which control never goes on by its shape does not complete. -/
theorem not_completes_of_neverFalls {e : Expr} (he : e.neverFalls = true) : ¬Completes [e] := by
  induction e using induct with
  | h e ih =>
    cases e with
    | loop label body ty => exact fun h => ih body (.head _) he h.loop
    | ite condition ifTrue ifFalse ty =>
      obtain ⟨htrue, hfalse⟩ := Bool.and_eq_true_iff.1 he
      cases ifFalse with
      | none => cases hfalse
      | some ifFalse =>
        intro h
        rcases h.ite with h | h
        · exact ih ifTrue (by simp [children]) htrue h
        · exact ih ifFalse (by simp [children]) hfalse h
    | block label es ty =>
      cases label with
      | some label => cases he
      | none =>
        obtain ⟨last, hlast, hfalls⟩ := lastNeverFalls_iff.1 he
        have hmem : last ∈ es := List.mem_of_getLast? hlast
        exact fun h => not_completes_last hlast (ih last hmem hfalls) h.block
    | _ => exact not_completes_terminator he

/-! ## Ending in a value -/

/-- The last node is a value. -/
def EndsInValue (es : List Expr) : Prop :=
  ∃ last ∈ es.getLast?, last.isValue = true

/-- A single node ends in a value if it is one. -/
theorem endsInValue_singleton {e : Expr} : EndsInValue [e] ↔ e.isValue = true := by
  simp [EndsInValue]

/-- The nodes end in a value if they are to give one and their end is reached. -/
def Ends (ty : Ty) (es : List Expr) : Prop :=
  ty ≠ .void → Completes es → EndsInValue es

/-- The statements at the top of a body: those of its block, if it is one. -/
def topLevel : Expr → List Expr
  | .block _ children _ => children
  | .nop => []
  | body => [body]

/-- Nodes that conclude end in a value if their end is reached. -/
theorem Concludes.endsInValue {es : List Expr} (h : Concludes es) (hcompletes : Completes es) :
    EndsInValue es := by
  obtain ⟨last, hlast, hvalue | hfalls⟩ := h
  · exact ⟨last, hlast, hvalue⟩
  · exact (not_completes_last hlast (not_completes_of_neverFalls hfalls) hcompletes).elim

/-- If a body concludes, so do its statements. -/
theorem concludes_topLevel (hall : body.Orderly) (h : Concludes body.sequenced) :
    Concludes body.topLevel := by
  cases body with
  | block label children ty =>
    cases label with
    | none => exact h
    | some label =>
      rcases concludes_singleton.1 h with hvalue | hfalls
      · have hty : ty ≠ .void := by simpa [isValue, Expr.ty] using hvalue
        exact hall children (by simp [typedLists, Expr.ty, hty])
      · cases hfalls
  | nop =>
    rcases concludes_singleton.1 h with hvalue | hfalls
    · cases hvalue
    · cases hfalls
  | _ => exact h

/-- The statements of an accepted body end in a value if the body is to give one, unless their end
is never reached. -/
theorem ofOperators_endsInValue (h : ofOperators scope params locals result ops = .ok (ls, body)) :
    Ends result body.topLevel := by
  obtain ⟨hbody, hall⟩ := ofOperators_orderly h
  exact fun hty => (concludes_topLevel hall.own (hbody hty)).endsInValue

end Expr

end WasmLift
