import WasmLift.Proofs.Expansion.Rebuilding

/-!
# Accepted bodies

What holds of every body that is accepted, whether or not its operators are valid: it touches only
the locals that are declared with it, scratch locals included (`Expr.ofOperators_below`), and except
for control and scratch locals its nodes are those that the live operators are rebuilt as, in the
same order (`Builder.rebuildAll_gathered`). So the functions it calls are those that the live
operators call (`Expr.ofOperators_calls`).
-/

namespace WasmLift

/-! ## Folding -/

/-- What nodes contribute depends on labels alone for blocks and loops, and only on a label that is
there; conditionals and `nop` contribute nothing. -/
structure ByLabel {α : Type} (g : Expr → List α) (k : Option Label → List α) : Prop where
  none : k none = []
  block : ∀ label children ty, g (.block label children ty) = k label
  loop : ∀ label body ty, g (.loop label body ty) = k label
  ite : ∀ condition ifTrue ifFalse ty, g (.ite condition ifTrue ifFalse ty) = []
  nop : g .nop = []

/-- The labels that a node bears depend on its label alone. -/
theorem byLabel_labels : ByLabel (·.label?.toList) Option.toList :=
  ⟨rfl, fun _ _ _ => rfl, fun _ _ _ => rfl, fun _ _ _ _ => rfl, rfl⟩

/-- The branches that a node takes by itself do not depend on its label. -/
theorem byLabel_jumps : ByLabel Expr.branchTargets fun _ => [] :=
  ⟨rfl, fun _ _ _ => rfl, fun _ _ _ => rfl, fun _ _ _ _ => rfl, rfl⟩

section
variable {α : Type} {g : Expr → List α} {k : Option Label → List α}

/-- A block contributes what its nodes do, and then for its label. -/
theorem ByLabel.gather_block (hg : ByLabel g k) (label : Option Label) (es : List Expr) (ty : Ty) :
    (Expr.block label es ty).gather g = es.flatMap (Expr.gather g) ++ k label := by
  rw [Expr.gather_eq, hg.block]
  rfl

/-- A loop contributes what its body does, and then for its label. -/
theorem ByLabel.gather_loop (hg : ByLabel g k) (label : Option Label) (body : Expr) (ty : Ty) :
    (Expr.loop label body ty).gather g = body.gather g ++ k label := by
  rw [Expr.gather_eq, hg.loop]
  simp [Expr.children]

/-- A conditional contributes what its condition and its arms do. -/
theorem ByLabel.gather_ite (hg : ByLabel g k) (condition ifTrue : Expr) (ifFalse : Option Expr)
    (ty : Ty) :
    (Expr.ite condition ifTrue ifFalse ty).gather g =
      (condition :: ifTrue :: ifFalse.toList).flatMap (Expr.gather g) := by
  rw [Expr.gather_eq, hg.ite, List.append_nil]
  rfl

/-- A sequence contributes what its nodes do. -/
theorem ByLabel.gather_sequence (hg : ByLabel g k) (es : List Expr) (ty : Ty) :
    (Expr.sequence es ty).gather g = es.flatMap (Expr.gather g) := by
  match es with
  | [] => simp [Expr.sequence, Expr.gather_eq, Expr.children, hg.nop]
  | [e] => simp [Expr.sequence]
  | e :: e' :: rest => simp [Expr.sequence, hg.gather_block, hg.none]

/-- The node of a conditional contributes what its parts do, and then for the label of its block. -/
theorem ByLabel.gather_conditional (hg : ByLabel g k) (label : Option Label)
    (condition ifTrue : Expr) (ifFalse : Option Expr) (ty : Ty) :
    (Builder.conditional label condition ifTrue ifFalse ty).gather g =
      (condition :: ifTrue :: ifFalse.toList).flatMap (Expr.gather g) ++ k label := by
  cases label <;> simp [Builder.conditional, hg.gather_block, hg.gather_ite, hg.none]

/-- A finished construct contributes what its frame did, and its label. -/
theorem ByLabel.gather_folded (hg : ByLabel g k) {f : Frame} (hkind : f.kind ≠ .function) :
    f.folded.flatMap (Expr.gather g) = f.content.flatMap (Expr.gather g) ++ k f.usedLabel := by
  unfold Frame.folded Frame.content
  cases hk : f.kind with
  | function => exact (hkind hk).elim
  | block => cases hused : f.usedLabel <;> simp [FrameKind.held, hg.gather_block, hg.none]
  | loop => simp [FrameKind.held, hg.gather_loop, hg.gather_sequence]
  | ifThen condition => simp [FrameKind.held, hg.gather_conditional, hg.gather_sequence]
  | ifElse condition thenArm thenDead =>
    simp [FrameKind.held, hg.gather_conditional, hg.gather_sequence]

/-- The finished body contributes what stood in the function's frame, and then for its label. -/
theorem ByLabel.gather_bodyOf (hg : ByLabel g k) {f : Frame} (hkind : f.kind = .function) :
    (Builder.bodyOf f).gather g = f.content.flatMap (Expr.gather g) ++ k f.usedLabel := by
  unfold Builder.bodyOf Frame.content
  cases hused : f.usedLabel <;>
    simp [hkind, FrameKind.held, hg.gather_block, hg.none, hg.gather_sequence]

end

namespace Builder

/-! ## Standing nodes -/

/-- All nodes that stand in open frames, in order. -/
def standing (frames : List Frame) : List Expr :=
  (frames.map Frame.content).reverse.flatten

/-- Nothing stands without a frame. -/
@[simp] theorem standing_nil : standing [] = [] := rfl

/-- What stands in the innermost frame comes last. -/
@[simp] theorem standing_cons (f : Frame) (outer : List Frame) :
    standing (f :: outer) = standing outer ++ f.content := by
  simp [standing]

/-- To mark frames leaves what stands in them. -/
theorem standing_marked (depths : List Nat) (frames : List Frame) :
    standing (Frame.marked depths frames) = standing frames := by
  rw [standing, marked_map (fun _ => rfl), standing]

/-- What a move does to the locals and to the nodes that stand, with the nodes that it makes. -/
inductive Change (locals : List Ty) : List Expr → List Expr → List Ty → List Expr → Prop where
  | same {es : List Expr} : Change locals es [] locals es
  | spill {before between after : List Expr} {value : Expr} :
      Change locals (before ++ value :: between ++ after) [] (locals ++ [value.ty])
        (before ++ .localSet locals.length value false .void :: between ++
          .localGet locals.length value.ty :: after)
  | make {before : List Expr} {e : Expr} (label : e.label? = none)
      (own : ∀ i, e.ownLocal? = some i → i < locals.length) :
      Change locals (before ++ e.children) [e] locals (before ++ [e])
  | fold {before : List Expr} {f : Frame} (kind : f.kind ≠ .function) :
      Change locals (before ++ f.content) [] locals (before ++ f.folded)

/-- A move changes the standing nodes in one of four ways, or finishes the function. -/
theorem Move.change {b c : Builder} {es : List Expr} (h : Move b es c) :
    (Change b.locals (standing b.frames) es c.locals (standing c.frames) ∧
        c.body = b.body) ∨
      ∃ f outer, b.frames = f :: outer ∧ f.kind = .function ∧ es = [] ∧
        c = { b with frames := outer, body := some (bodyOf f) } := by
  cases h with
  | @spill f outer value before between after frames emitted =>
    have hspill := @Change.spill b.locals (standing outer ++ f.kind.held ++ before.reverse)
      between.reverse after.reverse value
    exact .inl ⟨by simpa [frames, Frame.content, emitted] using hspill, rfl⟩
  | @make f outer e before depths dead frames emitted label own targets =>
    have hmake := @Change.make b.locals (standing outer ++ f.kind.held ++ before.reverse) e
      label own
    exact .inl ⟨by simpa [frames, Frame.content, emitted, standing_marked] using hmake, rfl⟩
  | flag frames => exact .inl ⟨by simpa [frames, Frame.content] using .same, rfl⟩
  | skip => exact .inl ⟨.same, rfl⟩
  | enter kind =>
    refine .inl ⟨?_, rfl⟩
    obtain rfl | rfl := kind <;>
      simpa [opened, Frame.content, FrameKind.held] using .same
  | enterIf frames emitted =>
    refine .inl ⟨?_, rfl⟩
    simpa [opened, frames, Frame.content, FrameKind.held, emitted] using .same
  | pass frames kind =>
    exact .inl ⟨by simpa [frames, Frame.content, FrameKind.held, kind] using .same, rfl⟩
  | @leave f g outer frames kind =>
    have hfold := @Change.fold b.locals (standing (g :: outer)) f kind
    exact .inl ⟨by simpa [frames, Frame.content] using hfold, rfl⟩
  | finish frames kind => exact .inr ⟨_, _, frames, kind, rfl, rfl⟩

/-! ## Locals -/

/-- The local that a node names by itself does not depend on its label. -/
theorem byLabel_locals : ByLabel (·.ownLocal?.toList) fun _ => [] :=
  ⟨rfl, fun _ _ _ => rfl, fun _ _ _ => rfl, fun _ _ _ _ => rfl, rfl⟩

/-- An assignment contributes after its value. -/
theorem gather_set {α : Type} (g : Expr → List α) (index : Nat) (value : Expr) (tee : Bool)
    (ty : Ty) :
    (Expr.localSet index value tee ty).gather g =
      value.gather g ++ g (.localSet index value tee ty) := by
  simp [Expr.gather_eq _ (.localSet ..), Expr.children]

/-- A use of a local contributes by itself. -/
theorem gather_get {α : Type} (g : Expr → List α) (index : Nat) (ty : Ty) :
    (Expr.localGet index ty).gather g = g (.localGet index ty) := by
  simp [Expr.gather_eq _ (.localGet ..), Expr.children]

/-- A finished construct touches the locals that its nodes touch. -/
theorem touched_folded {f : Frame} (hkind : f.kind ≠ .function) :
    f.folded.flatMap Expr.touched = f.content.flatMap Expr.touched :=
  (byLabel_locals.gather_folded hkind).trans (List.append_nil _)

/-- A move adds locals only, and touches none that are not there. -/
theorem Change.touched {locals locals' : List Ty} {before made after : List Expr}
    (h : Change locals before made locals' after)
    (hb : ∀ i ∈ before.flatMap Expr.touched, i < locals.length) :
    locals.length ≤ locals'.length ∧ ∀ i ∈ after.flatMap Expr.touched, i < locals'.length := by
  cases h with
  | same => exact ⟨Nat.le_refl _, hb⟩
  | @spill earlier between later value =>
    rw [List.length_append, List.length_singleton]
    refine ⟨Nat.le_succ _, fun i hi => ?_⟩
    have hi : i ∈ (earlier ++ value :: between ++ later).flatMap Expr.touched ∨
        i = locals.length := by
      simp only [List.flatMap_append, List.flatMap_cons, Expr.touched, gather_set, gather_get,
        Expr.ownLocal?, List.mem_append] at hi ⊢
      grind
    rcases hi with hi | rfl
    · exact Nat.lt_succ_of_lt (hb i hi)
    · exact Nat.lt_succ_self _
  | @make earlier e _ own =>
    refine ⟨Nat.le_refl _, fun i hi => ?_⟩
    rw [List.flatMap_append, List.mem_append] at hi
    rcases hi with hi | hi
    · exact hb i (by rw [List.flatMap_append]; exact List.mem_append_left _ hi)
    · rw [List.flatMap_singleton, Expr.touched, Expr.gather_eq, List.mem_append] at hi
      rcases hi with hi | hi
      · exact hb i (by rw [List.flatMap_append]; exact List.mem_append_right _ hi)
      · exact own i (Option.mem_toList.1 hi)
  | fold kind =>
    refine ⟨Nat.le_refl _, fun i hi => hb i ?_⟩
    rwa [List.flatMap_append, touched_folded kind, ← List.flatMap_append] at hi

/-- All nodes touch only the locals there are. -/
structure Declared (b : Builder) : Prop where
  standing : ∀ i ∈ (standing b.frames).flatMap Expr.touched, i < b.locals.length
  body : ∀ e, b.body = some e → ∀ i ∈ e.touched, i < b.locals.length

/-- A move keeps all nodes to the locals there are. -/
theorem Move.declared {b c : Builder} {es : List Expr} (h : Move b es c) (hb : Declared b) :
    Declared c := by
  rcases h.change with ⟨hchange, hbody⟩ | ⟨f, outer, hframes, hkind, -, rfl⟩
  · obtain ⟨hle, hstanding⟩ := hchange.touched hb.standing
    exact ⟨hstanding, fun e he i hi => Nat.lt_of_lt_of_le (hb.body e (hbody ▸ he) i hi) hle⟩
  · have hstanding := hb.standing
    rw [hframes, standing_cons, List.flatMap_append] at hstanding
    refine ⟨fun i hi => hstanding i (List.mem_append_left _ hi), ?_⟩
    rintro _ ⟨⟩ i hi
    rw [Expr.touched, byLabel_locals.gather_bodyOf hkind, List.append_nil] at hi
    exact hstanding i (List.mem_append_right _ hi)

/-- At the start no node stands that could touch a local. -/
theorem start_declared (locals : List Ty) (result : Ty) : Declared (start locals result) :=
  ⟨by simp [start, Frame.content, FrameKind.held], nofun⟩

end Builder

/-- An accepted body touches only the locals that are declared with it. -/
theorem Expr.ofOperators_below {scope : Scope} {params locals ls : List Ty} {result : Ty}
    {ops : List Operator} {body : Expr}
    (h : ofOperators scope params locals result ops = .ok (ls, body)) :
    body.Below (params.length + ls.length) := by
  obtain ⟨b, hrun, hbody, rfl⟩ := ofOperators_ok h
  obtain ⟨es, hmoves, -⟩ := Builder.rebuildAll_moves hrun
  have hdeclared := hmoves.keep Builder.Move.declared (Builder.start_declared _ _)
  have hle := hmoves.locals_le
  have hlength : params.length + (b.locals.drop params.length).length = b.locals.length := by
    simp [Builder.start] at hle ⊢
    omega
  rw [below_iff, hlength]
  exact hdeclared.body body hbody

namespace Builder

/-! ## The function's own frame -/

/-- The outermost frame, and only it, is the function's own, until the body is finished. -/
structure Founded (b : Builder) : Prop where
  outermost : (b.frames.map Frame.kind).Pairwise fun inner _ => inner ≠ .function
  unfinished : b.body = none → (b.frames.map Frame.kind).getLast? = some .function
  finished : b.body.isSome → ∀ kind ∈ b.frames.map Frame.kind, kind ≠ .function

/-- A construct other than the function can be opened in, or put in place of one in, any frames. -/
theorem Founded.cons {b c : Builder} {kind : FrameKind} {kinds : List FrameKind}
    (hb : Founded b) (hkinds : kinds <:+ b.frames.map Frame.kind)
    (hc : c.frames.map Frame.kind = kind :: kinds) (hbody : c.body = b.body)
    (hkind : kind ≠ .function) (hlast : b.body = none → kinds ≠ []) : Founded c := by
  obtain ⟨houtermost, hunfinished, hfinished⟩ := hb
  obtain ⟨inner, hinner⟩ := hkinds
  rw [← hinner] at houtermost hunfinished hfinished
  refine ⟨?_, fun hnone => ?_, fun hsome => ?_⟩
  · rw [hc]
    exact List.pairwise_cons.2 ⟨fun _ _ => hkind, (List.pairwise_append.1 houtermost).2.1⟩
  · rw [hbody] at hnone
    have hsame := hunfinished hnone
    rw [List.getLast?_append_of_ne_nil _ (hlast hnone)] at hsame
    rw [hc, ← List.singleton_append, List.getLast?_append_of_ne_nil _ (hlast hnone), hsame]
  · rw [hc]
    have hrest := (List.forall_mem_append.1 (hfinished (hbody ▸ hsome))).2
    exact List.forall_mem_cons.2 ⟨hkind, hrest⟩

/-- A move keeps the function's own frame the outermost one. -/
theorem Move.founded {b c : Builder} {es : List Expr} (h : Move b es c) (hb : Founded b) :
    Founded c := by
  have same (hkinds : c.frames.map Frame.kind = b.frames.map Frame.kind)
      (hbody : c.body = b.body) : Founded c := by
    constructor
    · rw [hkinds]
      exact hb.outermost
    · rw [hkinds, hbody]
      exact hb.unfinished
    · rw [hkinds, hbody]
      exact hb.finished
  cases h with
  | spill frames _ | flag frames => exact same (by simp [frames]) rfl
  | make frames => exact same (by simp [frames, marked_map (g := Frame.kind) fun _ => rfl]) rfl
  | skip => exact same rfl rfl
  | enter kind =>
    refine hb.cons (List.suffix_refl _) rfl rfl (fun hfunction => ?_) fun hnone hnil => ?_
    · rcases kind with rfl | rfl <;> cases hfunction
    · have hlast := hb.unfinished hnone
      rw [hnil] at hlast
      cases hlast
  | @enterIf f outer condition before result frames =>
    have hkinds : (f.kind :: outer.map Frame.kind) <:+ b.frames.map Frame.kind := by simp [frames]
    refine hb.cons hkinds rfl rfl (fun hfunction => ?_) fun _ hnil => ?_
    · cases hfunction
    · cases hnil
  | @pass f outer condition frames kind =>
    have hkinds : outer.map Frame.kind <:+ b.frames.map Frame.kind := by simp [frames]
    refine hb.cons hkinds rfl rfl (fun hfunction => ?_) fun hnone hnil => ?_
    · cases hfunction
    · have hlast := hb.unfinished hnone
      rw [frames, List.map_cons, hnil, kind] at hlast
      cases hlast
  | @leave f g outer frames kind =>
    obtain ⟨houtermost, hunfinished, hfinished⟩ := hb
    simp only [frames, List.map_cons] at houtermost hunfinished hfinished
    refine ⟨houtermost.tail, fun hnone => ?_, fun hsome => ?_⟩
    · exact (List.getLast?_cons_cons ..).symm.trans (hunfinished hnone)
    · exact (List.forall_mem_cons.1 (hfinished hsome)).2
  | finish frames kind =>
    -- Only the outermost frame is the function's own, so no frame is left.
    have houtermost := hb.outermost
    simp only [frames, List.map_cons, List.pairwise_cons] at houtermost
    refine ⟨houtermost.2, fun hnone => ?_, fun _ other hother => ?_⟩
    · cases hnone
    · exact (houtermost.1 other hother kind).elim

/-- At the start there is the function's own frame only. -/
theorem start_founded (locals : List Ty) (result : Ty) : Founded (start locals result) :=
  ⟨List.pairwise_singleton _ _, fun _ => rfl, fun hsome => by cases hsome⟩

/-- The function's own frame is the last to be closed. -/
theorem Founded.outer_eq_nil {b : Builder} {f : Frame} {outer : List Frame} (hb : Founded b)
    (hframes : b.frames = f :: outer) (hkind : f.kind = .function) : outer = [] := by
  have houtermost := hb.outermost
  simp only [hframes, List.map_cons, List.pairwise_cons] at houtermost
  cases outer with
  | nil => rfl
  | cons g outer => exact (houtermost.1 g.kind (by simp) hkind).elim

/-! ## What the nodes contribute -/

section
variable {α : Type} {m : Nat} {g : Expr → List α}

/-- Control contributes nothing, nor does keeping a value in a local from `m` on and reading it. -/
structure Overlooks (m : Nat) (g : Expr → List α) : Prop where
  control : ∀ e, e.isControl = true → g e = []
  set : ∀ index value, m ≤ index → g (.localSet index value false .void) = []
  get : ∀ index ty, m ≤ index → g (.localGet index ty) = []

/-- What overlooks control depends on no label. -/
theorem Overlooks.byLabel (hg : Overlooks m g) : ByLabel g fun _ => [] :=
  ⟨rfl, fun _ _ _ => hg.control _ rfl, fun _ _ _ => hg.control _ rfl,
    fun _ _ _ _ => hg.control _ rfl, hg.control _ rfl⟩

/-- What the body contributes, or the nodes that stand while it is not finished. -/
def gathered (g : Expr → List α) (b : Builder) : List α :=
  match b.body with
  | some e => e.gather g
  | none => (standing b.frames).flatMap (Expr.gather g)

/-- A change contributes what the nodes that it makes do. -/
theorem Change.gather {locals locals' : List Ty} {before made after : List Expr}
    (h : Change locals before made locals' after) (hg : Overlooks m g) (hm : m ≤ locals.length) :
    after.flatMap (Expr.gather g) = before.flatMap (Expr.gather g) ++ made.flatMap g := by
  cases h with
  | same => simp
  | spill => simp [gather_set, gather_get, hg.set _ _ hm, hg.get _ _ hm]
  | @make earlier e =>
    rw [List.flatMap_append, List.flatMap_append, List.flatMap_singleton, Expr.gather_eq,
      List.append_assoc, List.flatMap_singleton]
  | fold kind => simp [hg.byLabel.gather_folded kind]

/-- A move adds what the nodes that it makes contribute, until the body is finished. -/
theorem Move.gathered {b c : Builder} {es : List Expr} (h : Move b es c) (hg : Overlooks m g)
    (hb : Founded b) (hm : m ≤ b.locals.length) :
    c.gathered g = b.gathered g ++ if b.body.isSome then [] else es.flatMap g := by
  rcases h.change with ⟨hchange, hbody⟩ | ⟨f, outer, hframes, hkind, rfl, rfl⟩
  · rw [Builder.gathered, Builder.gathered, hbody]
    cases b.body with
    | some e => simp
    | none => simpa using hchange.gather hg hm
  · obtain rfl := hb.outer_eq_nil hframes hkind
    have hnone : b.body = none := by
      by_contra hsome
      exact hb.finished (Option.isSome_iff_ne_none.2 hsome) f.kind (by simp [hframes]) hkind
    have hbody := hg.byLabel.gather_bodyOf hkind
    simp only [Builder.gathered, hnone, hframes]
    simpa using hbody

/-- A finished body stays finished. -/
theorem Move.body_isSome {b c : Builder} {es : List Expr} (h : Move b es c)
    (hb : b.body.isSome) : c.body.isSome := by
  rcases h.change with ⟨-, hbody⟩ | ⟨f, outer, -, -, -, rfl⟩
  · rwa [hbody]
  · rfl

/-- Once the body is finished, nothing is contributed any more. -/
theorem Moves.gathered_finished {b c : Builder} {es : List Expr} (h : Moves b es c)
    (hg : Overlooks m g) (hb : Founded b) (hm : m ≤ b.locals.length) (hbody : b.body.isSome) :
    c.gathered g = b.gathered g ∧ c.body.isSome := by
  induction h with
  | refl => exact ⟨rfl, hbody⟩
  | step move _ ih =>
    have hm' := Nat.le_trans hm move.moves.locals_le
    obtain ⟨hgathered, hsome⟩ := ih (move.founded hb) hm' (move.body_isSome hbody)
    exact ⟨by simpa [hbody] using hgathered.trans (move.gathered hg hb hm), hsome⟩

/-- Moves contribute what the nodes that they make do, up to where the body is finished. -/
theorem Moves.gathered {b c : Builder} {es : List Expr} (h : Moves b es c) (hg : Overlooks m g)
    (hb : Founded b) (hm : m ≤ b.locals.length) (hbody : b.body = none) :
    ∃ made rest, es = made ++ rest ∧ c.gathered g = b.gathered g ++ made.flatMap g ∧
      (c.body = none → rest = []) := by
  induction h with
  | @refl b => exact ⟨[], [], rfl, by simp, fun _ => rfl⟩
  | @step b c d es es' move moves ih =>
    have hgathered := move.gathered hg hb hm
    have hm' := Nat.le_trans hm move.moves.locals_le
    rw [hbody] at hgathered
    cases hc : c.body with
    | none =>
      obtain ⟨made, rest, rfl, hd, hrest⟩ := ih (move.founded hb) hm' hc
      refine ⟨es ++ made, rest, by simp, ?_, hrest⟩
      simp [hd, hgathered]
    | some e =>
      have hsome : c.body.isSome := by simp [hc]
      obtain ⟨hd, hfinished⟩ := moves.gathered_finished hg (move.founded hb) hm' hsome
      refine ⟨es, es', rfl, by simp [hd, hgathered], fun hnone => ?_⟩
      simp [hnone] at hfinished

variable {scope : Scope} {b c : Builder}

/-- What an operator adds to an unfinished body: its own node, if it is a live one. -/
theorem rebuild_gathered {op : Operator} (h : rebuild scope op b = .ok ((), c))
    (hg : Overlooks m g) (hb : Founded b) (hm : m ≤ b.locals.length) (hbody : b.body = none) :
    ∃ es, Wrote scope (if b.isDead then [] else [op]) es ∧
      c.gathered g = b.gathered g ++ es.flatMap g := by
  obtain ⟨es, hmoves, hwrote⟩ := rebuild_moves h
  obtain ⟨made, rest, rfl, hgathered, hrest⟩ := hmoves.gathered hg hb hm hbody
  refine ⟨made ++ rest, hwrote, ?_⟩
  rw [hgathered, List.flatMap_append]
  by_cases hlive : b.isDead = false ∧ op.isControl = false
  · -- A live operator that is not control leaves the body unfinished.
    rw [rebuild_live hlive.1] at h
    have hnone := ((rebuildLive_translates h).body_eq hlive.2).trans hbody
    simp [hrest hnone]
  · have hcontrol := hwrote.isControl (fun op' hop' => by grind)
    have hsilent : rest.flatMap g = [] := by
      refine List.flatMap_eq_nil_iff.2 fun e he => hg.control e ?_
      exact hcontrol e (List.mem_append_right _ he)
    rw [hsilent, List.append_nil]

/-- The operators that a reconstruction translates: those it meets live, up to the end of the
body. -/
def translated (scope : Scope) : List Operator → Builder → List Operator
  | [], _ => []
  | op :: rest, b =>
    match rebuild scope op b with
    | .error _ => []
    | .ok ((), c) =>
      if b.isDead || b.body.isSome then translated scope rest c else op :: translated scope rest c

/-- A run of operators adds the nodes that the translated ones are rebuilt as, in the same order. -/
theorem rebuildAll_gathered {ops : List Operator} (h : rebuildAll scope ops b = .ok ((), c))
    (hg : Overlooks m g) (hb : Founded b) (hm : m ≤ b.locals.length) :
    ∃ es, Wrote scope (translated scope ops b) es ∧
      c.gathered g = b.gathered g ++ es.flatMap g := by
  induction ops generalizing b with
  | nil =>
    obtain ⟨-, rfl⟩ := pure_ok h
    exact ⟨[], .nil, by simp⟩
  | cons op rest ih =>
    obtain ⟨_, d, hop, hrest⟩ := seq_ok.1 h
    obtain ⟨made, hmoves, -⟩ := rebuild_moves hop
    obtain ⟨es', hwrote', hgathered'⟩ :=
      ih hrest (hmoves.keep Move.founded hb) (Nat.le_trans hm hmoves.locals_le)
    rw [translated, hop]
    cases hbody : b.body with
    | some e =>
      have hsame := (hmoves.gathered_finished hg hb hm (by simp [hbody])).1
      exact ⟨es', by simpa using hwrote', by rw [hgathered', hsame]⟩
    | none =>
      obtain ⟨es, hwrote, hgathered⟩ := rebuild_gathered hop hg hb hm hbody
      refine ⟨es ++ es', ?_, by simp [hgathered', hgathered]⟩
      cases hdead : b.isDead with
      | true => simpa [hdead] using hwrote.append hwrote'
      | false => simpa [hdead] using hwrote.append hwrote'

end

/-! ## Calls -/

/-- What a node calls overlooks control and every local. -/
theorem overlooks_calls : Overlooks 0 (·.callee?.toList) where
  control e he := by
    cases e with
    | call => cases he
    | _ => rfl
  set _ _ _ := rfl
  get _ _ _ := rfl

/-- Nodes call the functions that the operators they are made of call. -/
theorem Wrote.calls {scope : Scope} {ops : List Operator} {es : List Expr}
    (h : Wrote scope ops es) :
    (es.flatMap (·.callee?.toList)).map some =
      (ops.filterMap Operator.callee?).map (scope.funcNames[·]?) := by
  have hnodes : ∀ e : Expr, (if !e.isControl then e.callee? else none) = e.callee? := by
    intro e
    cases e <;> rfl
  have hoperators : ∀ op : Operator, (if !op.isControl then op.callee? else none) = op.callee? := by
    intro op
    cases op <;> rfl
  rw [← List.filterMap_eq_flatMap_toList, ← funext hnodes, ← funext hoperators,
    ← List.filterMap_filter, ← List.filterMap_filter]
  unfold Wrote at h
  generalize ops.filter (!·.isControl) = ops at h ⊢
  generalize es.filter (!·.isControl) = es at h ⊢
  induction h with
  | nil => rfl
  | @cons op e ops es writes _ ih =>
    have hcallee := writes.callee?
    cases ho : op.callee? <;> cases he : e.callee? <;> simp only [ho, he] at hcallee
    · simpa [ho, he] using ih
    · cases hcallee
    · cases hcallee
    · simpa [ho, he, ih] using hcallee

end Builder

/-- An accepted body calls the functions that its translated operators call, in the same order. -/
theorem Expr.ofOperators_calls {scope : Scope} {params locals ls : List Ty} {result : Ty}
    {ops : List Operator} {body : Expr}
    (h : ofOperators scope params locals result ops = .ok (ls, body)) :
    body.calls.map some = ((Builder.translated scope ops (.start (params ++ locals) result)).filterMap
      Operator.callee?).map (scope.funcNames[·]?) := by
  obtain ⟨b, hrun, hbody, -⟩ := ofOperators_ok h
  obtain ⟨es, hwrote, hcalled⟩ := Builder.rebuildAll_gathered hrun Builder.overlooks_calls
    (Builder.start_founded _ _) (Nat.zero_le _)
  rw [← hwrote.calls]
  refine congrArg _ ?_
  simpa [Expr.calls, Builder.gathered, hbody, Builder.start, Frame.content, FrameKind.held]
    using hcalled

end WasmLift
