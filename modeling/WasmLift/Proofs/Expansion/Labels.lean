import WasmLift.Proofs.Expansion.Accepted

/-!
# Labels of accepted bodies

The labels of an accepted body are pairwise distinct, every branch names a label around it, and
every label is named by a branch inside it (`Expr.ofOperators_scoped`), whether or not the operators
are valid. A frame gives its construct a label exactly if it was marked, and it was marked together
with a branch that stands in it.
-/

namespace WasmLift

namespace Expr

/-- Every branch in the tree names a label around it, or one of the given labels, and every label is
named by a branch inside its construct. -/
inductive Scoped : List Label → Expr → Prop where
  | node {env : List Label} {e : Expr} (targets : ∀ l ∈ e.branchTargets, l ∈ env)
      (named : ∀ l ∈ e.label?, l ∈ e.children.flatMap jumps)
      (children : ∀ c ∈ e.children, Scoped (e.label?.toList ++ env) c) : Scoped env e

section
variable {env env' : List Label} {e c : Expr}

/-- The branches that a scoped node takes name labels around it. -/
theorem Scoped.targets (h : e.Scoped env) : ∀ l ∈ e.branchTargets, l ∈ env := by
  cases h with | node targets _ _ => exact targets

/-- A child of a scoped node is scoped inside it. -/
theorem Scoped.child (h : e.Scoped env) (hc : c ∈ e.children) :
    c.Scoped (e.label?.toList ++ env) := by
  cases h with | node _ _ children => exact children c hc

/-- More labels around a node do no harm. -/
theorem Scoped.mono (h : e.Scoped env) (hsub : env ⊆ env') : e.Scoped env' := by
  induction h generalizing env' with
  | node targets named _ ih =>
    exact .node (fun l hl => hsub (targets l hl)) named
      fun c hc => ih c hc (List.append_subset.2
        ⟨List.subset_append_left .., fun l hl => List.mem_append_right _ (hsub hl)⟩)

/-- A block of scoped nodes is scoped, if its label is named inside. -/
theorem scoped_block {label : Option Label} {es : List Expr} {ty : Ty}
    (hnamed : ∀ l ∈ label, l ∈ es.flatMap jumps)
    (hes : ∀ e ∈ es, e.Scoped (label.toList ++ env)) : (block label es ty).Scoped env :=
  .node (List.forall_mem_nil _) hnamed hes

/-- A sequence of scoped nodes is scoped. -/
theorem scoped_sequence {es : List Expr} {ty : Ty} (hes : ∀ e ∈ es, e.Scoped env) :
    (sequence es ty).Scoped env := by
  match es with
  | [] => exact .node (List.forall_mem_nil _) (by rintro _ ⟨⟩) (List.forall_mem_nil _)
  | [e] => exact hes e (.head _)
  | e :: e' :: rest => exact scoped_block nofun hes

/-- A conditional of scoped nodes is scoped. -/
theorem scoped_ite {condition ifTrue : Expr} {ifFalse : Option Expr} {ty : Ty}
    (hes : ∀ e ∈ condition :: ifTrue :: ifFalse.toList, e.Scoped env) :
    (ite condition ifTrue ifFalse ty).Scoped env :=
  .node (List.forall_mem_nil _) (by rintro _ ⟨⟩) hes

/-- The node of a conditional is scoped with its block, if the label of that is named inside. -/
theorem scoped_conditional {label : Option Label} {condition ifTrue : Expr} {ifFalse : Option Expr}
    {ty : Ty}
    (hnamed : ∀ l ∈ label, l ∈ (condition :: ifTrue :: ifFalse.toList).flatMap jumps)
    (hes : ∀ e ∈ condition :: ifTrue :: ifFalse.toList, e.Scoped (label.toList ++ env)) :
    (Builder.conditional label condition ifTrue ifFalse ty).Scoped env := by
  cases label with
  | none => exact scoped_ite hes
  | some label =>
    refine scoped_block (fun l hl => ?_) (by simpa using scoped_ite hes)
    have hjumps := byLabel_jumps.gather_ite condition ifTrue ifFalse ty
    simpa [jumps, hjumps] using hnamed l hl

end

end Expr

/-- A sequence takes the branches that its nodes take. -/
theorem jumps_sequence (es : List Expr) (ty : Ty) :
    (Expr.sequence es ty).jumps = es.flatMap Expr.jumps :=
  byLabel_jumps.gather_sequence es ty

/-- A finished construct is scoped if what stands in its frame is. -/
theorem Frame.scoped_folded {f : Frame} {env : List Label}
    (hnamed : ∀ l ∈ f.usedLabel, l ∈ f.content.flatMap Expr.jumps)
    (hcontent : ∀ e ∈ f.content, e.Scoped (f.usedLabel.toList ++ env)) :
    ∀ e ∈ f.folded, e.Scoped env := by
  unfold Frame.folded
  unfold Frame.content at hnamed hcontent
  cases hkind : f.kind with
  | function => exact List.forall_mem_nil _
  | block =>
    simp only [hkind, FrameKind.held, List.nil_append] at hnamed hcontent
    cases hused : f.usedLabel with
    | none => simpa [hused] using hcontent
    | some label =>
      rw [hused] at hnamed hcontent
      exact List.forall_mem_singleton.2 (Expr.scoped_block hnamed hcontent)
  | loop =>
    simp only [hkind, FrameKind.held, List.nil_append] at hnamed hcontent
    refine List.forall_mem_singleton.2 (.node (List.forall_mem_nil _) (fun l hl => ?_) ?_)
    · simpa [Expr.children, jumps_sequence] using hnamed l hl
    · exact List.forall_mem_singleton.2 (Expr.scoped_sequence hcontent)
  | ifThen condition =>
    simp only [hkind, FrameKind.held, List.cons_append, List.nil_append,
      List.forall_mem_cons] at hnamed hcontent
    refine List.forall_mem_singleton.2 (Expr.scoped_conditional (fun l hl => ?_) ?_)
    · simpa [jumps_sequence] using hnamed l hl
    · simpa using ⟨hcontent.1, Expr.scoped_sequence hcontent.2⟩
  | ifElse condition thenArm thenDead =>
    simp only [hkind, FrameKind.held, List.cons_append, List.forall_mem_cons,
      List.forall_mem_append] at hnamed hcontent
    refine List.forall_mem_singleton.2 (Expr.scoped_conditional (fun l hl => ?_) ?_)
    · simpa [jumps_sequence] using hnamed l hl
    · simpa using
        ⟨hcontent.1, Expr.scoped_sequence hcontent.2.1, Expr.scoped_sequence hcontent.2.2⟩

/-- The finished body is scoped, if its nodes are inside the function's own label. -/
theorem Frame.scoped_bodyOf {f : Frame} (hkind : f.kind = .function)
    (hnamed : ∀ l ∈ f.usedLabel, l ∈ f.content.flatMap Expr.jumps)
    (hcontent : ∀ e ∈ f.content, e.Scoped f.usedLabel.toList) : (Builder.bodyOf f).Scoped [] := by
  unfold Builder.bodyOf
  simp only [Frame.content, hkind, FrameKind.held, List.nil_append] at hnamed hcontent
  cases hused : f.usedLabel with
  | none => exact Expr.scoped_sequence (by simpa [hused] using hcontent)
  | some label =>
    rw [hused] at hnamed hcontent
    exact Expr.scoped_block hnamed (by simpa using hcontent)

namespace Builder

/-! ## Marked frames -/

/-- A frame is marked if its depth is among those given. -/
theorem marked_getElem? (depths : List Nat) (frames : List Frame) (i : Nat) :
    (Frame.marked depths frames)[i]? =
      frames[i]?.map fun f => { f with labelUsed := f.labelUsed || depths.contains i } := by
  induction depths generalizing frames with
  | nil => simp [Frame.marked]
  | cons depth rest ih =>
    rw [Frame.marked, List.foldl_cons, ← Frame.marked, ih, List.getElem?_modify]
    cases frames[i]? with
    | none => rfl
    | some f =>
      by_cases hi : depth = i
      · simp [hi]
      · simp [hi, Ne.symm hi]

/-- The labels that branches may name: those of the marked frames. -/
def openLabels (frames : List Frame) : List Label :=
  frames.filterMap Frame.usedLabel

/-- No label is open without a frame. -/
@[simp] theorem openLabels_nil : openLabels [] = [] := rfl

/-- The labels of the innermost frame come first. -/
@[simp] theorem openLabels_cons (f : Frame) (outer : List Frame) :
    openLabels (f :: outer) = f.usedLabel.toList ++ openLabels outer := by
  cases hused : f.usedLabel <;> simp [openLabels, hused]

/-- A label may be named if it is that of some marked frame. -/
theorem mem_openLabels {frames : List Frame} {l : Label} :
    l ∈ openLabels frames ↔
      ∃ (i : Nat) (f : Frame), frames[i]? = some f ∧ f.labelUsed = true ∧ f.label = l := by
  rw [openLabels, List.mem_filterMap]
  simp only [Frame.usedLabel]
  constructor
  · rintro ⟨f, hf, hused⟩
    obtain ⟨i, hi⟩ := List.mem_iff_getElem?.1 hf
    split at hused
    · next hlabel => exact ⟨i, f, hi, hlabel, Option.some.inj hused⟩
    · cases hused
  · rintro ⟨i, f, hi, hused, rfl⟩
    exact ⟨f, List.mem_of_getElem? hi, by simp [hused]⟩

/-- To mark more frames opens more labels. -/
theorem openLabels_marked (depths : List Nat) (frames : List Frame) :
    openLabels frames ⊆ openLabels (Frame.marked depths frames) := by
  intro l hl
  obtain ⟨i, f, hf, hused, rfl⟩ := mem_openLabels.1 hl
  have hmarked := marked_getElem? depths frames i
  rw [hf] at hmarked
  exact mem_openLabels.2 ⟨i, _, hmarked, by simp [hused], rfl⟩

/-- The labels that a marked branch names are open. -/
theorem targets_open {depths : List Nat} {frames : List Frame} {targets : List Label}
    (h : targets.map some = depths.map fun d => frames[d]?.map Frame.label) :
    ∀ l ∈ targets, l ∈ openLabels (Frame.marked depths frames) := by
  intro l hl
  have hmem : some l ∈ depths.map fun d => frames[d]?.map Frame.label :=
    h ▸ List.mem_map_of_mem hl
  obtain ⟨d, hd, hlabel⟩ := List.mem_map.1 hmem
  obtain ⟨f, hf, rfl⟩ := Option.map_eq_some_iff.1 hlabel
  have hmarked := marked_getElem? depths frames d
  rw [hf] at hmarked
  exact mem_openLabels.2 ⟨d, _, hmarked, by simp [hd], rfl⟩

/-! ## Named labels -/

/-- A finished construct takes the branches that its nodes take. -/
theorem jumps_folded {f : Frame} (hkind : f.kind ≠ .function) :
    f.folded.flatMap Expr.jumps = f.content.flatMap Expr.jumps :=
  (byLabel_jumps.gather_folded hkind).trans (List.append_nil _)

/-- The labels that branches in the frames name. -/
def jumpsIn (frames : List Frame) : List Label :=
  (standing frames).flatMap Expr.jumps

/-- The branches of the innermost frame come last. -/
@[simp] theorem jumpsIn_cons (f : Frame) (outer : List Frame) :
    jumpsIn (f :: outer) = jumpsIn outer ++ f.content.flatMap Expr.jumps := by
  simp [jumpsIn]

/-- To mark frames makes no branch. -/
theorem jumpsIn_marked (depths : List Nat) (frames : List Frame) (n : Nat) :
    jumpsIn ((Frame.marked depths frames).take n) = jumpsIn (frames.take n) := by
  rw [jumpsIn, jumpsIn, standing, standing, List.map_take, List.map_take, marked_map fun _ => rfl]

/-- The label of a marked frame is named by a branch in the frame or further in. -/
def Named (frames : List Frame) : Prop :=
  ∀ i f, frames[i]? = some f → f.labelUsed = true → f.label ∈ jumpsIn (frames.take (i + 1))

/-- The label of the innermost frame is named in it. -/
theorem Named.own {f : Frame} {outer : List Frame} (h : Named (f :: outer)) :
    ∀ l ∈ f.usedLabel, l ∈ f.content.flatMap Expr.jumps := by
  intro l hl
  unfold Frame.usedLabel at hl
  split at hl
  · next hused =>
    cases hl
    simpa [jumpsIn] using h 0 f rfl hused
  · cases hl

/-- Labels stay named while branches are only added to the innermost frame. -/
theorem Named.head {f g : Frame} {outer : List Frame} (h : Named (f :: outer))
    (hlabel : g.label = f.label) (hused : g.labelUsed = f.labelUsed)
    (hjumps : f.content.flatMap Expr.jumps ⊆ g.content.flatMap Expr.jumps) :
    Named (g :: outer) := by
  intro i k hk hmarked
  cases i with
  | zero =>
    cases hk
    rw [hlabel]
    have := h 0 f rfl (hused ▸ hmarked)
    simp only [List.take_succ_cons, jumpsIn_cons, List.mem_append] at this ⊢
    exact this.imp_right fun hl => hjumps hl
  | succ i =>
    have := h (i + 1) k hk hmarked
    simp only [List.take_succ_cons, jumpsIn_cons, List.mem_append] at this ⊢
    exact this.imp_right fun hl => hjumps hl

/-- A construct that is opened inside others names nothing yet. -/
theorem Named.enter {frames : List Frame} {f : Frame} (h : Named frames)
    (hf : f.labelUsed = false) :
    Named (f :: frames) := by
  intro i k hk hmarked
  cases i with
  | zero =>
    cases hk
    cases hf.symm.trans hmarked
  | succ i =>
    rw [List.take_succ_cons, jumpsIn_cons]
    exact List.mem_append_left _ (h i k hk hmarked)

/-- Labels may be marked that a branch in the innermost frame names. -/
theorem Named.marked {frames : List Frame} {depths : List Nat} (h : Named frames)
    (htargets : ∀ d ∈ depths, ∀ f, frames[d]? = some f → f.label ∈ jumpsIn (frames.take 1)) :
    Named (Frame.marked depths frames) := by
  intro i k hk hmarked
  rw [jumpsIn_marked]
  rw [marked_getElem?] at hk
  obtain ⟨f, hf, rfl⟩ := Option.map_eq_some_iff.1 hk
  rcases Bool.or_eq_true_iff.1 hmarked with hused | hdepth
  · exact h i f hf hused
  · cases frames with
    | nil => simp at hf
    | cons g outer =>
      have hlabel := htargets i (by simpa using hdepth) f hf
      simp only [List.take_succ_cons, List.take_zero, jumpsIn_cons] at hlabel ⊢
      exact List.mem_append_right _ (by simpa [jumpsIn] using hlabel)

/-- A construct that is folded into the one around it takes its branches along. -/
theorem Named.leave {f g g' : Frame} {outer : List Frame} (h : Named (f :: g :: outer))
    (hlabel : g'.label = g.label) (hused : g'.labelUsed = g.labelUsed)
    (hjumps : g'.content.flatMap Expr.jumps =
      g.content.flatMap Expr.jumps ++ f.content.flatMap Expr.jumps) : Named (g' :: outer) := by
  intro i k hk hmarked
  cases i with
  | zero =>
    cases hk
    have := h 1 g rfl (hused ▸ hmarked)
    simpa [hlabel, hjumps] using this
  | succ i =>
    have := h (i + 2) k hk hmarked
    simpa [hjumps] using this

/-- A move keeps the labels of marked frames named. -/
theorem Move.named {b c : Builder} {es : List Expr} (h : Move b es c) (hfounded : Founded b)
    (hb : Named b.frames) : Named c.frames := by
  cases h with
  | @spill f outer value before between after frames emitted =>
    rw [frames] at hb
    refine hb.head rfl rfl fun l hl => ?_
    have hset : (Expr.localSet b.locals.length value false .void).jumps = value.jumps := by
      simp [Expr.jumps, Expr.gather_eq _ (.localSet ..), Expr.children, Expr.branchTargets]
    simp only [Frame.content, emitted, List.reverse_append, List.reverse_cons, List.flatMap_append,
      List.flatMap_cons, List.flatMap_nil, List.mem_append, hset] at hl ⊢
    grind
  | @make f outer e before depths dead frames emitted label own targets =>
    rw [frames] at hb targets
    have hjumps : e.jumps = e.children.flatMap Expr.jumps ++ e.branchTargets := Expr.gather_eq _ e
    refine Named.marked (hb.head rfl rfl fun l hl => ?_) fun d hd g hg => ?_
    · simp only [Frame.content, emitted, List.reverse_append, List.reverse_reverse,
        List.flatMap_append, List.mem_append, List.reverse_cons, List.flatMap_singleton,
        hjumps] at hl ⊢
      tauto
    · have hlabel : some g.label ∈ e.branchTargets.map some := by
        rw [targets]
        refine List.mem_map.2 ⟨d, hd, ?_⟩
        cases d with
        | zero =>
          cases hg
          rfl
        | succ d =>
          have hg : outer[d]? = some g := hg
          simp [hg]
      obtain ⟨l, hl, heq⟩ := List.mem_map.1 hlabel
      cases heq
      simp [Frame.content, hjumps, hl]
  | flag frames =>
    rw [frames] at hb
    exact hb.head rfl rfl fun _ hl => hl
  | skip => exact hb
  | enter kind => exact hb.enter rfl
  | @enterIf f outer condition before result frames emitted =>
    rw [frames] at hb
    intro i k hk hmarked
    cases i with
    | zero =>
      cases hk
      cases hmarked
    | succ i =>
      have hsame : ∀ n, jumpsIn ((f :: outer).take (n + 1)) =
          jumpsIn (({ kind := .ifThen condition, label := ⟨b.freshLabel⟩, result := result } ::
            { f with emitted := before } :: outer).take (n + 2)) := by
        intro n
        simp [Frame.content, FrameKind.held, emitted]
      cases i with
      | zero =>
        cases hk
        exact hsame 0 ▸ hb 0 f rfl hmarked
      | succ i => exact hsame (i + 1) ▸ hb (i + 1) k hk hmarked
  | pass frames kind =>
    rw [frames] at hb
    refine hb.head rfl rfl fun l hl => ?_
    simpa [Frame.content, FrameKind.held, kind] using hl
  | @leave f g outer frames kind =>
    rw [frames] at hb
    exact hb.leave rfl rfl (by simp [Frame.content, jumps_folded kind])
  | finish frames kind =>
    obtain rfl := hfounded.outer_eq_nil frames kind
    rintro _ _ ⟨⟩

/-! ## Scopes -/

/-- What stands in a frame names labels of the marked frames from this one outwards, besides its
own. -/
def Nested : List Frame → Prop
  | [] => True
  | f :: outer => (∀ e ∈ f.content, e.Scoped (openLabels (f :: outer))) ∧ Nested outer

/-- To mark a frame keeps what stands in frames scoped. -/
theorem Nested.modify {frames : List Frame} (h : Nested frames) (depth : Nat) :
    Nested (frames.modify depth ({ · with labelUsed := true })) := by
  induction frames generalizing depth with
  | nil => simpa using h
  | cons f outer ih =>
    obtain ⟨hf, houter⟩ := h
    have hsub := openLabels_marked [depth] (f :: outer)
    cases depth with
    | zero => exact ⟨fun e he => (hf e he).mono hsub, houter⟩
    | succ depth => exact ⟨fun e he => (hf e he).mono hsub, ih houter depth⟩

/-- To mark frames keeps what stands in frames scoped. -/
theorem Nested.marked {frames : List Frame} (h : Nested frames) (depths : List Nat) :
    Nested (Frame.marked depths frames) := by
  induction depths generalizing frames with
  | nil => exact h
  | cons depth rest ih => exact ih (h.modify depth)

/-- To assign a scoped value to a local is scoped. -/
theorem scoped_localSet {env : List Label} {index : Nat} {value : Expr} {tee : Bool} {ty : Ty}
    (h : value.Scoped env) : (Expr.localSet index value tee ty).Scoped env :=
  .node (List.forall_mem_nil _) (by rintro _ ⟨⟩) (List.forall_mem_singleton.2 h)

/-- The nodes of the innermost frame may be replaced by others that are scoped. -/
theorem Nested.head {f g : Frame} {outer : List Frame} (h : Nested (f :: outer))
    (hused : g.usedLabel = f.usedLabel)
    (hg : ∀ e ∈ g.content, e ∈ f.content ∨ e.Scoped (openLabels (f :: outer))) :
    Nested (g :: outer) := by
  refine ⟨fun e he => ?_, h.2⟩
  have hlabels : openLabels (g :: outer) = openLabels (f :: outer) := by simp [hused]
  rw [hlabels]
  exact (hg e he).elim (h.1 e) id

/-- A move keeps what stands in frames scoped. -/
theorem Move.nested {b c : Builder} {es : List Expr} (h : Move b es c) (hnamed : Named b.frames)
    (hb : Nested b.frames) : Nested c.frames := by
  cases h with
  | @spill f outer value before between after frames emitted =>
    rw [frames] at hb
    refine hb.head rfl fun e he => ?_
    have hvalue : value ∈ f.content := by simp [Frame.content, emitted]
    have hset : (Expr.localSet b.locals.length value false .void).Scoped
        (openLabels (f :: outer)) := scoped_localSet (hb.1 value hvalue)
    have hget : (Expr.localGet b.locals.length value.ty).Scoped (openLabels (f :: outer)) :=
      .node (List.forall_mem_nil _) (by rintro _ ⟨⟩) (List.forall_mem_nil _)
    simp only [Frame.content, emitted, List.mem_append, List.reverse_append, List.reverse_cons,
      List.mem_singleton, List.append_assoc] at he ⊢
    grind
  | @make f outer e before depths dead frames emitted label own targets =>
    rw [frames] at hb targets
    obtain ⟨used, outer', hmarked⟩ := marked_cons depths f outer
    have hold := hb.marked depths
    have hopen := targets_open targets
    rw [show f :: outer = { f with emitted := f.emitted, unreachable := f.unreachable } :: outer
      from rfl, hmarked] at hold hopen
    show Nested
      (Frame.marked depths ({ f with emitted := e :: before, unreachable := dead } :: outer))
    rw [hmarked]
    refine hold.head rfl fun e' he' => ?_
    simp only [Frame.content, emitted, List.mem_append, List.reverse_append, List.reverse_cons,
      List.mem_singleton, List.reverse_reverse] at he' ⊢
    rcases he' with hheld | hbefore | rfl
    · exact .inl (.inl hheld)
    · exact .inl (.inr (.inl hbefore))
    · refine .inr (.node hopen (by simp [label]) fun child hchild => ?_)
      rw [label]
      exact hold.1 child (by simp [Frame.content, emitted, hchild])
  | flag frames =>
    rw [frames] at hb
    exact hb.head rfl fun e he => .inl he
  | skip => exact hb
  | enter kind =>
    refine ⟨?_, hb⟩
    rcases kind with rfl | rfl <;> simp [Frame.content, FrameKind.held]
  | @enterIf f outer condition before result frames emitted =>
    rw [frames] at hb
    have hcondition : condition.Scoped (openLabels (f :: outer)) :=
      hb.1 condition (by simp [Frame.content, emitted])
    refine ⟨?_, hb.head rfl fun e he => .inl ?_⟩
    · simpa [Frame.content, FrameKind.held, Frame.usedLabel] using hcondition
    · simp only [Frame.content, emitted, List.mem_append, List.reverse_cons] at he ⊢
      tauto
  | pass frames kind =>
    rw [frames] at hb
    refine hb.head rfl fun e he => .inl ?_
    simpa [Frame.content, FrameKind.held, kind] using he
  | @leave f g outer frames kind =>
    rw [frames] at hb hnamed
    have hfolded : ∀ e ∈ f.folded, e.Scoped (openLabels (g :: outer)) :=
      Frame.scoped_folded hnamed.own (by simpa using hb.1)
    refine hb.2.head rfl fun e he => ?_
    simp only [Frame.content, List.mem_append, List.reverse_append, List.reverse_reverse] at he ⊢
    rcases he with hheld | hemitted | hfold
    · exact .inl (.inl hheld)
    · exact .inl (.inr hemitted)
    · exact .inr (hfolded e hfold)
  | finish frames kind =>
    rw [frames] at hb
    exact hb.2

/-! ## Distinct labels -/

/-- The labels of open frames, and those that standing nodes declare. -/
def declaredLabels (frames : List Frame) : List Label :=
  frames.map Frame.label ++ (standing frames).flatMap Expr.labels

/-- A finished construct declares the labels of its nodes and then its own, if that is used. -/
theorem labels_folded {f : Frame} (hkind : f.kind ≠ .function) :
    f.folded.flatMap Expr.labels = f.content.flatMap Expr.labels ++ f.usedLabel.toList :=
  byLabel_labels.gather_folded hkind

/-- The label of a frame goes to its construct, or away. -/
theorem usedLabel_append (f : Frame) : ∃ gone, f.usedLabel.toList ++ gone = [f.label] := by
  unfold Frame.usedLabel
  split
  · exact ⟨[], rfl⟩
  · exact ⟨[f.label], rfl⟩

/-- A move declares no new label, except for a new frame's. -/
theorem Move.declaredLabels {b c : Builder} {es : List Expr} (h : Move b es c) :
    (c.freshLabel = b.freshLabel ∧
        ∃ gone, (declaredLabels c.frames ++ gone).Perm (declaredLabels b.frames)) ∨
      (c.freshLabel = b.freshLabel + 1 ∧
        declaredLabels c.frames = ⟨b.freshLabel⟩ :: declaredLabels b.frames) := by
  cases h with
  | @spill f outer value before between after frames emitted =>
    have hset : (Expr.localSet b.locals.length value false .void).labels = value.labels := by
      simp [Expr.labels, Expr.gather_eq _ (.localSet ..), Expr.children, Expr.label?]
    have hget : (Expr.localGet b.locals.length value.ty).labels = [] := by
      simp [Expr.labels, Expr.gather_eq _ (.localGet ..), Expr.children, Expr.label?]
    refine .inl ⟨rfl, [], .of_eq ?_⟩
    simp [Builder.declaredLabels, frames, Frame.content, emitted, hset, hget]
  | @make f outer e before depths dead frames emitted label own targets =>
    have hlabels : e.labels = e.children.flatMap Expr.labels := by
      rw [Expr.labels, Expr.gather_eq, label]
      exact List.append_nil _
    refine .inl ⟨rfl, [], .of_eq ?_⟩
    simp [Builder.declaredLabels, frames, Frame.content, emitted, hlabels, standing_marked,
      marked_map (g := Frame.label) fun _ => rfl]
  | flag frames =>
    refine .inl ⟨rfl, [], .of_eq ?_⟩
    simp [Builder.declaredLabels, frames, Frame.content]
  | skip => exact .inl ⟨rfl, [], .of_eq (List.append_nil _)⟩
  | enter kind =>
    refine .inr ⟨rfl, ?_⟩
    rcases kind with rfl | rfl <;>
      simp [Builder.declaredLabels, opened, Frame.content, FrameKind.held]
  | enterIf frames emitted =>
    refine .inr ⟨rfl, ?_⟩
    simp [Builder.declaredLabels, opened, frames, Frame.content, FrameKind.held, emitted]
  | pass frames kind =>
    refine .inl ⟨rfl, [], .of_eq ?_⟩
    simp [Builder.declaredLabels, frames, Frame.content, FrameKind.held, kind]
  | @leave f g outer frames kind =>
    obtain ⟨gone, hgone⟩ := usedLabel_append f
    refine .inl ⟨rfl, gone, ?_⟩
    have hperm := List.perm_append_singleton f.label
      (Builder.declaredLabels (g :: outer) ++ f.content.flatMap Expr.labels)
    simpa [Builder.declaredLabels, frames, Frame.content, labels_folded kind, hgone] using hperm
  | @finish f outer frames kind =>
    refine .inl ⟨rfl, f.label :: f.content.flatMap Expr.labels, ?_⟩
    have hperm : List.Perm
        (Builder.declaredLabels outer ++ f.label :: f.content.flatMap Expr.labels)
        (f.label :: (Builder.declaredLabels outer ++ f.content.flatMap Expr.labels)) :=
      List.perm_middle
    simpa [Builder.declaredLabels, frames] using hperm

/-- All declared labels are distinct, and new ones are still to come. -/
structure Distinct (b : Builder) : Prop where
  nodup : (Builder.declaredLabels b.frames).Nodup
  fresh : ∀ l ∈ Builder.declaredLabels b.frames, l.id < b.freshLabel

/-- A move keeps the declared labels distinct: the only new one is fresh. -/
theorem Move.distinct {b c : Builder} {es : List Expr} (h : Move b es c) (hb : Distinct b) :
    Distinct c := by
  rcases h.declaredLabels with ⟨hfresh, gone, hperm⟩ | ⟨hfresh, hlabels⟩
  · refine ⟨(List.nodup_append.1 (hperm.nodup_iff.2 hb.nodup)).1, fun l hl => ?_⟩
    rw [hfresh]
    exact hb.fresh l (hperm.subset (List.mem_append_left _ hl))
  · refine ⟨?_, fun l hl => ?_⟩
    · rw [hlabels, List.nodup_cons]
      exact ⟨fun hl => Nat.lt_irrefl _ (hb.fresh _ hl), hb.nodup⟩
    · rw [hfresh]
      rcases List.mem_cons.1 (hlabels ▸ hl) with rfl | hl
      · exact Nat.lt_succ_self _
      · exact Nat.lt_succ_of_lt (hb.fresh l hl)

/-! ## The finished body -/

/-- The labels of a reconstruction are in order. -/
structure Labeled (b : Builder) : Prop where
  founded : Founded b
  named : Named b.frames
  nested : Nested b.frames
  distinct : Distinct b
  body : ∀ e, b.body = some e → e.Scoped [] ∧ e.labels.Nodup

/-- The labels of a reconstruction are in order at the start. -/
theorem start_labeled (locals : List Ty) (result : Ty) : Labeled (start locals result) where
  founded := start_founded locals result
  named i f hf hused := by
    cases i with
    | zero =>
      cases hf
      cases hused
    | succ i => simp [start] at hf
  nested := ⟨by simp [Frame.content, FrameKind.held], trivial⟩
  distinct := by
    constructor <;> simp [Builder.declaredLabels, start, Frame.content, FrameKind.held]
  body := nofun

/-- A move keeps the labels in order. -/
theorem Move.labeled {b c : Builder} {es : List Expr} (h : Move b es c) (hb : Labeled b) :
    Labeled c where
  founded := h.founded hb.founded
  named := h.named hb.founded hb.named
  nested := h.nested hb.named hb.nested
  distinct := h.distinct hb.distinct
  body := by
    rcases h.change with ⟨-, hbody⟩ | ⟨f, outer, hframes, hkind, -, rfl⟩
    · rw [hbody]
      exact hb.body
    · rintro _ ⟨⟩
      obtain rfl := hb.founded.outer_eq_nil hframes hkind
      obtain ⟨-, hnamed, hnested, ⟨hnodup, -⟩, -⟩ := hb
      rw [hframes] at hnamed hnested hnodup
      refine ⟨Frame.scoped_bodyOf hkind hnamed.own (by simpa using hnested.1), ?_⟩
      obtain ⟨gone, hgone⟩ := usedLabel_append f
      have hperm := List.perm_append_singleton f.label (f.content.flatMap Expr.labels)
      have hlabels : ((bodyOf f).labels ++ gone).Nodup := by
        rw [Expr.labels, byLabel_labels.gather_bodyOf hkind, List.append_assoc, hgone]
        exact hperm.nodup_iff.2 (by simpa [Builder.declaredLabels] using hnodup)
      exact (List.nodup_append.1 hlabels).1

end Builder

/-- The labels of an accepted body are pairwise distinct. Its branches name labels around them, and
each label is named inside its construct. -/
theorem Expr.ofOperators_scoped {scope : Scope} {params locals ls : List Ty} {result : Ty}
    {ops : List Operator} {body : Expr}
    (h : ofOperators scope params locals result ops = .ok (ls, body)) :
    body.Scoped [] ∧ body.labels.Nodup := by
  obtain ⟨b, hrun, hbody, rfl⟩ := ofOperators_ok h
  obtain ⟨es, hmoves, -⟩ := Builder.rebuildAll_moves hrun
  exact (hmoves.keep Builder.Move.labeled (Builder.start_labeled _ _)).body body hbody

end WasmLift
