import WasmLift.Proofs.Expansion.Labels
import WasmLift.Proofs.Listing.Completion
import WasmLift.Proofs.Listing.Scopes
import WasmLift.Proofs.Propagation.Addresses
import WasmLift.Proofs.Propagation.Steps

/-!
# Labels from a body to the page

A tree whose labels are distinct and whose branches name labels around them is written as code with
the same scopes, in any dialect that neither makes labels up nor keeps them back for another place
(`Walk.expr_scoped`). Both dialects are such: what a register holds has no label in it. So the
statements of every accepted body are printed as inside their scopes, in both dialects
(`Program.expandBody_labels`).
-/

namespace WasmLift

namespace Expr

/-- The labels of the tree are distinct from each other and from the given ones. -/
structure FreshIn (env : List Label) (e : Expr) : Prop where
  nodup : e.labels.Nodup
  fresh : ∀ l ∈ e.labels, l ∉ env

/-- The labels of a tree are those of its children and its own. -/
theorem labels_eq (e : Expr) : e.labels = e.children.flatMap labels ++ e.label?.toList :=
  gather_eq _ e

/-- The label of a fresh tree is none of those around it. -/
theorem FreshIn.label {env : List Label} {e : Expr} (h : e.FreshIn env) :
    ∀ l ∈ e.label?, l ∉ env := by
  intro l hl
  refine h.fresh l ?_
  rw [labels_eq]
  exact List.mem_append_right _ (Option.mem_toList.2 hl)

/-- A child of a fresh tree is fresh among the labels around it. -/
theorem FreshIn.child {env : List Label} {e c : Expr} (h : e.FreshIn env) (hc : c ∈ e.children) :
    c.FreshIn (e.label?.toList ++ env) := by
  obtain ⟨hnodup, hfresh⟩ := h
  rw [labels_eq, List.nodup_append] at hnodup
  obtain ⟨hchildren, -, hlabel⟩ := hnodup
  refine ⟨(List.nodup_flatMap.1 hchildren).1 c hc, fun l hl => ?_⟩
  have hin : l ∈ e.children.flatMap labels := List.mem_flatMap.2 ⟨c, hc, hl⟩
  rw [List.mem_append]
  rintro (hl' | hl')
  · exact hlabel l hin l hl' rfl
  · refine hfresh l ?_ hl'
    rw [labels_eq]
    exact List.mem_append_left _ hin

end Expr

namespace Code

variable {env : List Label}

/-- A node that is neither a scope nor a jump is scoped if its children are. -/
theorem Scoped.of_children {node : Code} (hlabel : node.label? = none)
    (htargets : node.targets = [])
    (h : ∀ c ∈ node.children, c.Scoped env) : node.Scoped env := by
  refine .node (by simp [htargets]) (by simp [hlabel]) fun c hc => ?_
  rw [hlabel]
  exact h c hc

/-- An assignment is in scope if its target and value are. -/
theorem scoped_assign {target value : Code} (htarget : target.Scoped env)
    (hvalue : value.Scoped env) : (assign target value).Scoped env :=
  .of_children rfl rfl (by simpa [children] using ⟨htarget, hvalue⟩)

/-- A binary operation is in scope if its operands are. -/
theorem scoped_binary {op : BinOp} {left right : Code} (hleft : left.Scoped env)
    (hright : right.Scoped env) : (binary op left right).Scoped env :=
  .of_children rfl rfl (by simpa [children] using ⟨hleft, hright⟩)

/-- An access is in scope if its address is. -/
theorem scoped_deref {address : Code} {arg : MemArg} {ty : Ty} (haddress : address.Scoped env) :
    (deref address arg ty).Scoped env :=
  .of_children rfl rfl (List.forall_mem_singleton.2 haddress)

/-- A node without effects has neither labels nor jumps in it. -/
theorem scoped_of_pure {node : Code} (h : node.hasEffects = false) : node.Scoped env := by
  induction node using induct with
  | h node ih =>
  cases node with
  | deref | unary | binary | select =>
    refine .of_children rfl rfl fun c hc => ih c hc ?_
    simp only [hasEffects, Bool.or_eq_false_iff] at h
    simp only [children, List.mem_cons, List.not_mem_nil, or_false] at hc
    grind
  | param | localVar | globalVar | slot | stackBase | stackAddress | stackPointer | const | nop |
    memorySize => exact .of_children rfl rfl (List.forall_mem_nil _)
  | _ => cases h

end Code

/-! ## Dialects -/

/-- The dialect puts values where they belong: it makes up no label and no jump, and what it reads
from the state has none. -/
structure Dialect.Scopes {σ : Type} (P : σ → Prop) (d : Dialect σ) : Prop where
  localGet : ∀ {env index st c st'}, P st → d.localGet index st = (.ok c, st') →
    P st' ∧ c.Scoped env
  localSet : ∀ {env index value tee st c st'}, P st → value.Scoped env →
    d.localSet index value tee st = (.ok c, st') → P st' ∧ c.Scoped env
  globalGet : ∀ {env index}, (d.globalGet index).Scoped env
  globalSet : ∀ {env index value}, value.Scoped env → (d.globalSet index value).Scoped env
  const : ∀ {env value}, (d.const value).Scoped env
  binary : ∀ {env op left right}, left.Scoped env → right.Scoped env →
    (d.binary op left right).Scoped env
  load : ∀ {env address arg ty st c st'}, P st → address.Scoped env →
    d.load address arg ty st = (.ok c, st') → P st' ∧ c.Scoped env
  store : ∀ {env address value ty arg st c st'}, P st → address.Scoped env → value.Scoped env →
    d.store address value ty arg st = (.ok c, st') → P st' ∧ c.Scoped env

namespace Walk

variable {σ : Type} {P : σ → Prop} {p : Program} {d : Dialect σ} {env : List Label} {st st' : σ}

/-- A node made of scoped codes is scoped, if it names labels around it. -/
theorem compose_scoped (hd : d.Scopes P) {e : Expr} {cs : List Code} {c : Code}
    (htargets : ∀ l ∈ e.branchTargets, l ∈ env) (hcs : ∀ c ∈ cs, c.Scoped env) (hst : P st)
    (hc : compose p d e cs st = (.ok c, st')) : P st' ∧ c.Scoped env := by
  -- The cases are those of the definition; most put the codes under a node without a label.
  unfold compose at hc
  split at hc
  case h_1 => exact hd.localGet hst hc
  case h_2 => exact hd.localSet hst (hcs _ (.head _)) hc
  case h_19 => exact hd.load hst (hcs _ (.head _)) hc
  case h_20 => exact hd.store hst (hcs _ (.head _)) (hcs _ (.tail _ (.head _))) hc
  all_goals
    cases hc
    refine ⟨hst, ?_⟩
  case h_3 => exact hd.globalGet
  case h_4 => exact hd.globalSet (hcs _ (.head _))
  case h_5 => exact .of_children rfl rfl hcs
  case h_6 =>
    refine .of_children rfl rfl (List.forall_mem_cons.2 ⟨?_, fun c hc => hcs c ?_⟩)
    · cases hlast : cs.getLast? with
      | none => exact .of_children rfl rfl (List.forall_mem_nil _)
      | some last => exact hcs last (List.mem_of_getLast? hlast)
    · exact List.dropLast_subset _ hc
  case h_7 => exact hd.const
  case h_9 => exact hd.binary (hcs _ (.head _)) (hcs _ (.tail _ (.head _)))
  case h_11 => exact hcs _ (.head _)
  case h_12 =>
    refine .of_children rfl rfl fun c hc => hcs c (List.mem_of_mem_head? ?_)
    simpa [Code.children] using hc
  case h_14 =>
    refine .node htargets (by rintro _ ⟨⟩) fun c hc => hcs c (List.mem_of_mem_head? ?_)
    simpa [Code.children] using hc
  case h_15 | h_16 | h_17 | h_18 =>
    refine .node htargets (by rintro _ ⟨⟩) fun c hc => hcs c ?_
    simp only [Code.children, Option.toList_some, Option.toList_none, List.mem_append,
      List.mem_cons, List.not_mem_nil, or_false, false_or] at hc ⊢
    tauto
  case h_13 | h_21 | h_25 => exact .of_children rfl rfl (List.forall_mem_nil _)
  all_goals
    refine .of_children rfl rfl fun c hc => hcs c ?_
    simp only [Code.children, List.mem_cons, List.not_mem_nil, or_false] at hc ⊢
    tauto

/-- Trees are written in scope one by one. -/
theorem exprs_scoped {es : List Expr} {cs : List Code}
    (hes : ∀ e ∈ es, ∀ {st c st'}, P st → expr p d e st = (.ok c, st') → P st' ∧ c.Scoped env)
    (hst : P st) (hcs : exprs p d es st = (.ok cs, st')) : P st' ∧ ∀ c ∈ cs, c.Scoped env := by
  induction es generalizing st cs with
  | nil =>
    cases hcs
    exact ⟨hst, List.forall_mem_nil _⟩
  | cons e rest ih =>
    obtain ⟨c, st₁, cs, he, hrest, rfl⟩ := exprs_cons_ok hcs
    obtain ⟨hst₁, hc⟩ := hes e (.head _) hst he
    obtain ⟨hst', hcs⟩ := ih (fun e he => hes e (.tail _ he)) hst₁ hrest
    exact ⟨hst', List.forall_mem_cons.2 ⟨hc, hcs⟩⟩

/-- The statements of a scope are among its written nodes. -/
theorem statements_subset {es : List Expr} {nodes : List Code}
    (hes : statements p d es st = (.ok nodes, st')) :
    ∃ codes, exprs p d es st = (.ok codes, st') ∧ nodes ⊆ codes := by
  obtain ⟨codes, hcodes, rfl⟩ := statements_ok hes
  exact ⟨codes, hcodes, List.filter_sublist.subset⟩

/-- A tree whose labels are distinct and whose branches name labels around them is written as code
with the same scopes. -/
theorem expr_scoped (hd : d.Scopes P) {e : Expr} {c : Code} (he : e.Scoped env)
    (hfresh : e.FreshIn env) (hst : P st) (hwrite : expr p d e st = (.ok c, st')) :
    P st' ∧ c.Scoped env := by
  induction e using Expr.induct generalizing env st c st' with
  | h e ih =>
  have hchildren : ∀ x ∈ e.children, ∀ {st c st'}, P st → expr p d x st = (.ok c, st') →
      P st' ∧ c.Scoped (e.label?.toList ++ env) := fun x hx _ _ _ hst hwrite =>
    ih x hx (he.child hx) (hfresh.child hx) hst hwrite
  cases hsimple : e.isSimple with
  | true =>
    obtain ⟨codes, st₁, hcodes, hcompose⟩ := simple_ok hsimple hwrite
    rw [Expr.label?_of_isSimple hsimple] at hchildren
    obtain ⟨hst₁, hscoped⟩ := exprs_scoped hchildren hst hcodes
    exact compose_scoped hd he.targets hscoped hst₁ hcompose
  | false =>
    cases e with
    | block label children ty =>
      obtain ⟨nodes, st₁, hnodes, hpure⟩ := bind_ok hwrite
      cases hpure
      obtain ⟨codes, hcodes, hsub⟩ := statements_subset hnodes
      obtain ⟨hst₁, hscoped⟩ := exprs_scoped hchildren hst hcodes
      exact ⟨hst₁, .node (List.forall_mem_nil _) hfresh.label fun c hc => hscoped c (hsub hc)⟩
    | ite condition ifTrue ifFalse ty =>
      obtain ⟨cc, st₁, hcondition, hrest⟩ := bind_ok hwrite
      obtain ⟨tc, st₂, htrue, hrest⟩ := bind_ok hrest
      obtain ⟨fc, st₃, hfalse, hpure⟩ := bind_ok hrest
      cases hpure
      obtain ⟨hst₁, hcc⟩ := hchildren condition (.head _) hst hcondition
      obtain ⟨hst₂, htc⟩ := hchildren ifTrue (.tail _ (.head _)) hst₁ htrue
      cases ifFalse with
      | none =>
        cases hfalse
        exact ⟨hst₂, .of_children rfl rfl (by simpa [Code.children] using ⟨hcc, htc⟩)⟩
      | some ifFalse =>
        obtain ⟨node, st₄, hnode, hsome⟩ := bind_ok hfalse
        cases hsome
        obtain ⟨hst₃, hec⟩ := hchildren ifFalse (.tail _ (.tail _ (.head _))) hst₂ hnode
        exact ⟨hst₃, .of_children rfl rfl (by simpa [Code.children] using ⟨hcc, htc, hec⟩)⟩
    | loop label body ty =>
      obtain ⟨b, st₁, hbody, hpure⟩ := bind_ok hwrite
      cases hpure
      obtain ⟨hst₁, hb⟩ := hchildren body (.head _) hst hbody
      exact ⟨hst₁, .node (List.forall_mem_nil _) hfresh.label (List.forall_mem_singleton.2 hb)⟩
    | _ => cases hsimple

/-- The statements of a body are among its written nodes. -/
theorem bodyStatements_subset {es : List Expr} {nodes : List (Code × Bool)}
    (hes : bodyStatements p d es st = (.ok nodes, st')) :
    ∃ codes, exprs p d es st = (.ok codes, st') ∧ ∀ node ∈ nodes, node.1 ∈ codes := by
  obtain ⟨codes, hcodes, hsub⟩ := statements_subset (bodyStatements_ok hes)
  exact ⟨codes, hcodes, fun node hnode => hsub (List.mem_map_of_mem hnode)⟩

end Walk

/-! ## The implicit return -/

namespace Code

variable {env : List Label}

/-- Statements stay in scope when the last of them is made a return. -/
theorem returningLast_scoped {nodes : List Code}
    (hreturning : ∀ c ∈ nodes, ∀ inArm, (c.returning inArm).Scoped env)
    (h : ∀ c ∈ nodes, c.Scoped env) : ∀ c ∈ returningLast nodes, c.Scoped env := by
  match nodes with
  | [] => nofun
  | [last] =>
    refine List.forall_mem_singleton.2 ?_
    split
    · exact h last (.head _)
    · exact hreturning last (.head _) false
  | node :: next :: rest =>
    obtain ⟨hnode, hrest⟩ := List.forall_mem_cons.1 h
    refine List.forall_mem_cons.2 ⟨hnode, ?_⟩
    exact returningLast_scoped (fun c hc => hreturning c (.tail _ hc)) hrest

/-- Returning the value of a node moves no jump out of its scope. -/
theorem returning_scoped {node : Code} {inArm : Bool} (h : node.Scoped env) :
    (node.returning inArm).Scoped env := by
  induction node using induct generalizing inArm with
  | h node ih =>
  have hret : (Code.ret (some node)).Scoped env :=
    .of_children rfl rfl (List.forall_mem_singleton.2 h)
  unfold returning
  split
  · next condition ifTrue ifFalse =>
    split
    · exact hret
    · have hchildren : ∀ c ∈ [condition, ifTrue, ifFalse], c.Scoped env := fun c hc => h.child hc
      refine .of_children rfl rfl ?_
      simp only [children, Option.toList_some, List.mem_cons, forall_eq_or_imp] at hchildren ih ⊢
      exact ⟨hchildren.1, ih.2.1 hchildren.2.1, ih.2.2.1 hchildren.2.2.1, List.forall_mem_nil _⟩
  · next nodes =>
    split
    · have hchildren : ∀ c ∈ nodes, c.Scoped env := fun c hc => h.child hc
      refine .of_children rfl rfl (returningLast_scoped (fun c hc inArm => ?_) hchildren)
      exact ih c hc (hchildren c hc)
    · exact h
  · split
    · exact h
    · split
      · exact hret
      · exact h

/-- Statements stay in scope with the implicit return. -/
theorem withReturn_scoped {returnsValue : Bool} {statements : List (Code × Bool)}
    (h : ∀ s ∈ statements, s.1.Scoped env) :
    ∀ c ∈ withReturn returnsValue statements, c.Scoped env := by
  intro c hc
  obtain ⟨⟨⟨node, isValue⟩, i⟩, hs, rfl⟩ := List.mem_map.1 hc
  have hscoped : node.Scoped env := h _ (List.fst_mem_of_mem_zipIdx hs)
  dsimp only
  by_cases hposition : some i = if returnsValue then lastValue? statements else none
  · rw [if_pos hposition]
    exact returning_scoped hscoped
  · rw [if_neg hposition]
    exact hscoped

end Code

namespace Walk

/-- The statements of a function whose body has its labels in order are scoped. -/
theorem function_scoped {σ : Type} {P : σ → Prop} {p : Program} {d : Dialect σ} {st st' : σ}
    (hd : d.Scopes P) {f : Function} {body : Expr} {nodes : List Code}
    (hbody : f.body? = some body) (hscoped : body.Scoped []) (hnodup : body.labels.Nodup)
    (hst : P st) (hf : function p d f st = (.ok nodes, st')) : ∀ c ∈ nodes, c.Scoped [] := by
  have hfresh : body.FreshIn [] := ⟨hnodup, by simp⟩
  rw [function, hbody] at hf
  cases body with
  | block label children ty =>
    obtain ⟨statements, st₁, hstatements, hpure⟩ := bind_ok hf
    cases hpure
    obtain ⟨codes, hcodes, hsub⟩ := bodyStatements_subset hstatements
    obtain ⟨-, hcs⟩ : P _ ∧ ∀ c ∈ codes, c.Scoped (label.toList ++ []) := exprs_scoped
      (fun e he _ _ _ hst hwrite => expr_scoped hd (hscoped.child he) (hfresh.child he) hst hwrite)
      hst hcodes
    have hreturn : ∀ c ∈ Code.withReturn (f.result != .void) statements,
        c.Scoped (label.toList ++ []) := Code.withReturn_scoped fun s hs => hcs s.1 (hsub s hs)
    cases label with
    | none => exact hreturn
    | some label =>
      exact List.forall_mem_singleton.2 (.node (List.forall_mem_nil _) (by simp) hreturn)
  | nop =>
    cases hf
    exact List.forall_mem_nil _
  | _ =>
    obtain ⟨c, st₁, hc, hpure⟩ := bind_ok hf
    cases hpure
    refine Code.withReturn_scoped (List.forall_mem_singleton.2 ?_)
    exact (expr_scoped hd hscoped hfresh hst hc).2

end Walk

/-! ## Both dialects -/

namespace Direct

variable {p : Program} {f : Function}

/-- A variable of the plain dialect has no label. -/
theorem variableOf_scoped {env : List Label} {index : Nat} {st st' : Unit} {c : Code}
    (h : variableOf f index st = (.ok c, st')) : c.Scoped env := by
  unfold variableOf at h
  cases hnode : lookup? f index with
  | none =>
    rw [hnode] at h
    cases h
  | some node =>
    rw [hnode] at h
    cases h
    unfold lookup? at hnode
    split at hnode
    · cases hnode
      exact .of_children rfl rfl (List.forall_mem_nil _)
    · split at hnode
      · cases hnode
        exact .of_children rfl rfl (List.forall_mem_nil _)
      · cases hnode

/-- The plain dialect makes no labels up. -/
theorem dialect_scopes : (dialect p f).Scopes fun _ => True where
  localGet _ h := ⟨trivial, variableOf_scoped h⟩
  localSet _ hvalue h := by
    obtain ⟨target, st₁, htarget, hpure⟩ := bind_ok h
    cases hpure
    exact ⟨trivial, Code.scoped_assign (variableOf_scoped htarget) hvalue⟩
  globalGet := .of_children rfl rfl (List.forall_mem_nil _)
  globalSet hvalue := Code.scoped_assign (.of_children rfl rfl (List.forall_mem_nil _)) hvalue
  const := .of_children rfl rfl (List.forall_mem_nil _)
  binary hleft hright := Code.scoped_binary hleft hright
  load _ haddress h := by
    cases h
    exact ⟨trivial, Code.scoped_deref haddress⟩
  store _ haddress hvalue h := by
    cases h
    exact ⟨trivial, Code.scoped_assign (Code.scoped_deref haddress) hvalue⟩

end Direct

namespace Framed

variable {s : Surroundings}

/-- No register holds a label or a jump. -/
def Unlabeled (st : FrameState) : Prop :=
  ∀ c, some c ∈ st.registers → ∀ env, c.Scoped env

/-- What a local reads as has no label, if no register holds one. -/
theorem localGet_scoped {env : List Label} {index : Nat} {st st' : FrameState} {c : Code}
    (hst : Unlabeled st) (h : localGet s index st = (.ok c, st')) :
    Unlabeled st' ∧ c.Scoped env := by
  by_cases hindex : index < s.function.params.length
  · rw [localGet_param hindex] at h
    cases h
    exact ⟨hst, .of_children rfl rfl (List.forall_mem_nil _)⟩
  · rw [Nat.not_lt] at hindex
    rw [localGet_eq hindex (localGet_slot hindex h)] at h
    split at h
    · cases h
      exact ⟨hst, .of_children rfl rfl (List.forall_mem_nil _)⟩
    · next hknown =>
      cases h
      refine ⟨hst, hst c ?_ env⟩
      unfold known? at hknown
      split at hknown
      · cases hknown
      · obtain ⟨_, hentry, hsome⟩ := Option.map_eq_some_iff.1 hknown
        cases hsome
        exact List.mem_of_getElem? (Option.join_eq_some_iff.1 hentry)
    · cases h
      exact ⟨hst, .of_children rfl rfl (List.forall_mem_nil _)⟩

/-- A register may be set to code without labels. -/
theorem unlabeled_set {st : FrameState} (hst : Unlabeled st) {slot : Nat} {value : Option Code}
    (hvalue : ∀ c ∈ value, ∀ env, c.Scoped env) :
    ∀ c, some c ∈ st.registers.set slot value → ∀ env, c.Scoped env := by
  intro c hc
  rcases List.mem_or_eq_of_mem_set hc with hc | hc
  · exact hst c hc
  · exact hvalue c hc.symm

/-- An assignment is in scope if its value is, and no register gets a label. -/
theorem localSet_scoped {env : List Label} {index : Nat} {value : Code} {tee : Bool}
    {st st' : FrameState} {c : Code} (hst : Unlabeled st) (hvalue : value.Scoped env)
    (h : localSet s index value tee st = (.ok c, st')) : Unlabeled st' ∧ c.Scoped env := by
  by_cases hindex : index < s.function.params.length
  · rw [localSet, if_pos hindex] at h
    cases h
    exact ⟨hst, Code.scoped_assign (.of_children rfl rfl (List.forall_mem_nil _)) hvalue⟩
  · rw [Nat.not_lt] at hindex
    rw [localSet_eq hindex (localSet_slot hindex h)] at h
    split at h
    · cases h
      exact ⟨unlabeled_set hst (by rintro _ ⟨⟩),
        Code.scoped_assign (.of_children rfl rfl (List.forall_mem_nil _)) hvalue⟩
    · next hneither =>
      rw [not_or, Bool.not_eq_true] at hneither
      cases h
      -- Only a value without effects is recorded.
      refine ⟨unlabeled_set hst ?_, ?_⟩
      · rintro _ ⟨⟩ env
        exact Code.scoped_of_pure hneither.2
      · cases tee with
        | true => exact hvalue
        | false => exact .of_children rfl rfl (List.forall_mem_nil _)

/-- An access is in scope if its address is, and no register gets a label. -/
theorem access_scoped {env : List Label} {address c : Code} {arg : MemArg} {ty : Ty}
    {st st' : FrameState} (hst : Unlabeled st) (haddress : address.Scoped env)
    (h : access address arg ty st = (.ok c, st')) : Unlabeled st' ∧ c.Scoped env := by
  cases access_cases h with
  | deref => exact ⟨hst, Code.scoped_deref haddress⟩
  | slot => exact ⟨hst, .of_children rfl rfl (List.forall_mem_nil _)⟩

/-- An operation is in scope if its operands are, collapsed or not. -/
theorem binary_scoped {env : List Label} {op : BinOp} {left right : Code}
    (hleft : left.Scoped env) (hright : right.Scoped env) : (binary op left right).Scoped env := by
  rcases binary_cases op left right with heq | ⟨heq, -⟩ | ⟨_, _, _, _, _, -, -, heq, -⟩
  · rw [heq]
    exact Code.scoped_binary hleft hright
  · rw [heq]
    exact .of_children rfl rfl (List.forall_mem_nil _)
  · rw [heq]
    exact .of_children rfl rfl (List.forall_mem_nil _)

/-- The walk makes no labels up and keeps none in registers. -/
theorem dialect_scopes : (dialect s).Scopes Unlabeled where
  localGet := localGet_scoped
  localSet := localSet_scoped
  globalGet {_ index} := by
    show (globalGet s index).Scoped _
    unfold globalGet
    split <;> exact .of_children rfl rfl (List.forall_mem_nil _)
  globalSet {_ index value} hvalue := by
    show (globalSet s index value).Scoped _
    unfold globalSet
    split
    · exact .of_children rfl rfl (List.forall_mem_nil _)
    · exact Code.scoped_assign (.of_children rfl rfl (List.forall_mem_nil _)) hvalue
  const := .of_children rfl rfl (List.forall_mem_nil _)
  binary := binary_scoped
  load := access_scoped
  store hst haddress hvalue h := by
    obtain ⟨target, st₁, htarget, hpure⟩ := bind_ok h
    cases hpure
    obtain ⟨hst₁, htarget⟩ := access_scoped hst haddress htarget
    exact ⟨hst₁, Code.scoped_assign htarget hvalue⟩

end Framed

/-! ## Accepted bodies -/

namespace Program

/-- Every branch of the statements stands inside the scope of its label, and whatever the layout of
the frame, they are printed as inside their scopes. -/
structure PrintsInScopes (nodes : List Code) : Prop where
  inScope : ∀ node ∈ nodes, node.Scoped []
  onPage : ∀ layout, Code.lexicalLines layout [] nodes = some (Code.statementTexts layout nodes)

/-- Scoped statements are printed as inside their scopes. -/
theorem PrintsInScopes.of_scoped {nodes : List Code} (h : ∀ node ∈ nodes, node.Scoped []) :
    PrintsInScopes nodes :=
  ⟨h, fun _ => Code.lexicalLines_eq h⟩

/-- The labels of an accepted body are distinct, its branches name labels around them, and each
label is named inside its construct. A function with this body is written in either dialect as
statements that are printed as inside their scopes: each branch stands between the braces of the
scope that bears its label, and is `continue` if that is opened by `while (1)` and `break` if it is
not. The `break` that closes a loop is no branch. -/
theorem expandBody_labels {scope : Scope} {code : FunctionCode} {signature : Signature}
    {locals : List Ty} {body : Expr} (h : expandBody scope code signature = .ok (locals, body)) :
    body.labels.Nodup ∧ body.Scoped [] ∧
      ∀ f : Function, f.params = signature.params → f.kind = .defined locals body →
        (∀ p, ∃ nodes, Direct.statements p f = .ok nodes ∧ PrintsInScopes nodes) ∧
        ∀ s : Framed.Surroundings, s.function = f →
          ∃ nodes st, Framed.statements s = (.ok nodes, st) ∧ PrintsInScopes nodes := by
  obtain ⟨ops, declared, -, -, hops⟩ := expandBody_ok h
  obtain ⟨hscoped, hnodup⟩ := Expr.ofOperators_scoped hops
  refine ⟨hnodup, hscoped, fun f hparams hkind => ?_⟩
  have hbody : f.body? = some body := by simp [Function.body?, hkind]
  have hrange : f.InRange := by
    intro body' hbody'
    cases hbody.symm.trans hbody'
    simpa [Function.locals, hkind, hparams] using Expr.ofOperators_below hops
  refine ⟨fun p => ?_, ?_⟩
  · obtain ⟨nodes, st, hnodes, -⟩ :=
      Walk.function_returns (p := p) Direct.dialect_writes hrange () trivial
    refine ⟨nodes, congrArg Prod.fst hnodes, .of_scoped ?_⟩
    exact Walk.function_scoped Direct.dialect_scopes hbody hscoped hnodup trivial hnodes
  · rintro s rfl
    obtain ⟨nodes, st, hnodes⟩ := Framed.statements_ok hrange
    refine ⟨nodes, st, hnodes, .of_scoped ?_⟩
    refine Walk.function_scoped Framed.dialect_scopes hbody hscoped hnodup ?_ hnodes
    intro c hc
    cases List.eq_of_mem_replicate hc

/-- A search in a loop: a block that is left when the search is over, around a loop that goes on by
one branch and is left by another. -/
def searching : FunctionCode where
  type := 0
  locals := []
  -- block; loop; local.get 0; br_if 1; local.get 0; br_table 0 1 0; end; end; end
  body := [0x02, 0x40, 0x03, 0x40, 0x20, 0x00, 0x0d, 0x01, 0x20, 0x00, 0x0e, 0x02, 0x00, 0x01, 0x00,
    0x0b, 0x0b, 0x0b]

/-- The labels of a loop that searches are distinct and printed in their scopes. -/
theorem expandBody_labels_searching :
    ∃ body, expandBody ⟨[], [], [], []⟩ searching ⟨[.i32], .void⟩ = .ok ([], body) ∧
      body.labels.Nodup ∧ body.Scoped [] ∧
      ∃ nodes, Direct.statements ⟨[], [], [], [], []⟩
        ⟨⟨0⟩, [.i32], .void, .defined [] body, none⟩ = .ok nodes ∧ PrintsInScopes nodes := by
  let body : Expr := .block (some ⟨1⟩)
    [.loop (some ⟨2⟩) (.block none
      [.br ⟨1⟩ (some (.localGet 0 .i32)) none,
        .switch [⟨2⟩, ⟨1⟩] (some ⟨2⟩) (.localGet 0 .i32) none] .void) .void] .void
  have hbody : expandBody ⟨[], [], [], []⟩ searching ⟨[.i32], .void⟩ = .ok ([], body) := rfl
  obtain ⟨hnodup, hscoped, hwritten⟩ := expandBody_labels hbody
  obtain ⟨hdirect, -⟩ := hwritten ⟨⟨0⟩, [.i32], .void, .defined [] body, none⟩ rfl rfl
  exact ⟨body, hbody, hnodup, hscoped, hdirect _⟩

end Program

end WasmLift
