import WasmLift.Proofs.Listing.Labels
import WasmLift.Proofs.Program.Bodies

/-!
# What holds of every node

A dialect writes variables, constants, sums and accesses; all other nodes are put together by the
walk itself, the same for every dialect (`Code.isCommon`). A property of nodes that may depend on
the state of the walk is upheld (`Dialect.Upholds`) if it holds of these other nodes, if no step
takes it from a node that has it, and if every node below what the dialect writes has it as long as
those it is made of have it. Then every node of the statements of a function has it
(`Walk.function_upholds`).
-/

namespace WasmLift

namespace Code

/-- Every node that the node is printed from has the property. -/
inductive Every (Q : Code → Prop) : Code → Prop where
  | node {c : Code} (own : Q c) (children : ∀ x ∈ c.children, Every Q x) : Every Q c

section
variable {Q Q' : Code → Prop} {c : Code}

theorem Every.own (h : c.Every Q) : Q c := by
  cases h with | node own _ => exact own

theorem Every.child {x : Code} (h : c.Every Q) (hx : x ∈ c.children) : x.Every Q := by
  cases h with | node _ children => exact children x hx

theorem every_iff : c.Every Q ↔ Q c ∧ ∀ x ∈ c.children, x.Every Q :=
  ⟨fun h => ⟨h.own, fun _ hx => h.child hx⟩, fun h => .node h.1 h.2⟩

theorem Every.mono (himp : ∀ c, Q c → Q' c) (h : c.Every Q) : c.Every Q' := by
  induction h with
  | node own _ ih => exact .node (himp _ own) ih

/-- The node is put together by the walk, whatever the dialect. -/
def isCommon : Code → Bool
  | .param _ | .localVar _ | .globalVar _ | .slot _ | .stackBase | .stackAddress _ | .stackPointer
  | .deref _ _ _ | .assign _ _ | .const _ _ | .binary _ _ _ => false
  | _ => true

/-! ## The implicit return -/

theorem returningLast_every {nodes : List Code}
    (hreturning : ∀ c ∈ nodes, ∀ inArm, (c.returning inArm).Every Q)
    (h : ∀ c ∈ nodes, c.Every Q) : ∀ c ∈ returningLast nodes, c.Every Q := by
  match nodes with
  | [] => nofun
  | [last] =>
    refine List.forall_mem_singleton.2 ?_
    split
    · exact h last (.head _)
    · exact hreturning last (.head _) false
  | node :: next :: rest =>
    obtain ⟨hnode, hrest⟩ := List.forall_mem_cons.1 h
    refine List.forall_mem_cons.2 ⟨hnode, ?_⟩
    exact returningLast_every (fun c hc => hreturning c (.tail _ hc)) hrest

variable (hcommon : ∀ c, c.isCommon = true → Q c)
include hcommon

/-- Returning the value of a node leaves the nodes below it and adds common ones. -/
theorem returning_every {inArm : Bool} (h : c.Every Q) : (c.returning inArm).Every Q := by
  induction h generalizing inArm with
  | @node node own children ih =>
  have hnode : node.Every Q := .node own children
  have hret : (Code.ret (some node)).Every Q :=
    .node (hcommon _ rfl) (List.forall_mem_singleton.2 hnode)
  unfold returning
  split
  · next condition ifTrue ifFalse =>
    split
    · exact hret
    · refine .node (hcommon _ rfl) ?_
      have hcondition := children condition (.head _)
      have htrue : (ifTrue.returning true).Every Q := ih ifTrue (.tail _ (.head _))
      have hfalse : (ifFalse.returning true).Every Q := ih ifFalse (.tail _ (.tail _ (.head _)))
      simpa [Code.children] using ⟨hcondition, htrue, hfalse⟩
  · next nodes =>
    split
    · exact .node (hcommon _ rfl) (returningLast_every (fun c hc _ => ih c hc) children)
    · exact hnode
  · split
    · exact hnode
    · split
      · exact hret
      · exact hnode

theorem withReturn_every {returnsValue : Bool} {statements : List (Code × Bool)}
    (h : ∀ s ∈ statements, s.1.Every Q) : ∀ c ∈ withReturn returnsValue statements, c.Every Q := by
  intro c hc
  obtain ⟨⟨⟨node, isValue⟩, i⟩, hs, rfl⟩ := List.mem_map.1 hc
  have hnode : node.Every Q := h _ (List.fst_mem_of_mem_zipIdx hs)
  dsimp only
  by_cases hposition : some i = if returnsValue then lastValue? statements else none
  · rw [if_pos hposition]
    exact returning_every hcommon hnode
  · rw [if_neg hposition]
    exact hnode

end

end Code

/-! ## The walk -/

section
variable {σ : Type} {P : σ → Prop} {Q : σ → Code → Prop} {st st' st'' : σ}

/-- The state still has its property, and so has every node that had it. -/
structure Upheld (P : σ → Prop) (Q : σ → Code → Prop) (st st' : σ) : Prop where
  holds : P st'
  keeps : ∀ c, Q st c → Q st' c

theorem Upheld.refl (hst : P st) : Upheld P Q st st :=
  ⟨hst, fun _ hc => hc⟩

theorem Upheld.trans (h : Upheld P Q st st') (h' : Upheld P Q st' st'') : Upheld P Q st st'' :=
  ⟨h'.holds, fun c hc => h'.keeps c (h.keeps c hc)⟩

variable (P Q) in
/-- Common nodes have the property, and the dialect writes only nodes that have it. -/
structure Dialect.Upholds (d : Dialect σ) : Prop where
  common : ∀ {st} c, c.isCommon = true → Q st c
  localGet : ∀ {index st c st'}, P st → d.localGet index st = (.ok c, st') →
    Upheld P Q st st' ∧ c.Every (Q st')
  localSet : ∀ {index value tee st c st'}, P st → value.Every (Q st) →
    d.localSet index value tee st = (.ok c, st') → Upheld P Q st st' ∧ c.Every (Q st')
  globalGet : ∀ {st index}, (d.globalGet index).Every (Q st)
  globalSet : ∀ {st index value}, value.Every (Q st) → (d.globalSet index value).Every (Q st)
  const : ∀ {st value}, (d.const value).Every (Q st)
  binary : ∀ {st op left right}, left.Every (Q st) → right.Every (Q st) →
    (d.binary op left right).Every (Q st)
  load : ∀ {address arg ty st c st'}, 0 < arg.bytes → P st → address.Every (Q st) →
    d.load address arg ty st = (.ok c, st') → Upheld P Q st st' ∧ c.Every (Q st')
  store : ∀ {address value ty arg st c st'}, 0 < arg.bytes → P st → address.Every (Q st) →
    value.Every (Q st) → d.store address value ty arg st = (.ok c, st') →
    Upheld P Q st st' ∧ c.Every (Q st')

namespace Walk

variable {p : Program} {d : Dialect σ}

/-- A node made of codes with the property has the property. -/
theorem compose_upholds (hd : d.Upholds P Q) {e : Expr} {cs : List Code} {c : Code} (he : e.Proper)
    (hcs : ∀ c ∈ cs, c.Every (Q st)) (hst : P st) (hc : compose p d e cs st = (.ok c, st')) :
    Upheld P Q st st' ∧ c.Every (Q st') := by
  unfold compose at hc
  split at hc
  case h_1 => exact hd.localGet hst hc
  case h_2 => exact hd.localSet hst (hcs _ (.head _)) hc
  case h_19 => exact hd.load (he.access _ rfl) hst (hcs _ (.head _)) hc
  case h_20 =>
    exact hd.store (he.access _ rfl) hst (hcs _ (.head _)) (hcs _ (.tail _ (.head _))) hc
  all_goals
    cases hc
    refine ⟨.refl hst, ?_⟩
  case h_3 => exact hd.globalGet
  case h_4 => exact hd.globalSet (hcs _ (.head _))
  case h_5 => exact .node (hd.common _ rfl) hcs
  case h_6 =>
    refine .node (hd.common _ rfl) (List.forall_mem_cons.2 ⟨?_, fun c hc => hcs c ?_⟩)
    · cases hlast : cs.getLast? with
      | none => exact .node (hd.common _ rfl) (List.forall_mem_nil _)
      | some last => exact hcs last (List.mem_of_getLast? hlast)
    · exact List.dropLast_subset _ hc
  case h_7 => exact hd.const
  case h_9 => exact hd.binary (hcs _ (.head _)) (hcs _ (.tail _ (.head _)))
  case h_11 => exact hcs _ (.head _)
  case h_12 | h_14 =>
    refine .node (hd.common _ rfl) fun c hc => hcs c (List.mem_of_mem_head? ?_)
    simpa [Code.children] using hc
  case h_13 | h_21 | h_25 => exact .node (hd.common _ rfl) (List.forall_mem_nil _)
  all_goals
    refine .node (hd.common _ rfl) fun c hc => hcs c ?_
    simp only [Code.children, Option.toList_some, Option.toList_none, List.mem_append,
      List.mem_cons, List.not_mem_nil, or_false, false_or] at hc ⊢
    tauto

theorem exprs_upholds {es : List Expr} {cs : List Code}
    (hes : ∀ e ∈ es, ∀ {st st' c}, P st → expr p d e st = (.ok c, st') →
      Upheld P Q st st' ∧ c.Every (Q st'))
    (hst : P st) (hcs : exprs p d es st = (.ok cs, st')) :
    Upheld P Q st st' ∧ ∀ c ∈ cs, c.Every (Q st') := by
  induction es generalizing st cs with
  | nil =>
    cases hcs
    exact ⟨.refl hst, List.forall_mem_nil _⟩
  | cons e rest ih =>
    obtain ⟨c, st₁, cs, he, hrest, rfl⟩ := exprs_cons_ok hcs
    obtain ⟨hfirst, hc⟩ := hes e (.head _) hst he
    obtain ⟨hothers, hcs⟩ := ih (fun e he => hes e (.tail _ he)) hfirst.holds hrest
    exact ⟨hfirst.trans hothers, List.forall_mem_cons.2 ⟨hc.mono hothers.keeps, hcs⟩⟩

/-- A tree is written as code all of whose nodes have the property. -/
theorem expr_upholds (hd : d.Upholds P Q) {e : Expr} {c : Code} (he : e.All Expr.Proper)
    (hst : P st) (hwrite : expr p d e st = (.ok c, st')) :
    Upheld P Q st st' ∧ c.Every (Q st') := by
  induction he generalizing st c st' with
  | @node e own _ ih =>
  cases hsimple : e.isSimple with
  | true =>
    obtain ⟨codes, st₁, hcodes, hcompose⟩ := simple_ok hsimple hwrite
    obtain ⟨hchildren, hcodes⟩ := exprs_upholds ih hst hcodes
    obtain ⟨hnode, hc⟩ := compose_upholds hd own hcodes hchildren.holds hcompose
    exact ⟨hchildren.trans hnode, hc⟩
  | false =>
    cases e with
    | block label children ty =>
      obtain ⟨nodes, st₁, hnodes, hpure⟩ := bind_ok hwrite
      cases hpure
      obtain ⟨codes, hcodes, hsub⟩ := statements_subset hnodes
      obtain ⟨hchildren, hcodes⟩ := exprs_upholds ih hst hcodes
      exact ⟨hchildren, .node (hd.common _ rfl) fun c hc => hcodes c (hsub hc)⟩
    | ite condition ifTrue ifFalse ty =>
      obtain ⟨cc, st₁, hcondition, hrest⟩ := bind_ok hwrite
      obtain ⟨tc, st₂, htrue, hrest⟩ := bind_ok hrest
      obtain ⟨fc, st₃, hfalse, hpure⟩ := bind_ok hrest
      cases hpure
      obtain ⟨h₁, hcc⟩ := ih condition (.head _) hst hcondition
      obtain ⟨h₂, htc⟩ := ih ifTrue (.tail _ (.head _)) h₁.holds htrue
      cases ifFalse with
      | none =>
        cases hfalse
        refine ⟨h₁.trans h₂, .node (hd.common _ rfl) ?_⟩
        simpa [Code.children] using ⟨hcc.mono h₂.keeps, htc⟩
      | some ifFalse =>
        obtain ⟨node, st₄, hnode, hsome⟩ := bind_ok hfalse
        cases hsome
        obtain ⟨h₃, hnode⟩ := ih ifFalse (.tail _ (.tail _ (.head _))) h₂.holds hnode
        refine ⟨(h₁.trans h₂).trans h₃, .node (hd.common _ rfl) ?_⟩
        have hkeeps := (h₂.trans h₃).keeps
        simpa [Code.children] using ⟨hcc.mono hkeeps, htc.mono h₃.keeps, hnode⟩
    | loop label body ty =>
      obtain ⟨b, st₁, hbody, hpure⟩ := bind_ok hwrite
      cases hpure
      obtain ⟨h, hb⟩ := ih body (.head _) hst hbody
      exact ⟨h, .node (hd.common _ rfl) (List.forall_mem_singleton.2 hb)⟩
    | _ => cases hsimple

/-- Every node of the statements of a function has the property at the end. -/
theorem function_upholds (hd : d.Upholds P Q) {f : Function} {nodes : List Code}
    (hf : ∀ body, f.body? = some body → body.All Expr.Proper) (hst : P st)
    (hwrite : function p d f st = (.ok nodes, st')) : P st' ∧ ∀ c ∈ nodes, c.Every (Q st') := by
  cases hbody : f.body? with
  | none =>
    rw [function, hbody] at hwrite
    cases hwrite
    exact ⟨hst, List.forall_mem_nil _⟩
  | some body =>
    have hproper := hf body hbody
    rw [function, hbody] at hwrite
    cases body with
    | block label children ty =>
      obtain ⟨statements, st₁, hstatements, hpure⟩ := bind_ok hwrite
      cases hpure
      obtain ⟨codes, hcodes, hsub⟩ := bodyStatements_subset hstatements
      obtain ⟨hchildren, hcodes⟩ := exprs_upholds
        (fun e he _ _ _ => expr_upholds hd (hproper.child he)) hst hcodes
      have hreturn : ∀ c ∈ Code.withReturn (f.result != .void) statements, c.Every (Q st') :=
        Code.withReturn_every hd.common fun s hs => hcodes s.1 (hsub s hs)
      refine ⟨hchildren.holds, ?_⟩
      cases label with
      | none => exact hreturn
      | some label => exact List.forall_mem_singleton.2 (.node (hd.common _ rfl) hreturn)
    | nop =>
      cases hwrite
      exact ⟨hst, List.forall_mem_nil _⟩
    | _ =>
      obtain ⟨c, st₁, hc, hpure⟩ := bind_ok hwrite
      cases hpure
      obtain ⟨h, hevery⟩ := expr_upholds hd hproper hst hc
      exact ⟨h.holds, Code.withReturn_every hd.common (List.forall_mem_singleton.2 hevery)⟩

end Walk

end

end WasmLift
