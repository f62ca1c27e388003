import WasmLift.Proofs.Execution.Acts

/-!
# The nodes of a tree

All nodes of a tree in evaluation order: those of its children first, then the node itself
(`Expr.nodes_eq`). What a tree calls, where it jumps and which labels it declares are read off this
list.
-/

namespace WasmLift

namespace Expr

theorem sizeOf_child {e c : Expr} (hc : c ∈ e.children) : sizeOf c < sizeOf e := by
  have hlist : ∀ {es : List Expr}, c ∈ es → sizeOf c < sizeOf es := List.sizeOf_lt_of_mem
  have hoption : ∀ {o : Option Expr}, c ∈ o.toList → sizeOf c < sizeOf o := by
    rintro (_ | d) hd
    · simp at hd
    · simp_all
  cases e <;> simp [children] at hc ⊢ <;> grind

/-- A tree has a property if a node has it whenever its children do. -/
theorem induct {P : Expr → Prop} (h : ∀ e, (∀ c ∈ e.children, P c) → P e) (e : Expr) : P e :=
  h e fun c _ => induct h c
termination_by sizeOf e
decreasing_by exact sizeOf_child ‹_›

/-- All nodes of a tree, in evaluation order. -/
def nodes (e : Expr) : List Expr :=
  e.children.attach.flatMap (fun c => nodes c.1) ++ [e]
termination_by sizeOf e
decreasing_by exact sizeOf_child c.2

theorem nodes_eq (e : Expr) : e.nodes = e.children.flatMap nodes ++ [e] := by
  rw [nodes, List.flatMap_subtype (g := nodes) fun _ _ => rfl]
  simp

theorem all_iff {Q : Expr → Prop} {e : Expr} : All Q e ↔ ∀ n ∈ e.nodes, Q n := by
  induction e using induct with
  | h e ih =>
    rw [nodes_eq]
    constructor
    · intro h n hn
      rcases List.mem_append.1 hn with hn | hn
      · obtain ⟨c, hc, hn⟩ := List.mem_flatMap.1 hn
        exact (ih c hc).1 (h.child hc) n hn
      · exact List.mem_singleton.1 hn ▸ h.own
    · intro h
      refine .node (h e (by simp)) fun c hc => (ih c hc).2 fun n hn => h n ?_
      exact List.mem_append_left _ (List.mem_flatMap.2 ⟨c, hc, hn⟩)

/-! ## What is read off the nodes -/

/-- The label that a block or loop declares. -/
def label? : Expr → Option Label
  | .block label _ _ | .loop label _ _ => label
  | _ => none

theorem label?_of_isSimple {e : Expr} (he : e.isSimple = true) : e.label? = none := by
  cases e with
  | block | loop => cases he
  | _ => rfl

/-- The function that a node calls by name. -/
def callee? : Expr → Option NameId
  | .call target _ _ => some target
  | _ => none

section
variable {α : Type} (g : Expr → List α)

/-- What the nodes of a tree contribute, in evaluation order. -/
def gather (e : Expr) : List α :=
  e.nodes.flatMap g

theorem gather_eq (e : Expr) : e.gather g = e.children.flatMap (gather g) ++ g e := by
  rw [gather, nodes_eq, List.flatMap_append, List.flatMap_assoc, List.flatMap_singleton]
  rfl

end

/-- The labels that a tree declares. -/
def labels : Expr → List Label :=
  gather (·.label?.toList)

/-- The labels that the branches of a tree name. -/
def jumps : Expr → List Label :=
  gather branchTargets

/-- The functions that a tree calls by name. -/
def calls : Expr → List NameId :=
  gather (·.callee?.toList)

/-- The locals that a tree reads or assigns. -/
def touched : Expr → List Nat :=
  gather (·.ownLocal?.toList)

theorem below_iff {m : Nat} {e : Expr} : Below m e ↔ ∀ i ∈ e.touched, i < m := by
  induction e using induct with
  | h e ih =>
    rw [touched, gather_eq]
    constructor
    · intro h i hi
      rcases List.mem_append.1 hi with hi | hi
      · obtain ⟨c, hc, hi⟩ := List.mem_flatMap.1 hi
        exact (ih c hc).1 (h.child hc) i hi
      · exact h.own (Option.mem_toList.1 hi)
    · intro h
      refine .node (fun i hi => h i ?_) fun c hc => (ih c hc).2 fun i hi => h i ?_
      · exact List.mem_append_right _ (Option.mem_toList.2 hi)
      · exact List.mem_append_left _ (List.mem_flatMap.2 ⟨c, hc, hi⟩)

end Expr

end WasmLift
