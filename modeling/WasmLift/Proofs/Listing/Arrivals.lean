import Mathlib.Data.List.Flatten
import Mathlib.Data.List.Forall2
import WasmLift.Proofs.Execution.Nodes
import WasmLift.Proofs.Propagation.Writing

/-!
# Where a walk comes to each node

A walk writes a node after its children, and it comes to each child in the state that those before
it leave (`Walk.arrivals`). All nodes of a tree, in the order in which the walk has them written and
each with the state in which it comes to the node, are listed by `Walk.Arrival.visits`. Without the
states these are the nodes of the tree in evaluation order (`Walk.Arrival.map_node_visits`). So to
say that a piece of code is what the walk writes for the node at one place of this list
(`Walk.IsWritten`) is to say which of several like nodes is meant.
-/

namespace WasmLift

/-! ## Trees without the assignments of a global -/

namespace Expr

/-- The node assigns the given global. -/
def assigns (global : Option Nat) : Expr → Bool
  | .globalSet index _ => global = some index
  | _ => false

/-- No global is assigned that is not there. -/
@[simp] theorem assigns_none (e : Expr) : e.assigns none = false := by
  cases e <;> rfl

/-- The nodes of a tree in evaluation order, without the assignments of the given global and without
the values that it is assigned. -/
def outside (global : Option Nat) (e : Expr) : List Expr :=
  if e.assigns global then []
  else e.children.attach.flatMap (fun c => outside global c.1) ++ [e]
termination_by sizeOf e
decreasing_by exact sizeOf_child c.2

/-- A tree without the assignments of a global leaves these out with all that is in them. -/
theorem outside_eq (global : Option Nat) (e : Expr) :
    e.outside global =
      if e.assigns global then [] else e.children.flatMap (outside global) ++ [e] := by
  rw [outside, List.flatMap_subtype (g := outside global) fun _ _ => rfl]
  simp

/-- Where no global is meant, these are all nodes. -/
theorem outside_none (e : Expr) : e.outside none = e.nodes := by
  induction e using induct with
  | h e ih =>
    rw [outside_eq, nodes_eq, assigns_none, List.flatMap_congr ih]
    rfl

/-- What these nodes contribute, in evaluation order. -/
def gatherOutside {α : Type} (global : Option Nat) (g : Expr → List α) (e : Expr) : List α :=
  (e.outside global).flatMap g

end Expr

namespace Walk

/-- A node of a tree, and the state in which the walk comes to it. -/
structure Arrival (σ : Type) where
  node : Expr
  state : σ

section
variable {σ : Type} (p : Program) (d : Dialect σ)

/-- The arrivals at nodes that are written one after the other, from the given state on. -/
def arrivals : List Expr → σ → List (Arrival σ)
  | [], _ => []
  | e :: rest, st => ⟨e, st⟩ :: arrivals rest (expr p d e st).2

/-- The code is what the walk writes for the node in the state in which it comes to it. -/
def IsWritten (c : Code) (a : Arrival σ) : Prop :=
  ∃ st', expr p d a.node a.state = (.ok c, st')

/-- The arrivals at the children of a node. -/
def Arrival.below (a : Arrival σ) : List (Arrival σ) :=
  arrivals p d a.node.children a.state

variable {p d} {es : List Expr} {st st' : σ}

/-- The walk comes to each of the trees in turn. -/
theorem map_node_arrivals : (arrivals p d es st).map Arrival.node = es := by
  induction es generalizing st with
  | nil => rfl
  | cons e rest ih => exact congrArg (e :: ·) ih

/-- There are as many arrivals as trees. -/
theorem length_arrivals : (arrivals p d es st).length = es.length := by
  rw [← List.length_map Arrival.node, map_node_arrivals]

/-- What is written for one node after the other is what the walk writes where it comes to them. -/
theorem exprs_isWritten {cs : List Code} (h : exprs p d es st = (.ok cs, st')) :
    List.Forall₂ (IsWritten p d) cs (arrivals p d es st) := by
  induction es generalizing st cs with
  | nil =>
    cases h
    exact .nil
  | cons e rest ih =>
    obtain ⟨c, st₁, cs, he, hrest, rfl⟩ := exprs_cons_ok h
    refine .cons ⟨st₁, he⟩ ?_
    rw [he]
    exact ih hrest

namespace Arrival

variable {a b : Arrival σ}

/-- Below a node the walk comes to its children. -/
theorem map_node_below : (a.below p d).map Arrival.node = a.node.children :=
  map_node_arrivals

/-- What the walk comes to below a node is one of its children. -/
theorem node_mem_children (hb : b ∈ a.below p d) : b.node ∈ a.node.children := by
  rw [← map_node_below (p := p) (d := d) (a := a)]
  exact List.mem_map_of_mem hb

/-- What the walk comes to below a node is smaller. -/
theorem sizeOf_below (hb : b ∈ a.below p d) : sizeOf b.node < sizeOf a.node :=
  Expr.sizeOf_child (node_mem_children hb)

/-- What holds of an arrival if it holds of those below it holds of all. -/
theorem induct {P : Arrival σ → Prop} (h : ∀ a, (∀ b ∈ a.below p d, P b) → P a)
    (a : Arrival σ) : P a :=
  h a fun b _ => induct h b
termination_by sizeOf a.node
decreasing_by exact sizeOf_below ‹_›

variable (p d) (hidden : Option Nat)

/-- The arrivals at a node and at all nodes below, in evaluation order, without the assignments of
the given global and without the values that it is assigned. -/
def visits (a : Arrival σ) : List (Arrival σ) :=
  if a.node.assigns hidden then []
  else (a.below p d).attach.flatMap (fun b => visits b.1) ++ [a]
termination_by sizeOf a.node
decreasing_by exact sizeOf_below b.2

/-- The walk visits what is below a node and then the node, unless it is left out. -/
theorem visits_eq (a : Arrival σ) :
    a.visits p d hidden =
      if a.node.assigns hidden then [] else (a.below p d).flatMap (visits p d hidden) ++ [a] := by
  rw [visits, List.flatMap_subtype (g := visits p d hidden) fun _ _ => rfl]
  simp

/-- The walk comes to the nodes of the tree in evaluation order. -/
theorem map_node_visits (a : Arrival σ) :
    (a.visits p d hidden).map Arrival.node = a.node.outside hidden := by
  induction a using induct (p := p) (d := d) with
  | h a ih =>
    rw [visits_eq, Expr.outside_eq]
    split
    · rfl
    · rw [List.map_append, List.map_flatMap, List.flatMap_congr ih,
        ← List.flatMap_map Arrival.node (Expr.outside hidden), map_node_below]
      rfl

/-- Without the states, the visits are the nodes of the tree in evaluation order. -/
theorem map_node_visits_none (a : Arrival σ) :
    (a.visits p d none).map Arrival.node = a.node.nodes := by
  rw [map_node_visits, Expr.outside_none]

/-- The visits outside the assignments of a global are some of all of them, in order. -/
theorem visits_sublist (a : Arrival σ) :
    (a.visits p d hidden).Sublist (a.visits p d none) := by
  induction a using induct (p := p) (d := d) with
  | h a ih =>
    rw [visits_eq, visits_eq, Expr.assigns_none, if_neg Bool.false_ne_true]
    split
    · exact List.nil_sublist _
    · exact (List.Sublist.flatMap_right _ ih).append_right _

section
variable {α : Type} (g : Arrival σ → List α)

/-- What these arrivals contribute, in evaluation order. -/
def gather (a : Arrival σ) : List α :=
  (a.visits p d hidden).flatMap g

variable {p d hidden} in
/-- What is gathered at a node is what is below it and then its own. -/
theorem gather_eq (ha : a.node.assigns hidden = false) :
    a.gather p d hidden g = (a.below p d).flatMap (gather p d hidden g) ++ g a := by
  rw [gather, visits_eq, ha, if_neg Bool.false_ne_true, List.flatMap_append, List.flatMap_assoc,
    List.flatMap_singleton]
  rfl

end

/-- Visits of one kind are gathered as all of them are. -/
theorem filter_visits (q : Arrival σ → Bool) (a : Arrival σ) :
    (a.visits p d hidden).filter q = a.gather p d hidden fun b => [b].filter q := by
  rw [gather, ← List.filter_flatMap, List.flatMap_singleton']

end Arrival

end

end Walk

end WasmLift
