import WasmLift.Proofs.Listing.Arrivals
import WasmLift.Proofs.Listing.Returns
import WasmLift.Proofs.Listing.Scopes

/-!
# Effects

The nodes of pseudocode in the order in which their trees run, as those of a tree are listed in
`Expr.nodes`, and the nodes of both that have an effect. Code without effects has none inside and
directs no control (`Code.hasEffects_nodes`). `Code.StandsFor` says which node of pseudocode has the
effect of a node that the walk comes to: it does the same to the operands that are written there.
And `Code.Echoes` says that effects are printed one for one and in order, except for some that may
be left out.
-/

namespace WasmLift

open Walk (Arrival)

namespace Code

/-! ## The nodes of pseudocode -/

/-- The nodes that a node is printed from, in the order in which they are written, which is that in
which their trees run. -/
def operands : Code → List Code
  | .callIndirect target args => args ++ [target]
  | .select condition ifTrue ifFalse => [ifTrue, ifFalse, condition]
  | .br _ condition value => value.toList ++ condition.toList
  | node => node.children

/-- The operands of a node are its children, in the order in which they run. -/
theorem operands_perm (c : Code) : c.operands.Perm c.children := by
  cases c with
  | callIndirect target args => exact List.perm_append_singleton target args
  | select condition ifTrue ifFalse =>
    exact (List.perm_append_singleton condition [ifTrue, ifFalse])
  | br label condition value => exact List.perm_append_comm
  | _ => exact .refl _

/-- An operand is smaller than its node. -/
theorem sizeOf_operand {c x : Code} (hx : x ∈ c.operands) : sizeOf x < sizeOf c :=
  sizeOf_child (c.operands_perm.mem_iff.1 hx)

/-- All nodes that a node is printed from, itself included and last, in the same order. -/
def nodes (c : Code) : List Code :=
  c.operands.attach.flatMap (fun x => nodes x.1) ++ [c]
termination_by sizeOf c
decreasing_by exact sizeOf_operand x.2

/-- The nodes of code are those of its operands and itself, which runs last. -/
theorem nodes_eq (c : Code) : c.nodes = c.operands.flatMap nodes ++ [c] := by
  rw [nodes, List.flatMap_subtype (g := nodes) fun _ _ => rfl]
  simp

/-- What these nodes contribute, in order. -/
def gather {α : Type} (g : Code → List α) (c : Code) : List α :=
  c.nodes.flatMap g

/-- What is gathered from code is what its operands give and then itself. -/
theorem gather_eq {α : Type} (g : Code → List α) (c : Code) :
    c.gather g = c.operands.flatMap (gather g) ++ g c := by
  rw [gather, nodes_eq, List.flatMap_append, List.flatMap_assoc, List.flatMap_singleton]
  rfl

/-- Nodes of one kind are gathered as all nodes are. -/
theorem filter_nodes (q : Code → Bool) (c : Code) :
    c.nodes.filter q = c.gather fun n => [n].filter q := by
  rw [gather, ← List.filter_flatMap, List.flatMap_singleton']

/-! ## Effects -/

/-- The node has an effect of its own: it assigns, calls, or changes memory as a whole. -/
def isEffect : Code → Bool
  | .assign _ _ | .call _ _ | .callIndirect _ _ | .memoryGrow _ | .memoryCopy _ _ _
  | .memoryFill _ _ _ => true
  | _ => false

/-- The node has an effect that is seen outside the function: it does more than to assign a
parameter or a local. -/
def isOutward : Code → Bool
  | .assign (.param _) _ | .assign (.localVar _) _ => false
  | node => node.isEffect

/-- The node directs control. -/
def isControl : Code → Bool
  | .ret _ | .unreachable | .block _ _ | .ite _ _ _ _ | .loop _ _ | .br _ _ _
  | .switch _ _ _ _ => true
  | _ => false

/-- The nodes with an effect, in order. -/
def effects (c : Code) : List Code :=
  c.nodes.filter isEffect

/-- The nodes with an effect that is seen outside the function, in order. -/
def outward (c : Code) : List Code :=
  c.nodes.filter isOutward

/-- What acts on the outside has an effect. -/
theorem isEffect_of_isOutward {c : Code} (h : c.isOutward = true) : c.isEffect = true := by
  cases c with
  | assign target value => rfl
  | _ => exact h

/-- The effects on the outside are those among all effects. -/
theorem filter_effects (cs : List Code) :
    (cs.flatMap effects).filter isOutward = cs.flatMap outward := by
  rw [List.filter_flatMap]
  refine List.flatMap_congr fun c _ => ?_
  rw [effects, List.filter_filter, outward]
  refine List.filter_congr fun n _ => ?_
  cases houtward : n.isOutward with
  | false => rfl
  | true => exact isEffect_of_isOutward houtward

/-- A node has no effects if neither it nor a node right below it has one. -/
theorem hasEffects_operands {c : Code} :
    c.hasEffects = false ↔
      (∀ x ∈ c.operands, x.hasEffects = false) ∧ c.isEffect = false ∧ c.isControl = false := by
  have hmem : (∀ x ∈ c.operands, x.hasEffects = false) ↔ ∀ x ∈ c.children, x.hasEffects = false :=
    forall_congr' fun x => imp_congr_left c.operands_perm.mem_iff
  rw [hmem]
  cases c <;> simp [hasEffects, children, isEffect, isControl, and_assoc]

/-- A node has no effects if there is none inside it, nor a node that directs control. -/
theorem hasEffects_nodes {c : Code} :
    c.hasEffects = false ↔ ∀ n ∈ c.nodes, n.isEffect = false ∧ n.isControl = false := by
  induction c using induct with
  | h c ih =>
    rw [hasEffects_operands, nodes_eq, List.forall_mem_append, List.forall_mem_singleton,
      List.forall_mem_flatMap]
    refine and_congr_left fun _ => forall₂_congr fun x hx => ?_
    exact ih x (c.operands_perm.mem_iff.1 hx)

/-- A node without effects contributes nothing, if no node without effects does. -/
theorem gather_of_pure {α : Type} {g : Code → List α}
    (hg : ∀ c : Code, c.hasEffects = false → g c = []) {c : Code} (hc : c.hasEffects = false) :
    c.gather g = [] := by
  induction c using induct with
  | h c ih =>
    have hoperands := (hasEffects_operands.1 hc).1
    rw [gather_eq, hg c hc, List.append_nil, List.flatMap_eq_nil_iff]
    exact fun x hx => ih x (c.operands_perm.mem_iff.1 hx) (hoperands x hx)

/-- A return contributes nothing, nor does a conditional, a block or a `nop` as such. -/
structure OverlooksReturns {α : Type} (g : Code → List α) : Prop where
  ret : ∀ value, g (.ret value) = []
  ite : ∀ condition ifTrue ifFalse isValue, g (.ite condition ifTrue ifFalse isValue) = []
  block : ∀ label children, g (.block label children) = []
  nop : g .nop = []

section
variable {α : Type} {g : Code → List α}

/-- A return of code gives what the code gives. -/
theorem gather_ret (hg : OverlooksReturns g) (c : Code) :
    (ret (some c)).gather g = c.gather g := by
  rw [gather_eq, hg.ret, List.append_nil]
  exact List.flatMap_singleton ..

/-- A block gives what its statements give. -/
theorem gather_block (hg : OverlooksReturns g) (label : Option Label) (cs : List Code) :
    (block label cs).gather g = cs.flatMap (gather g) := by
  rw [gather_eq, hg.block, List.append_nil]
  rfl

/-- The last value made a return, the statements give the same. -/
theorem gather_returningLast {cs : List Code}
    (hcs : ∀ c ∈ cs, ∀ inArm, (c.returning inArm).gather g = c.gather g) :
    (returningLast cs).flatMap (gather g) = cs.flatMap (gather g) := by
  match cs with
  | [] => rfl
  | [last] =>
    rw [returningLast, List.flatMap_singleton, List.flatMap_singleton]
    split
    · rfl
    · exact hcs last (.head _) false
  | c :: next :: rest =>
    have hrest : (returningLast (next :: rest)).flatMap (gather g) =
        (next :: rest).flatMap (gather g) :=
      gather_returningLast fun c hc => hcs c (.tail _ hc)
    exact congrArg (c.gather g ++ ·) hrest

/-- To return the value of a node changes nothing of what is contributed. -/
theorem gather_returning (hg : OverlooksReturns g) (c : Code) (inArm : Bool) :
    (c.returning inArm).gather g = c.gather g := by
  induction c using induct generalizing inArm with
  | h c ih =>
    unfold returning
    split
    · next condition ifTrue ifFalse =>
      split
      · exact gather_ret hg _
      · have htrue := ih ifTrue (.tail _ (.head _)) true
        have hfalse := ih ifFalse (.tail _ (.tail _ (.head _))) true
        rw [gather_eq, gather_eq, hg.ite, hg.ite]
        simp [operands, children, htrue, hfalse]
    · next cs =>
      split
      · rw [gather_block hg, gather_block hg]
        exact gather_returningLast ih
      · rfl
    · split
      · rfl
      · split
        · exact gather_ret hg _
        · rfl

/-- With the implicit return the statements give the same. -/
theorem gather_withReturn (hg : OverlooksReturns g) (returnsValue : Bool)
    (statements : List (Code × Bool)) :
    (withReturn returnsValue statements).flatMap (gather g) =
      (statements.map Prod.fst).flatMap (gather g) := by
  rw [withReturn, ← zipIdx_map_node, List.flatMap_map, List.flatMap_map]
  refine List.flatMap_congr fun s _ => ?_
  dsimp only
  by_cases hposition : some s.2 = if returnsValue then lastValue? statements else none
  · rw [if_pos hposition, gather_returning hg]
  · rw [if_neg hposition]

end

end Code

/-! ## Effects of trees -/

namespace Expr

/-- The node has an effect that is seen outside the function. -/
def isOutward : Expr → Bool
  | .globalSet _ _ | .call _ _ _ | .callIndirect _ _ _ | .store _ _ _ | .memoryGrow _
  | .memoryCopy _ _ _ | .memoryFill _ _ _ => true
  | _ => false

/-- The node assigns a local. -/
def isLocalSet : Expr → Bool
  | .localSet _ _ _ _ => true
  | _ => false

/-- An assignment of a local does not act on the outside. -/
theorem isOutward_of_isLocalSet {e : Expr} (h : e.isLocalSet = true) : e.isOutward = false := by
  cases e with
  | localSet => rfl
  | _ => cases h

/-- The node has an effect of its own. -/
def isEffect (e : Expr) : Bool :=
  e.isOutward || e.isLocalSet

end Expr

/-- The effects on the outside that the walk comes to are those among all effects. -/
theorem Walk.Arrival.filter_isOutward {σ : Type} (as : List (Arrival σ)) :
    (as.filter (·.node.isEffect)).filter (·.node.isOutward) = as.filter (·.node.isOutward) := by
  rw [List.filter_filter]
  refine List.filter_congr fun a _ => ?_
  cases houtward : a.node.isOutward with
  | false => rfl
  | true => rw [Expr.isEffect, houtward]; rfl

/-! ## What stands for an effect -/

namespace Code

/-- The node has the effect of a node of a tree, when the children of that are written as the given
codes: it assigns what was written for the value to what was written for the target, or calls what
is called there with what was written for the arguments. A store goes to the address that was
written for it, or to the place in a stack slot at that distance from the frame base. -/
inductive Enacts (p : Program) : Code → Expr → List Code → Prop where
  | param {index : Nat} {c : Code} {value : Expr} {tee : Bool} {ty : Ty} :
      Enacts p (.assign (.param index) c) (.localSet index value tee ty) [c]
  | localVar {index : Nat} {c : Code} {value : Expr} {tee : Bool} {ty : Ty} :
      Enacts p (.assign (.localVar index) c) (.localSet index value tee ty) [c]
  | globalVar {index : Nat} {c : Code} {value : Expr} :
      Enacts p (.assign (.globalVar (Walk.globalText p index)) c) (.globalSet index value) [c]
  | deref {a c : Code} {address value : Expr} {arg : MemArg} :
      Enacts p (.assign (.deref a arg value.ty) c) (.store address value arg) [a, c]
  | slot {place : SlotPlace} {a c : Code} {address value : Expr} {arg : MemArg}
      (inFrame : Framed.frameOffset? a arg.offset = some (place.offset + place.diff)) :
      Enacts p (.assign (.slot place) c) (.store address value arg) [a, c]
  | call {target : NameId} {cs : List Code} {args : List Expr} {ty : Ty} :
      Enacts p (.call (p.names.get target).name cs) (.call target args ty) cs
  | callIndirect {t : Code} {cs : List Code} {target : Expr} {args : List Expr} {ty : Ty} :
      Enacts p (.callIndirect t cs) (.callIndirect target args ty) (cs ++ [t])
  | memoryGrow {c : Code} {delta : Expr} : Enacts p (.memoryGrow c) (.memoryGrow delta) [c]
  | memoryCopy {t s l : Code} {target source length : Expr} :
      Enacts p (.memoryCopy t s l) (.memoryCopy target source length) [t, s, l]
  | memoryFill {t v l : Code} {target value length : Expr} :
      Enacts p (.memoryFill t v l) (.memoryFill target value length) [t, v, l]

section
variable {σ : Type} {p : Program} {d : Dialect σ} {mute : Expr → Prop}

variable (p d) in
/-- The node has the effect of the node that the walk comes to, with the operands that the walk
writes for its children. -/
def StandsFor (c : Code) (a : Arrival σ) : Prop :=
  ∃ cs, List.Forall₂ (Walk.IsWritten p d) cs (a.below p d) ∧ c.Enacts p a.node cs

/-- What stands for another node has an effect, and so has the other. -/
theorem StandsFor.isEffect {c : Code} {a : Arrival σ} (h : c.StandsFor p d a) :
    c.isEffect = true ∧ a.node.isEffect = true := by
  obtain ⟨node, state⟩ := a
  obtain ⟨cs, -, henacts⟩ := h
  cases henacts <;> exact ⟨rfl, rfl⟩

/-- What stands for another node acts on the outside just if the other does. -/
theorem StandsFor.isOutward {c : Code} {a : Arrival σ} (h : c.StandsFor p d a) :
    c.isOutward = a.node.isOutward := by
  obtain ⟨node, state⟩ := a
  obtain ⟨cs, -, henacts⟩ := h
  cases henacts <;> rfl

variable (p d mute) in
/-- The nodes stand for those that the walk comes to one for one and in order, except that some of
these, of a given kind, may be left out. -/
inductive Echoes : List Code → List (Arrival σ) → Prop where
  | nil : Echoes [] []
  | cons {c : Code} {a : Arrival σ} {cs : List Code} {as : List (Arrival σ)}
      (stands : c.StandsFor p d a) (rest : Echoes cs as) : Echoes (c :: cs) (a :: as)
  | mute {a : Arrival σ} {cs : List Code} {as : List (Arrival σ)} (silent : mute a.node)
      (rest : Echoes cs as) : Echoes cs (a :: as)

variable {cs cs' : List Code} {as as' : List (Arrival σ)}

/-- Effects that are printed in two parts are printed together. -/
theorem Echoes.append (h : Echoes p d mute cs as) (h' : Echoes p d mute cs' as') :
    Echoes p d mute (cs ++ cs') (as ++ as') := by
  induction h with
  | nil => exact h'
  | cons stands _ ih => exact .cons stands ih
  | mute silent _ ih => exact .mute silent ih

/-- Effects that are printed part by part are printed together. -/
theorem Echoes.flatMap {α β : Type} {f : α → List Code} {g : β → List (Arrival σ)} {xs : List α}
    {ys : List β} (h : List.Forall₂ (fun x y => Echoes p d mute (f x) (g y)) xs ys) :
    Echoes p d mute (xs.flatMap f) (ys.flatMap g) := by
  induction h with
  | nil => exact .nil
  | cons head _ ih => exact head.append ih

/-- What is printed is some of the effects, in order and each at most once. -/
theorem Echoes.sublist (h : Echoes p d mute cs as) :
    List.SublistForall₂ (StandsFor p d) cs as := by
  induction h with
  | nil => exact .nil
  | cons stands _ ih => exact .cons stands ih
  | mute _ _ ih => exact .cons_right ih

/-- Where nothing may be left out, nothing is. -/
theorem Echoes.forall₂ (h : Echoes p d mute cs as) (hmute : ∀ e, ¬mute e) :
    List.Forall₂ (StandsFor p d) cs as := by
  induction h with
  | nil => exact .nil
  | cons stands _ ih => exact .cons stands ih
  | mute silent => exact (hmute _ silent).elim

/-- Of the effects that are seen outside nothing is left out, if others alone may be. -/
theorem Echoes.outward (h : Echoes p d mute cs as) (hmute : ∀ e, mute e → e.isOutward = false) :
    List.Forall₂ (StandsFor p d) (cs.filter isOutward) (as.filter (·.node.isOutward)) := by
  induction h with
  | nil => exact .nil
  | cons stands _ ih =>
    rw [List.filter_cons, List.filter_cons, stands.isOutward]
    split
    · exact .cons stands ih
    · exact ih
  | mute silent _ ih =>
    rw [List.filter_cons_of_neg (by simp [hmute _ silent])]
    exact ih

end

end Code

end WasmLift
