import WasmLift.Proofs.Execution.Refinement

/-!
# The locals a tree touches

A tree that only touches locals below some number runs alike in two worlds that share these
(`Expr.eval_matches`). So a local that a tree does not touch can be assigned before or after it
(`Expr.eval_setLocal`). A node gives a value exactly if its type says so (`Expr.eval_isSome`).
-/

namespace WasmLift

/-! ## Types of values -/

/-- A value is kept just for a type that has one. -/
@[simp] theorem Ty.keep_isSome (ty : Ty) (v : Value) : (ty.keep v).isSome = (ty != .void) := by
  cases ty <;> rfl

/-- A value has a type. -/
@[simp] theorem Value.ty_ne_void (v : Value) : v.ty ≠ .void := by
  cases v <;> nofun

/-- An integer is a value. -/
@[simp] theorem Width.intTy_ne_void (w : Width) : w.intTy ≠ .void := by
  cases w <;> nofun

/-- A float is a value. -/
@[simp] theorem Width.floatTy_ne_void (w : Width) : w.floatTy ≠ .void := by
  cases w <;> nofun

/-- A unary operation gives a value. -/
@[simp] theorem UnOp.resultTy_ne_void (op : UnOp) : op.resultTy ≠ .void := by
  cases op <;> simp [UnOp.resultTy]

/-- A binary operation gives a value. -/
@[simp] theorem BinOp.resultTy_ne_void (op : BinOp) : op.resultTy ≠ .void := by
  cases op <;> simp [BinOp.resultTy]

namespace Expr

/-- The nodes right below a node, in the order in which they run. -/
def children : Expr → List Expr
  | .localGet _ _ | .globalGet _ _ | .const _ | .nop | .unreachable | .memorySize => []
  | .localSet _ value _ _ | .globalSet _ value | .unary _ value | .drop value
  | .memoryGrow value => [value]
  | .call _ args _ => args
  | .callIndirect target args _ => args ++ [target]
  | .binary _ left right => [left, right]
  | .select condition ifTrue ifFalse _ => [ifTrue, ifFalse, condition]
  | .ret value => value.toList
  | .block _ children _ => children
  | .ite condition ifTrue ifFalse _ => condition :: ifTrue :: ifFalse.toList
  | .loop _ body _ => [body]
  | .br _ condition value => value.toList ++ condition.toList
  | .switch _ _ condition value => value.toList ++ [condition]
  | .load address _ _ => [address]
  | .store address value _ => [address, value]
  | .memoryCopy target source length => [target, source, length]
  | .memoryFill target value length => [target, value, length]

/-- The local that a node itself reads or assigns. -/
def ownLocal? : Expr → Option Nat
  | .localGet index _ | .localSet index _ _ _ => some index
  | _ => none

/-- The tree touches locals below `m` only. -/
inductive Below (m : Nat) : Expr → Prop where
  | node {e : Expr} (own : ∀ i, e.ownLocal? = some i → i < m)
      (children : ∀ c ∈ e.children, Below m c) : Below m e

/-- A local that a tree itself touches is below its bound. -/
theorem Below.own {m : Nat} {e : Expr} (he : Below m e) {i : Nat} (hi : e.ownLocal? = some i) :
    i < m := by
  cases he with | node own _ => exact own i hi

/-- A tree that touches no local itself touches those of its children. -/
theorem Below.of_children {m : Nat} {e : Expr} (hown : e.ownLocal? = none)
    (h : ∀ c ∈ e.children, Below m c) : Below m e :=
  .node (by simp [hown]) h

/-- The children of a tree touch only locals below its bound. -/
theorem Below.child {m : Nat} {e c : Expr} (he : Below m e) (hc : c ∈ e.children) : Below m c := by
  cases he with | node _ children => exact children c hc

/-- A bound may be raised. -/
theorem Below.mono {m m' : Nat} (hm : m ≤ m') {e : Expr} (he : Below m e) : Below m' e := by
  induction he with
  | node own _ ih => exact .node (fun i hi => Nat.lt_of_lt_of_le (own i hi) hm) ih

/-! ## Running alike -/

open Run

section
variable {h : Host} {resolve : NameId → Nat} {bound : Nat} {W : World h → World h → Prop}

/-- A node with its value demanded. -/
abbrev operand (h : Host) (resolve : NameId → Nat) (bound : Nat) (e : Expr) : Run h Label Value :=
  eval h resolve bound e >>= demand

/-- An operand runs alike if its tree does. -/
theorem operand_matches {e : Expr}
    (he : Matches W Eq Eq (eval h resolve bound e) (eval h resolve bound e)) :
    Matches W Eq Eq (operand h resolve bound e) (operand h resolve bound e) :=
  he.bind fun v _ hv => hv ▸ .demand rfl v

/-- Operands are evaluated one after the other. -/
theorem operands_append (xs ys : List Expr) :
    operands h resolve bound (xs ++ ys) = do
      let vs ← operands h resolve bound xs
      let us ← operands h resolve bound ys
      return vs ++ us := by
  induction xs with
  | nil => simp [operands]
  | cons e rest ih => simp [operands, ih]

/-- Operands run alike if each of them does. -/
theorem operands_matches {es : List Expr}
    (hes : ∀ e ∈ es, Matches W Eq Eq (eval h resolve bound e) (eval h resolve bound e)) :
    Matches W Eq Eq (operands h resolve bound es) (operands h resolve bound es) := by
  induction es with
  | nil => exact .pure rfl
  | cons e rest ih =>
    rw [operands]
    refine (operand_matches (hes e (.head _))).bind fun v _ hv => ?_
    subst hv
    refine (ih fun e he => hes e (.tail _ he)).bind fun vs _ hvs => ?_
    exact .pure (hvs ▸ rfl)

/-- Statements run alike if each of them does. -/
theorem statements_matches {es : List Expr}
    (hes : ∀ e ∈ es, Matches W Eq Eq (eval h resolve bound e) (eval h resolve bound e)) :
    Matches W Eq Eq (statements h resolve bound es) (statements h resolve bound es) := by
  induction es with
  | nil => exact .pure rfl
  | cons e rest ih =>
    rw [statements]
    refine (hes e (.head _)).bind fun v _ hv => ?_
    subst hv
    cases rest with
    | nil => exact .pure rfl
    | cons => exact ih fun e he => hes e (.tail _ he)

/-- What a jump carries runs alike if its tree does. -/
theorem carried_matches {e : Option Expr}
    (he : ∀ c ∈ e.toList, Matches W Eq Eq (eval h resolve bound c) (eval h resolve bound c)) :
    Matches W Eq Eq (carried h resolve bound e) (carried h resolve bound e) := by
  cases e with
  | none => exact .pure rfl
  | some e => exact (operand_matches (he e (by simp))).bind fun v _ hv => .pure (hv ▸ rfl)

/-- An arm runs alike if its tree does. -/
theorem arm_matches {e : Option Expr}
    (he : ∀ c ∈ e.toList, Matches W Eq Eq (eval h resolve bound c) (eval h resolve bound c)) :
    Matches W Eq Eq (arm h resolve bound e) (arm h resolve bound e) := by
  cases e with
  | none => exact .pure rfl
  | some e => exact he e (by simp)

/-- Runs that are alike stay so when their result is settled. -/
theorem settle_matches (ty : Ty) {x y : Run h Label (Option Value)} (hxy : Matches W Eq Eq x y) :
    Matches W Eq Eq (x >>= settle ty) (y >>= settle ty) := by
  refine hxy.bind fun v _ hv => ?_
  subst hv
  unfold settle
  split
  · exact .pure rfl
  · exact (Matches.demand rfl v).map fun _ _ hv => hv ▸ rfl

/-- Runs that are alike stay so behind a label. -/
theorem catching_matches (label : Option Label) {x y : Run h Label (Option Value)}
    (hxy : Matches W Eq Eq x y) : Matches W Eq Eq (catching label x) (catching label y) := by
  refine hxy.onJump fun t v => ?_
  split
  · exact .pure rfl
  · exact .throw rfl

/-- Loops run alike if one round does. -/
theorem looping_matches (label : Option Label) {x y : Run h Label (Option Value)}
    (hxy : Matches W Eq Eq x y) (k : Nat) :
    Matches W Eq Eq (looping label x k) (looping label y k) := by
  induction k with
  | zero =>
    refine hxy.onJump fun t v => ?_
    split <;> exact .throw rfl
  | succ k ih =>
    refine hxy.onJump fun t v => ?_
    split
    · exact ih
    · exact .throw rfl

/-- A tree runs alike in worlds that share the locals it touches. -/
theorem eval_matches {m : Nat} (hW : LocalsOnly W) (hm : ∀ i, i < m → SharedLocal W i) {e : Expr}
    (he : Below m e) : Matches W Eq Eq (eval h resolve bound e) (eval h resolve bound e) := by
  have trap : ∀ t, (Exit.trap t : Exit Label) = .trap t := fun _ => rfl
  induction he with
  | @node e own _ ih =>
  cases e with
  | localGet i ty =>
    exact (Matches.getLocal (hm i (own i rfl))).bind fun v _ hv => .pure (hv ▸ rfl)
  | localSet i value tee ty =>
    refine (operand_matches (ih value (by simp [children]))).bind fun v _ hv => ?_
    subst hv
    exact (Matches.setLocal (hm i (own i rfl)) v).bind fun _ _ _ => .pure rfl
  | globalGet i ty => exact (Matches.perform hW trap _).bind fun v _ hv => .pure (hv ▸ rfl)
  | globalSet i value =>
    refine (operand_matches (ih value (by simp [children]))).bind fun v _ hv => ?_
    subst hv
    exact (Matches.perform hW trap _).bind fun _ _ _ => .pure rfl
  | call target args ty =>
    refine (operands_matches ih).bind fun vs _ hvs => ?_
    subst hvs
    exact (Matches.perform hW trap _).bind fun v _ hv => .pure (hv ▸ rfl)
  | callIndirect target args ty =>
    refine (operands_matches fun e he => ih e (by simp [children, he])).bind fun vs _ hvs => ?_
    subst hvs
    refine (operand_matches (ih target (by simp [children]))).bind fun i _ hi => ?_
    subst hi
    exact (Matches.perform hW trap _).bind fun v _ hv => .pure (hv ▸ rfl)
  | const value => exact .pure rfl
  | unary op value =>
    refine (operand_matches (ih value (by simp [children]))).bind fun v _ hv => ?_
    subst hv
    exact (Matches.ofExcept trap _).map fun _ _ hv => hv ▸ rfl
  | binary op left right =>
    refine (operand_matches (ih left (by simp [children]))).bind fun l _ hl => ?_
    refine (operand_matches (ih right (by simp [children]))).bind fun r _ hr => ?_
    subst hl hr
    exact (Matches.ofExcept trap _).map fun _ _ hv => hv ▸ rfl
  | select condition ifTrue ifFalse ty =>
    refine (operand_matches (ih ifTrue (by simp [children]))).bind fun t _ ht => ?_
    refine (operand_matches (ih ifFalse (by simp [children]))).bind fun e _ he => ?_
    refine (operand_matches (ih condition (by simp [children]))).bind fun c _ hc => ?_
    subst ht he hc
    exact .pure rfl
  | drop value =>
    exact (operand_matches (ih value (by simp [children]))).bind fun _ _ _ => .pure rfl
  | ret value =>
    refine (carried_matches ih).bind fun v _ hv => ?_
    exact .throw (hv ▸ rfl)
  | nop => exact .pure rfl
  | unreachable => exact .throw rfl
  | block label cs ty =>
    exact settle_matches ty (catching_matches label (statements_matches ih))
  | ite condition ifTrue ifFalse ty =>
    refine (operand_matches (ih condition (by simp [children]))).bind fun c _ hc => ?_
    subst hc
    refine settle_matches ty ?_
    split
    · exact ih ifTrue (by simp [children])
    · exact arm_matches fun e he => ih e (by simp [children, Option.mem_toList.1 he])
  | loop label body ty =>
    exact settle_matches ty (looping_matches label (ih body (by simp [children])) bound)
  | br label condition value =>
    refine (carried_matches fun e he => ih e (by simp [children, Option.mem_toList.1 he])).bind
      fun v _ hv => ?_
    refine (carried_matches fun e he => ih e (by simp [children, Option.mem_toList.1 he])).bind
      fun c _ hc => ?_
    subst hv hc
    cases c with
    | none => exact .throw rfl
    | some c =>
      dsimp only
      split
      · exact .throw rfl
      · exact .pure rfl
  | switch labels fallback condition value =>
    refine (carried_matches fun e he => ih e (by simp [children, Option.mem_toList.1 he])).bind
      fun v _ hv => ?_
    refine (operand_matches (ih condition (by simp [children]))).bind fun c _ hc => ?_
    subst hv hc
    split <;> exact .throw rfl
  | load address arg ty =>
    refine (operand_matches (ih address (by simp [children]))).bind fun a _ ha => ?_
    subst ha
    exact (Matches.perform hW trap _).bind fun v _ hv => .pure (hv ▸ rfl)
  | store address value arg =>
    refine (operand_matches (ih address (by simp [children]))).bind fun a _ ha => ?_
    refine (operand_matches (ih value (by simp [children]))).bind fun v _ hv => ?_
    subst ha hv
    exact (Matches.perform hW trap _).bind fun _ _ _ => .pure rfl
  | memorySize => exact (Matches.perform hW trap _).map fun _ _ hv => hv ▸ rfl
  | memoryGrow delta =>
    refine (operand_matches (ih delta (by simp [children]))).bind fun v _ hv => ?_
    subst hv
    exact (Matches.perform hW trap _).map fun _ _ hv => hv ▸ rfl
  | memoryCopy target source length =>
    refine (operand_matches (ih target (by simp [children]))).bind fun t _ ht => ?_
    refine (operand_matches (ih source (by simp [children]))).bind fun s _ hs => ?_
    refine (operand_matches (ih length (by simp [children]))).bind fun l _ hl => ?_
    subst ht hs hl
    exact (Matches.perform hW trap _).bind fun _ _ _ => .pure rfl
  | memoryFill target value length =>
    refine (operand_matches (ih target (by simp [children]))).bind fun t _ ht => ?_
    refine (operand_matches (ih value (by simp [children]))).bind fun v _ hv => ?_
    refine (operand_matches (ih length (by simp [children]))).bind fun l _ hl => ?_
    subst ht hv hl
    exact (Matches.perform hW trap _).bind fun _ _ _ => .pure rfl

/-- A local that a tree does not touch can be assigned before or after it. -/
theorem eval_setLocal {m s : Nat} (hs : m ≤ s) (v : Value) {e : Expr} (he : Below m e)
    (w : World h) :
    EndsMatch (World.Assigned s v) Eq Eq (eval h resolve bound e w)
      (eval h resolve bound e (w.setLocal s v)) :=
  eval_matches (World.assigned_localsOnly s v)
    (fun _ hi => World.assigned_shared v (by omega)) he w _ rfl

/-! ## Values and statements -/

/-- A value is settled just for a type that has one. -/
theorem settle_gives (ty : Ty) (v : Option Value) :
    Gives (fun v => v.isSome = (ty != .void)) (settle ty v : Run h Label (Option Value)) := by
  unfold settle
  split
  · next hty => exact .pure (by simp [hty])
  · next hty => exact .map fun v => by simp [hty]

/-- A jump carries a value just if its tree is one. -/
theorem carried_gives {e : Expr}
    (he : Gives (fun v => v.isSome = e.isValue) (eval h resolve bound e)) :
    Gives (fun v => v.isSome = e.isValue) (carried h resolve bound (some e)) := by
  refine Gives.seq (P := fun _ => e.isValue = true) (Gives.seq he fun v hv => ?_)
    fun v hv => .pure hv.symm
  cases v with
  | none => exact .throw
  | some v => exact .pure hv.symm

/-- A conditional branch that is not taken gives the value it carries. -/
theorem br_gives {label : Label} {condition : Expr} {value : Option Expr} {b : Bool}
    (hvalue : Gives (fun v => v.isSome = b) (carried h resolve bound value)) :
    Gives (fun v => v.isSome = b) (eval h resolve bound (.br label (some condition) value)) := by
  refine Gives.seq hvalue fun v hv => .bind fun c => ?_
  cases c with
  | none => exact .throw
  | some c =>
    dsimp only
    split
    · exact .throw
    · exact .pure hv

/-- A node gives a value exactly if its type is not `void`. -/
theorem eval_isSome : ∀ e : Expr, Gives (fun v => v.isSome = e.isValue) (eval h resolve bound e)
  | .localGet .. | .globalGet .. => .bind fun _ => .pure (Ty.keep_isSome _ _)
  | .localSet .. | .call .. | .load .. =>
    .bind fun _ => .bind fun _ => .pure (Ty.keep_isSome _ _)
  | .callIndirect .. | .select .. =>
    .bind fun _ => .bind fun _ => .bind fun _ => .pure (Ty.keep_isSome _ _)
  | .globalSet .. => .bind fun _ => .bind fun _ => .pure rfl
  | .const _ => .pure (by simp [isValue, Expr.ty])
  | .unary .. => .bind fun _ => .map fun _ => by simp [isValue, Expr.ty]
  | .binary .. => .bind fun _ => .bind fun _ => .map fun _ => by simp [isValue, Expr.ty]
  | .drop .. => .bind fun _ => .pure rfl
  | .ret .. => .bind fun _ => .throw
  | .nop => .pure rfl
  | .unreachable => .throw
  | .block .. | .loop .. => .bind fun v => settle_gives _ v
  | .ite .. => .bind fun _ => .bind fun v => settle_gives _ v
  | .br _ none _ => .bind fun _ => Gives.seq (P := (· = none)) (.pure rfl) fun _ hc => hc ▸ .throw
  | .br _ (some _) none => br_gives (.pure rfl)
  | .br _ (some _) (some e) => br_gives (carried_gives (eval_isSome e))
  | .switch .. => .bind fun _ => .bind fun _ => by
    split <;> exact .throw
  | .store .. => .bind fun _ => .bind fun _ => .bind fun _ => .pure rfl
  | .memorySize => .map fun _ => rfl
  | .memoryGrow .. => .bind fun _ => .map fun _ => rfl
  | .memoryCopy .. | .memoryFill .. =>
    .bind fun _ => .bind fun _ => .bind fun _ => .bind fun _ => .pure rfl

end

end Expr

end WasmLift
