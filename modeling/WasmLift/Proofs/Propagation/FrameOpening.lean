import WasmLift.Proofs.Listing.Completion
import WasmLift.Proofs.Propagation.StackSlots

/-!
# Functions that open a frame

The classification calls a function decompressed if its first three statements have the shape of an
`Opening` (`Compression.classify_eq_decompressed`). If the first two of them assign different
locals, the third leaves the stack pointer plus or minus the frame size, or the size minus the stack
pointer, in its local. The walk then writes a use of that local as the frame base, unless one of the
three locals is a parameter (`Framed.decompressed_opens`). A function that assigns both the stack
pointer and the size to one local is called decompressed, too, and so is one that uses a parameter
(`Framed.decompressed_astray`).
-/

namespace WasmLift

/-! ## The shape of an opening -/

/-- The first three statements of a function that opens a frame. The stack pointer goes to the local
`base`, a constant to the local `size`, and their sum or difference to the local `frame`. -/
structure Opening where
  base : Nat
  size : Nat
  frame : Nat
  amount : Value
  width : Width
  subtracts : Bool
  /-- The size is the left operand. -/
  sizeFirst : Bool
  pointerTy : Ty
  leftTy : Ty
  rightTy : Ty
  baseTy : Ty := .void
  sizeTy : Ty := .void
  frameTy : Ty := .void
deriving DecidableEq, Repr

namespace Opening

/-- The operation on the two locals. -/
def op (o : Opening) : BinOp :=
  .int o.width (if o.subtracts then .sub else .add)

/-- The local that the operation takes first. -/
def left (o : Opening) : Nat :=
  if o.sizeFirst then o.size else o.base

/-- The local that the operation takes second. -/
def right (o : Opening) : Nat :=
  if o.sizeFirst then o.base else o.size

/-- The statements of an opening. -/
def statements (o : Opening) (sp : Nat) : List Expr :=
  [.localSet o.base (.globalGet sp o.pointerTy) false o.baseTy,
    .localSet o.size (.const o.amount) false o.sizeTy,
    .localSet o.frame (.binary o.op (.localGet o.left o.leftTy) (.localGet o.right o.rightTy)) false
      o.frameTy]

/-- The nodes of an opening have the types that the operation takes. -/
structure Typed (o : Opening) : Prop where
  pointer : o.pointerTy = o.width.intTy
  amount : o.amount.ty = o.width.intTy
  left : o.leftTy = o.width.intTy
  right : o.rightTy = o.width.intTy

end Opening

namespace Compression

/-- A plain assignment is one of a local that is not also a value. -/
theorem plainSet?_eq_some {e value : Expr} {index : Nat} (he : plainSet? e = some (index, value)) :
    ∃ ty, e = .localSet index value false ty := by
  unfold plainSet? at he
  split at he
  · cases he
    exact ⟨_, rfl⟩
  · cases he

/-- What reads the stack pointer is a read of its global. -/
theorem readsStackPointer_eq {e : Expr} {sp : Nat} (he : readsStackPointer sp e = true) :
    ∃ ty, e = .globalGet sp ty := by
  unfold readsStackPointer at he
  split at he
  · cases eq_of_beq he
    exact ⟨_, rfl⟩
  · cases he

/-- An integer is a constant. -/
theorem integer?_eq_some {e : Expr} {n : Int} (he : integer? e = some n) :
    ∃ v, e = .const v ∧ v.asInteger? = some n := by
  unfold integer? at he
  split at he
  · exact ⟨_, rfl, he⟩
  · cases he

/-- A sum of locals is an addition or subtraction of two of them. -/
theorem sumOfLocals?_eq_some {e : Expr} {l r : Nat} (he : sumOfLocals? e = some (l, r)) :
    ∃ width t₁ t₂, ∃ subtracts : Bool, e = .binary (.int width (if subtracts then .sub else .add))
      (.localGet l t₁) (.localGet r t₂) := by
  unfold sumOfLocals? at he
  split at he
  · next op _ t₁ _ t₂ =>
    split at he
    · next hop =>
      cases he
      rw [Bool.or_eq_true] at hop
      rcases hop with hop | hop
      · unfold BinOp.isAdd at hop
        split at hop
        · exact ⟨_, t₁, t₂, false, rfl⟩
        · cases hop
      · unfold BinOp.isSub at hop
        split at hop
        · exact ⟨_, t₁, t₂, true, rfl⟩
        · cases hop
    · cases he
  · cases he

/-- The frame size is found if the statements begin with an opening, and then it is the constant of
that opening. -/
theorem frameSize?_eq_some {sp : Nat} {children : List Expr} {n : Int} :
    frameSize? sp children = some n ↔
      ∃ (o : Opening) (rest : List Expr), children = o.statements sp ++ rest ∧
        o.amount.asInteger? = some n := by
  constructor
  · intro hsize
    match children with
    | [] | [_] | [_, _] => cases hsize
    | first :: second :: third :: rest =>
      obtain ⟨⟨base, source⟩, hfirst, hsize⟩ := Option.bind_eq_some_iff.1 hsize
      obtain ⟨_, hsource, hsize⟩ := Option.bind_eq_some_iff.1 hsize
      obtain ⟨⟨size, constant⟩, hsecond, hsize⟩ := Option.bind_eq_some_iff.1 hsize
      obtain ⟨frameSize, hconstant, hsize⟩ := Option.bind_eq_some_iff.1 hsize
      obtain ⟨⟨frame, sum⟩, hthird, hsize⟩ := Option.bind_eq_some_iff.1 hsize
      obtain ⟨⟨left, right⟩, hsum, hsize⟩ := Option.bind_eq_some_iff.1 hsize
      obtain ⟨_, hlocals, hsize⟩ := Option.bind_eq_some_iff.1 hsize
      cases hsize
      obtain ⟨t₁, rfl⟩ := plainSet?_eq_some hfirst
      obtain ⟨t₂, rfl⟩ := plainSet?_eq_some hsecond
      obtain ⟨t₃, rfl⟩ := plainSet?_eq_some hthird
      obtain ⟨pointerTy, rfl⟩ := readsStackPointer_eq (of_guard hsource)
      obtain ⟨amount, rfl, hamount⟩ := integer?_eq_some hconstant
      obtain ⟨width, leftTy, rightTy, subtracts, rfl⟩ := sumOfLocals?_eq_some hsum
      have hlocals : left = base ∧ right = size ∨ left = size ∧ right = base := by
        simpa using of_guard hlocals
      rcases hlocals with ⟨rfl, rfl⟩ | ⟨rfl, rfl⟩
      · exact ⟨⟨left, right, frame, amount, width, subtracts, false, pointerTy, leftTy, rightTy,
          t₁, t₂, t₃⟩, rest, rfl, hamount⟩
      · exact ⟨⟨right, left, frame, amount, width, subtracts, true, pointerTy, leftTy, rightTy,
          t₁, t₂, t₃⟩, rest, rfl, hamount⟩
  · rintro ⟨o, rest, rfl, hamount⟩
    cases hop : o.subtracts <;> cases hfirst : o.sizeFirst <;>
      simp [Opening.statements, Opening.op, Opening.left, Opening.right, frameSize?, plainSet?,
        readsStackPointer, integer?, sumOfLocals?, BinOp.isAdd, BinOp.isSub, hamount, hop, hfirst]

/-- A function is decompressed if its body begins with an opening. -/
theorem classify_eq_decompressed {stackPointer : Option Nat} {f : Function} {n : Int} :
    classify stackPointer f = .decompressed n ↔
      ∃ (o : Opening) (sp : Nat) (label : Option Label) (rest : List Expr) (ty : Ty),
        stackPointer = some sp ∧ f.body? = some (.block label (o.statements sp ++ rest) ty) ∧
        o.amount.asInteger? = some n := by
  have hstatements : ∀ sp children, ofStatements sp children = .decompressed n ↔
      frameSize? sp children = some n := by
    intro sp children
    unfold ofStatements
    repeat' split
    all_goals simp_all
  cases hkind : f.kind with
  | imported moduleName base => simp [classify, Function.body?, hkind]
  | defined locals body =>
    simp only [classify, Function.body?, hkind, Option.some.injEq]
    constructor
    · intro hlevel
      cases body with
      | block label children ty =>
        cases stackPointer with
        | none => cases hlevel
        | some sp =>
          obtain ⟨o, rest, rfl, hamount⟩ :=
            frameSize?_eq_some.1 ((hstatements sp children).1 hlevel)
          exact ⟨o, sp, label, rest, ty, rfl, rfl, hamount⟩
      | _ => cases hlevel
    · rintro ⟨o, sp, label, rest, ty, rfl, rfl, hamount⟩
      exact (hstatements sp _).2 (frameSize?_eq_some.2 ⟨o, rest, rfl, hamount⟩)

end Compression

/-! ## Running an opening -/

/-- The difference of two integers of the same width. -/
def Value.difference? : Value → Value → Option Value
  | .i32 x, .i32 y => some (.i32 (x - y))
  | .i64 x, .i64 y => some (.i64 (x - y))
  | _, _ => none

/-- A number minus the value, if it is an integer. -/
def Value.fromNumber : Value → Int → Value
  | .i32 word, k => .i32 (BitVec.ofInt 32 k - word)
  | .i64 word, k => .i64 (BitVec.ofInt 64 k - word)
  | v, _ => v

/-- Integer addition and subtraction are those of words, and have a result for all words of their
width. -/
structure Host.ComputesWords (h : Host) : Prop where
  adds : h.AddsWords
  subtracts : ∀ width l r v, h.binary (.int width .sub) l r = .ok v → l.difference? r = some v
  defined : ∀ width (subtracts : Bool) l r, l.ty = width.intTy → r.ty = width.intTy →
    ∃ v, h.binary (.int width (if subtracts then .sub else .add)) l r = .ok v

/-- The value is the pointer plus the number, the pointer minus the number, or the number minus the
pointer. -/
def Value.IsDisplaced (pointer : Value) (n : Int) (v : Value) : Prop :=
  v = pointer.plus n ∨ v = pointer.plus (-n) ∨ v = pointer.fromNumber n

/-- Subtracting an integer is adding its negative. -/
theorem Value.difference?_plus {l r v : Value} {k : Int} (hr : r.asInteger? = some k)
    (hv : l.difference? r = some v) : v = l.plus (-k) := by
  cases l <;> cases r <;> simp_all [difference?, asInteger?, plus]
  all_goals
    subst hr
    simp [← hv, BitVec.ofInt_neg, BitVec.sub_eq_add_neg]

/-- What is subtracted from an integer is counted from that number. -/
theorem Value.difference?_fromNumber {l r v : Value} {k : Int} (hl : l.asInteger? = some k)
    (hv : l.difference? r = some v) : v = r.fromNumber k := by
  cases l <;> cases r <;> simp_all [difference?, asInteger?, fromNumber]
  all_goals
    subst hl
    simp [← hv]

namespace Expr

variable {h : Host} {resolve : NameId → Nat} {bound : Nat} {w w' : World h}

/-- An assignment that comes to its end has evaluated its value first. -/
theorem eval_localSet_ok {index : Nat} {e : Expr} {tee : Bool} {ty : Ty} {v : Option Value}
    (hrun : eval h resolve bound (.localSet index e tee ty) w = (.ok v, w')) :
    ∃ u w₁, eval h resolve bound e w = (.ok (some u), w₁) ∧ w' = w₁.setLocal index u := by
  rw [eval] at hrun
  obtain ⟨u, w₁, hu, hset⟩ := bind_ok hrun
  cases hset
  exact ⟨u, w₁, operand_ok hu, rfl⟩

/-- An assignment puts the value of its operand in the local. -/
theorem eval_localSet {index : Nat} {e : Expr} {tee : Bool} {ty : Ty} {u : Value}
    (hu : eval h resolve bound e w = (.ok (some u), w')) :
    eval h resolve bound (.localSet index e tee ty) w = (.ok (ty.keep u), w'.setLocal index u) := by
  rw [eval, bind_of_ok ((bind_of_ok hu _).trans rfl)]
  rfl

/-- A read gives what the local holds and changes nothing. -/
theorem eval_localGet_ok {index : Nat} {ty : Ty} {u : Value}
    (hrun : eval h resolve bound (.localGet index ty) w = (.ok (some u), w')) :
    u = w.locals index ∧ w' = w := by
  have hrun : (Except.ok (ty.keep (w.locals index)), w) = (.ok (some u), w') := hrun
  simp only [Prod.mk.injEq, Except.ok.injEq] at hrun
  exact ⟨(keep_some hrun.1).1.symm, hrun.2.symm⟩

/-- A read of a local that has a value comes to its end. -/
theorem eval_localGet {index : Nat} {ty : Ty} (hty : ty ≠ .void) :
    eval h resolve bound (.localGet index ty) w = (.ok (some (w.locals index)), w) := by
  have hkeep : ty.keep (w.locals index) = some (w.locals index) := if_neg hty
  rw [← hkeep]
  rfl

/-- An operation that comes to its end has evaluated both operands, the left one first. -/
theorem eval_binary_ok {op : BinOp} {left right : Expr} {u : Value}
    (hrun : eval h resolve bound (.binary op left right) w = (.ok (some u), w')) :
    ∃ x w₁ y, eval h resolve bound left w = (.ok (some x), w₁) ∧
      eval h resolve bound right w₁ = (.ok (some y), w') ∧ h.binary op x y = .ok u := by
  rw [eval] at hrun
  obtain ⟨x, w₁, hx, hrun⟩ := bind_ok hrun
  obtain ⟨y, w₂, hy, hrun⟩ := bind_ok hrun
  obtain ⟨hu, rfl⟩ := ofExcept_ok (map_some_ok hrun)
  exact ⟨x, w₁, y, operand_ok hx, operand_ok hy, hu⟩

/-- An operation gives what the host computes from both operands. -/
theorem eval_binary {op : BinOp} {left right : Expr} {x y u : Value} {w₁ : World h}
    (hx : eval h resolve bound left w = (.ok (some x), w₁))
    (hy : eval h resolve bound right w₁ = (.ok (some y), w')) (hu : h.binary op x y = .ok u) :
    eval h resolve bound (.binary op left right) w = (.ok (some u), w') := by
  rw [eval, bind_of_ok ((bind_of_ok hx _).trans rfl), bind_of_ok ((bind_of_ok hy _).trans rfl), hu]
  rfl

end Expr

namespace Opening

variable {h : Host} {resolve : NameId → Nat} {bound : Nat} {w w' : World h} {o : Opening} {sp : Nat}

/-- The operands of the operation, given the stack pointer. -/
def operands (o : Opening) (pointer : Value) : Value × Value :=
  if o.sizeFirst then (o.amount, pointer) else (pointer, o.amount)

/-- The world before the third statement. -/
def before (o : Opening) (sp : Nat) (w : World h) : World h :=
  let read : World h := { w with trace := .globalGet sp :: w.trace }
  (read.setLocal o.base (w.store.globals sp)).setLocal o.size o.amount

/-- Before the third statement, its two locals hold the stack pointer and the size. -/
theorem before_operands (hne : o.base ≠ o.size) :
    ((o.before sp w).locals o.left, (o.before sp w).locals o.right) =
      o.operands (w.store.globals sp) := by
  cases hfirst : o.sizeFirst <;>
    simp [left, right, operands, hfirst, before, World.setLocal, hne]

/-- A run that comes to the end of an opening leaves the result of the operation in its local. -/
theorem run_ok (hne : o.base ≠ o.size) {v : Option Value}
    (hrun : Expr.statements h resolve bound (o.statements sp) w = (.ok v, w')) :
    h.binary o.op (o.operands (w.store.globals sp)).1 (o.operands (w.store.globals sp)).2 =
      .ok (w'.locals o.frame) := by
  obtain ⟨vs, hvs⟩ := Expr.statements_ok hrun
  obtain ⟨v₁, w₁, vs₁, hfirst, hvs, -⟩ := Expr.runAll_cons_ok hvs
  obtain ⟨v₂, w₂, vs₂, hsecond, hvs, -⟩ := Expr.runAll_cons_ok hvs
  obtain ⟨v₃, w₃, vs₃, hthird, hnil, -⟩ := Expr.runAll_cons_ok hvs
  cases hnil
  obtain ⟨u₁, q₁, hread, rfl⟩ := Expr.eval_localSet_ok hfirst
  obtain ⟨u₂, q₂, hconst, rfl⟩ := Expr.eval_localSet_ok hsecond
  obtain ⟨u₃, q₃, hop, rfl⟩ := Expr.eval_localSet_ok hthird
  have hpointer : w.store.globals sp = u₁ ∧
      { w with trace := .globalGet sp :: w.trace } = q₁ := by
    have hread : (Except.ok (o.pointerTy.keep (w.store.globals sp)),
        { w with trace := .globalGet sp :: w.trace }) = (.ok (some u₁), q₁) := hread
    simp only [Prod.mk.injEq, Except.ok.injEq] at hread
    exact ⟨(Expr.keep_some hread.1).1, hread.2⟩
  obtain ⟨rfl, rfl⟩ := hpointer
  cases hconst
  obtain ⟨x, q, y, hx, hy, hu⟩ := Expr.eval_binary_ok hop
  obtain ⟨rfl, rfl⟩ := Expr.eval_localGet_ok hx
  obtain ⟨rfl, rfl⟩ := Expr.eval_localGet_ok hy
  rw [← before_operands hne]
  simpa [World.setLocal, before] using hu

/-- A typed opening runs to its end if the operation has a result. -/
theorem run_typed (hne : o.base ≠ o.size) (htyped : o.Typed) {u : Value}
    (hu : h.binary o.op (o.operands (w.store.globals sp)).1 (o.operands (w.store.globals sp)).2 =
      .ok u) :
    ∃ v w', Expr.statements h resolve bound (o.statements sp) w = (.ok v, w') := by
  have hint : o.width.intTy ≠ .void := Width.intTy_ne_void o.width
  have hfirst : Expr.eval h resolve bound (.globalGet sp o.pointerTy) w =
      (.ok (some (w.store.globals sp)), { w with trace := .globalGet sp :: w.trace }) := by
    have hkeep : o.pointerTy.keep (w.store.globals sp) = some (w.store.globals sp) :=
      if_neg (htyped.pointer ▸ hint)
    rw [← hkeep]
    rfl
  have hthird : Expr.eval h resolve bound
      (.binary o.op (.localGet o.left o.leftTy) (.localGet o.right o.rightTy)) (o.before sp w) =
        (.ok (some u), o.before sp w) := by
    rw [← before_operands hne] at hu
    exact Expr.eval_binary (Expr.eval_localGet (htyped.left ▸ hint))
      (Expr.eval_localGet (htyped.right ▸ hint)) hu
  refine ⟨o.frameTy.keep u, (o.before sp w).setLocal o.frame u, ?_⟩
  rw [statements, Expr.statements_cons_cons, bind_of_ok (Expr.eval_localSet hfirst),
    Expr.statements_cons_cons, bind_of_ok (Expr.eval_localSet rfl), Expr.statements]
  exact (bind_of_ok (Expr.eval_localSet hthird) _).trans rfl

/-- The result of the operation is the stack pointer displaced by the frame size. -/
theorem isDisplaced (hwords : h.ComputesWords) {n : Int} (hamount : o.amount.asInteger? = some n)
    {pointer v : Value} (hv : h.binary o.op (o.operands pointer).1 (o.operands pointer).2 = .ok v) :
    pointer.IsDisplaced n v := by
  cases hfirst : o.sizeFirst <;> cases hop : o.subtracts <;>
    simp only [op, operands, hfirst, hop, if_true, if_false, Bool.false_eq_true] at hv
  · exact .inl (Value.sum?_plus hamount (hwords.adds _ _ _ _ hv))
  · exact .inr (.inl (Value.difference?_plus hamount (hwords.subtracts _ _ _ _ hv)))
  · rw [Value.IsDisplaced]
    exact .inl (Value.sum?_plus hamount (Value.sum?_comm _ _ ▸ hwords.adds _ _ _ _ hv))
  · exact .inr (.inr (Value.difference?_fromNumber hamount (hwords.subtracts _ _ _ _ hv)))

/-- On words the operation of an opening has a result. -/
theorem operands_defined (hwords : h.ComputesWords) (htyped : o.Typed) {pointer : Value}
    (hpointer : pointer.ty = o.width.intTy) :
    ∃ v, h.binary o.op (o.operands pointer).1 (o.operands pointer).2 = .ok v := by
  refine hwords.defined o.width o.subtracts _ _ ?_ ?_ <;>
    cases hfirst : o.sizeFirst <;> simp [operands, hfirst, hpointer, htyped.amount]

end Opening

/-! ## Writing an opening -/

namespace Framed

variable {s : Surroundings} {st : FrameState}

/-- The code for a use of a local after it was assigned a value without effects: a parameter is
written as itself, any other local as the value. -/
def readsAs (s : Surroundings) (index : Nat) (value : Code) : Code :=
  if index < s.function.params.length then .param index else value

/-- While no local is a variable, an assignment of a value without effects decides how the local is
written from then on, and leaves alone how other locals are. -/
theorem localSet_readsAs {index : Nat} {d : Code}
    (hindex : index < s.function.params.length + s.function.locals.length)
    (hpure : d.hasEffects = false) (hst : Registered s st) (hplain : st.plain = []) :
    ∃ c st', localSet s index d false st = (.ok c, st') ∧ Registered s st' ∧ st'.plain = [] ∧
      localGet s index st' = (.ok (readsAs s index d), st') ∧
      ∀ i d', i ≠ index → localGet s i st = (.ok d', st) → localGet s i st' = (.ok d', st') := by
  obtain ⟨c, st', hset, hst'⟩ := localSet_returns d false hindex st hst
  refine ⟨c, st', hset, hst', ?_⟩
  by_cases hparam : index < s.function.params.length
  · have hsame : st = st' := by
      rw [localSet, if_pos hparam] at hset
      exact congrArg Prod.snd hset
    subst hsame
    exact ⟨hplain, by rw [readsAs, if_pos hparam, localGet_param hparam], fun _ _ _ hget => hget⟩
  rw [Nat.not_lt] at hparam
  obtain ⟨hplain', hknown⟩ := localSet_records hset hparam hpure hplain
  have hlength : st'.registers.length = st.registers.length := hst'.trans hst.symm
  refine ⟨hplain', ?_, fun i d' hne hget => ?_⟩
  · rw [readsAs, if_neg (Nat.not_lt.2 hparam),
      localGet_eq hparam (hlength ▸ localSet_slot hparam hset), hknown]
  · by_cases hi : i < s.function.params.length
    · rw [localGet_param hi] at hget ⊢
      cases hget
      rfl
    · rw [Nat.not_lt] at hi
      have hslot := localGet_slot hi hget
      rw [localGet_eq hi hslot] at hget
      -- a local of which nothing was known would have become a variable
      have hentry : known? s st i = some (some d') := by
        split at hget
        · next hnone => simp [known?, hplain] at hnone
        · next hsome => rw [hsome, Except.ok.inj (congrArg Prod.fst hget)]
        · have hinsert := congrArg FrameState.plain (congrArg Prod.snd hget)
          simp [hplain, insertSorted] at hinsert
      rw [localGet_eq hi (hlength ▸ hslot),
        (localSet_keepsEntry hi hne d false).after hentry hset]

/-- An operation on two locals is written as the operation on what they are written as. -/
theorem write_binary_readsAs {op : BinOp} {a b : Nat} {t₁ t₂ : Ty} {l r : Code}
    (hl : localGet s a st = (.ok l, st)) (hr : localGet s b st = (.ok r, st)) :
    write s (.binary op (.localGet a t₁) (.localGet b t₂)) st = (.ok (binary op l r), st) := by
  have hl : write s (.localGet a t₁) st = (.ok l, st) := hl
  have hr : write s (.localGet b t₂) st = (.ok r, st) := hr
  rw [write, Walk.expr, bind_of_ok hl, bind_of_ok hr]
  rfl

/-- An assignment is written as its value and then the assignment of it. -/
theorem write_localSet {index : Nat} {e : Expr} {ty : Ty} {d c : Code} {st₁ st₂ : FrameState}
    (he : write s e st = (.ok d, st₁)) (hset : localSet s index d false st₁ = (.ok c, st₂)) :
    write s (.localSet index e false ty) st = (.ok c, st₂) := by
  rw [write, Walk.expr, bind_of_ok he]
  exact hset

end Framed

namespace Opening

open Framed

variable {s : Surroundings} {o : Opening} {sp : Nat}

/-- The code for the operation of an opening. -/
def operation (o : Opening) (s : Surroundings) : Code :=
  let base := readsAs s o.base .stackPointer
  let size := readsAs s o.size (const s o.amount)
  if o.sizeFirst then binary o.op size base else binary o.op base size

/-- What a local reads as has no effect if its value has none. -/
theorem hasEffects_readsAs {index : Nat} {d : Code} (hd : d.hasEffects = false) :
    (readsAs s index d).hasEffects = false := by
  unfold readsAs
  split
  · rfl
  · exact hd

/-- An operation has no effect if neither operand has one. -/
theorem hasEffects_binary {op : BinOp} {l r : Code} (hl : l.hasEffects = false)
    (hr : r.hasEffects = false) : (binary op l r).hasEffects = false := by
  rcases binary_cases op l r with heq | ⟨heq, -, -⟩ | ⟨_, _, _, _, _, -, -, heq, -⟩
  · simp [heq, Code.hasEffects, hl, hr]
  · simp [heq, Code.hasEffects]
  · simp [heq, Code.hasEffects]

/-- The operation of an opening has no effect. -/
theorem hasEffects_operation : (o.operation s).hasEffects = false := by
  have hbase : (readsAs s o.base .stackPointer).hasEffects = false := hasEffects_readsAs rfl
  have hsize : (readsAs s o.size (const s o.amount)).hasEffects = false := hasEffects_readsAs rfl
  unfold operation
  split
  · exact hasEffects_binary hsize hbase
  · exact hasEffects_binary hbase hsize

/-- The walk comes to the end of an opening, and from then on the third local is written as the
operation on what the other two are written as. -/
theorem write_statements (hsp : s.stackPointer = some sp) (hne : o.base ≠ o.size)
    (hlocals : ∀ index ∈ [o.base, o.size, o.frame],
      index < s.function.params.length + s.function.locals.length) :
    ∃ codes st, writeAll s (o.statements sp) (initial s) = (.ok codes, st) ∧
      localGet s o.frame st = (.ok (readsAs s o.frame (o.operation s)), st) := by
  have hinitial : Registered s (initial s) := List.length_replicate
  have hpointer : write s (.globalGet sp o.pointerTy) (initial s) =
      (.ok .stackPointer, initial s) := by
    have hglobal : globalGet s sp = .stackPointer := if_pos hsp
    rw [← hglobal]
    rfl
  obtain ⟨c₁, st₁, hset₁, hst₁, hplain₁, hbase, -⟩ :=
    localSet_readsAs (hlocals o.base (by simp)) (d := .stackPointer) rfl hinitial rfl
  obtain ⟨c₂, st₂, hset₂, hst₂, hplain₂, hsize, hothers⟩ :=
    localSet_readsAs (hlocals o.size (by simp)) (d := const s o.amount) rfl hst₁ hplain₁
  have hbase := hothers _ _ hne hbase
  have hoperation : write s
      (.binary o.op (.localGet o.left o.leftTy) (.localGet o.right o.rightTy)) st₂ =
        (.ok (o.operation s), st₂) := by
    unfold left right operation
    split
    · exact write_binary_readsAs hsize hbase
    · exact write_binary_readsAs hbase hsize
  obtain ⟨c₃, st₃, hset₃, -, -, hframe, -⟩ :=
    localSet_readsAs (hlocals o.frame (by simp)) hasEffects_operation hst₂ hplain₂
  refine ⟨[c₁, c₂, c₃], st₃, ?_, hframe⟩
  exact Walk.exprs_cons (write_localSet hpointer hset₁) (Walk.exprs_cons
    (write_localSet rfl hset₂) (Walk.exprs_single (write_localSet hoperation hset₃)))

/-- The third local of an opening is written as the frame base, unless one of the three is a
parameter. -/
theorem readsAs_stackBase {n : Int} (hamount : o.amount.asInteger? = some n) :
    readsAs s o.frame (o.operation s) = .stackBase ↔
      ∀ index ∈ [o.base, o.size, o.frame], s.function.params.length ≤ index := by
  simp only [List.forall_mem_cons, List.not_mem_nil, false_imp_iff, implies_true, and_true,
    ← Nat.not_lt]
  by_cases hbase : o.base < s.function.params.length <;>
    by_cases hsize : o.size < s.function.params.length <;>
    by_cases hframe : o.frame < s.function.params.length <;>
    cases hop : o.subtracts <;> cases hfirst : o.sizeFirst <;>
    simp [readsAs, operation, hbase, hsize, hframe, hop, hfirst, op, binary, frameAddress?,
      integer?, const, hamount, isStackPointer, BinOp.isAdd, BinOp.isSub, displaced?]

/-- The locals of an opening are those of the function. -/
theorem locals_lt {f : Function} {label : Option Label} {rest : List Expr} {ty : Ty}
    (hbody : f.body? = some (.block label (o.statements sp ++ rest) ty)) (hf : f.InRange) :
    ∀ index ∈ [o.base, o.size, o.frame], index < f.params.length + f.locals.length := by
  have hstatement : ∀ e ∈ o.statements sp, e.Below (f.params.length + f.locals.length) :=
    fun e he => (hf _ hbody).child (List.mem_append_left rest he)
  simp only [statements, List.forall_mem_cons] at hstatement
  obtain ⟨hbase, hsize, hframe, -⟩ := hstatement
  simp only [List.forall_mem_cons]
  exact ⟨hbase.own rfl, hsize.own rfl, hframe.own rfl, nofun⟩

end Opening

namespace Framed

/-- A function that is called decompressed begins with an opening, whose constant is the frame size.
If the opening assigns the stack pointer and the size to different locals, then

* a run of it leaves the stack pointer displaced by the frame size in the third local, and it comes
  to its end if the types fit;
* the walk comes to its end, too, and from then on the third local is written as the frame base if
  and only if none of the three locals is a parameter. -/
theorem decompressed_opens {s : Surroundings} {n : Int}
    (hlevel : Compression.classify s.stackPointer s.function = .decompressed n) :
    ∃ (o : Opening) (sp : Nat) (label : Option Label) (rest : List Expr) (ty : Ty),
      s.stackPointer = some sp ∧
      s.function.body? = some (.block label (o.statements sp ++ rest) ty) ∧
      o.amount.asInteger? = some n ∧
      (o.base ≠ o.size →
        (∀ h : Host, h.ComputesWords → ∀ resolve bound (w : World h),
          (∀ v w', Expr.statements h resolve bound (o.statements sp) w = (.ok v, w') →
            (w.store.globals sp).IsDisplaced n (w'.locals o.frame)) ∧
          (o.Typed → (w.store.globals sp).ty = o.width.intTy →
            ∃ v w', Expr.statements h resolve bound (o.statements sp) w = (.ok v, w'))) ∧
        (s.function.InRange →
          ∃ codes st, writeAll s (o.statements sp) (initial s) = (.ok codes, st) ∧
            (localGet s o.frame st = (.ok .stackBase, st) ↔
              ∀ index ∈ [o.base, o.size, o.frame], s.function.params.length ≤ index))) := by
  obtain ⟨o, sp, label, rest, ty, hsp, hbody, hamount⟩ :=
    Compression.classify_eq_decompressed.1 hlevel
  refine ⟨o, sp, label, rest, ty, hsp, hbody, hamount, fun hne => ⟨?_, fun hf => ?_⟩⟩
  · intro h hwords resolve bound w
    refine ⟨fun v w' hrun => o.isDisplaced hwords hamount (o.run_ok hne hrun), ?_⟩
    intro htyped hpointer
    obtain ⟨u, hu⟩ := o.operands_defined hwords htyped hpointer
    exact o.run_typed hne htyped hu
  · obtain ⟨codes, st, hwritten, hframe⟩ :=
      o.write_statements hsp hne (o.locals_lt hbody hf)
    refine ⟨codes, st, hwritten, ?_⟩
    rw [hframe, ← Opening.readsAs_stackBase hamount]
    constructor
    · intro heq
      exact Except.ok.inj (congrArg Prod.fst heq)
    · intro heq
      rw [heq]

/-- Surroundings in which integers are added and subtracted. -/
def words : Host where
  Memory := Unit
  unary _ _ := .error (.failed "unary")
  binary op l r :=
    match op with
    | .int _ .add => (l.sum? r).elim (.error (.failed "add")) .ok
    | .int _ .sub => (l.difference? r).elim (.error (.failed "sub")) .ok
    | _ => .error (.failed "binary")
  load _ _ _ _ := .error (.failed "load")
  memorySize _ := .i32 0
  update _ memory := (.error (.failed "update"), memory)
  call _ _ store := (.ok (.i32 0), store)

/-- The parameter is `300`, the other locals are `0`, and the stack pointer is `100`. -/
def idle : World words where
  locals i := if i = 0 then .i32 300 else .i32 0
  store := ⟨fun _ => .i32 100, ()⟩
  trace := []

/-- The host that adds and subtracts integers computes words. -/
theorem words_computesWords : words.ComputesWords where
  adds width l r v hv := by
    cases hsum : l.sum? r with
    | none => simp [words, hsum] at hv
    | some u => simpa [words, hsum] using hv
  subtracts width l r v hv := by
    cases hdifference : l.difference? r with
    | none => simp [words, hdifference] at hv
    | some u => simpa [words, hdifference] using hv
  defined width subtracts l r hl hr := by
    cases width <;> cases subtracts <;> cases l <;> cases hl <;> cases r <;> cases hr <;>
      exact ⟨_, rfl⟩

/-- An opening of a frame of 16 bytes, with the given locals. -/
def opening (base size frame : Nat) : Opening :=
  { base, size, frame, amount := .i32 16, width := .w32, subtracts := true, sizeFirst := false
    pointerTy := .i32, leftTy := .i32, rightTy := .i32 }

/-- The body of a function that opens a frame and returns its base. -/
def opens (base size frame : Nat) : List Expr :=
  (opening base size frame).statements 0 ++ [Expr.localGet frame .i32]

/-- Where the three locals are no parameters, the third holds the frame base and is written as
such. -/
theorem decompressed_opens_locals :
    Compression.classify (some 0) (trial (opens 1 2 3)).function = .decompressed 16 ∧
      (∃ v w', Expr.statements words NameId.slot 0 ((opening 1 2 3).statements 0) idle =
        (.ok v, w') ∧ (Value.i32 100).IsDisplaced 16 (w'.locals 3)) ∧
      ∃ codes st, writeAll (trial (opens 1 2 3)) ((opening 1 2 3).statements 0)
          (initial (trial (opens 1 2 3))) = (.ok codes, st) ∧
        localGet (trial (opens 1 2 3)) 3 st = (.ok .stackBase, st) := by
  have hlevel :
      Compression.classify (some 0) (trial (opens 1 2 3)).function = .decompressed 16 := by
    decide +kernel
  obtain ⟨o, sp, label, rest, ty, hsp, hbody, -, hopens⟩ :=
    decompressed_opens (s := trial (opens 1 2 3)) hlevel
  cases hsp
  -- there is no other way to read the statements
  have ho : o = opening 1 2 3 := by
    obtain ⟨base, size, frame, amount, width, subtracts, sizeFirst, _, _, _, _, _, _⟩ := o
    cases subtracts <;> cases sizeFirst <;> cases hbody
    rfl
  subst ho
  obtain ⟨hrun, hwritten⟩ := hopens (by decide)
  obtain ⟨hdisplaced, hcompletes⟩ := hrun words words_computesWords NameId.slot 0 idle
  obtain ⟨v, w', hend⟩ := hcompletes ⟨rfl, rfl, rfl, rfl⟩ rfl
  obtain ⟨codes, st, hcodes, hbase⟩ := hwritten (by
    intro body hbody
    cases hbody
    rw [Expr.below_iff]
    decide +kernel)
  exact ⟨hlevel, ⟨v, w', hend, hdisplaced v w' hend⟩, codes, st, hcodes, hbase.2 (by decide)⟩

/-- Functions that are called decompressed and nevertheless do not open a frame. The first assigns
the stack pointer to a parameter, and its third local is not written as the frame base. The second
assigns both the stack pointer and the size to one local, and its third local is `0`. -/
theorem decompressed_astray :
    (Compression.classify (some 0) (trial (opens 0 1 2)).function = .decompressed 16 ∧
      ∃ codes st, writeAll (trial (opens 0 1 2)) ((opening 0 1 2).statements 0)
          (initial (trial (opens 0 1 2))) = (.ok codes, st) ∧
        (localGet (trial (opens 0 1 2)) 2 st).1 ≠ .ok .stackBase) ∧
    (Compression.classify (some 0) (trial (opens 1 1 2)).function = .decompressed 16 ∧
      ∃ v w', Expr.statements words NameId.slot 0 ((opening 1 1 2).statements 0) idle =
        (.ok v, w') ∧ ¬ (Value.i32 100).IsDisplaced 16 (w'.locals 2)) := by
  refine ⟨⟨by decide +kernel, _, _, rfl, ?_⟩, by decide +kernel, _, _, rfl, ?_⟩
  · intro hbase
    cases hbase
  · rintro (hplus | hminus | hfrom)
    · cases hplus
    · cases hminus
    · cases hfrom

end Framed

end WasmLift
