import WasmLift.Proofs.Expansion.Frames

/-!
# Rebuilding operators

Operators that take and give operands only keep the invariant (`Builder.operator_keeps`): the
operands come off the frame in the order of the stack, and the node that takes them does what the
operator does to their values (`Operator.act_matches`).
-/

namespace WasmLift

open Run

/-! ## What operators do -/

section
variable {h : Host} {scope : Scope} {locals : List Ty} {op : Operator} {taken given : Nat}

/-- An operator runs alike in a tree and on the stack, and gives at most one result. -/
theorem Operator.act_matches {X : Exit Label → Exit Nat → Prop}
    (hX : ∀ t, X (.trap t) (.trap t)) (ha : op.arity? scope = some (taken, given))
    (hs : Instr.Admits scope locals op) {args : List Value} (hargs : args.length = taken) :
    Matches (World.SameBelow locals.length) X (fun v results => results = v.toList)
      (List.head? <$> (op.act scope args : Run h Label (List Value)))
      (op.act scope args : Run h Nat (List Value)) := by
  have hW := World.sameBelow_localsOnly (h := h) locals.length
  have shared : ∀ {i ty}, locals[i]? = some ty →
      SharedLocal (World.SameBelow (h := h) locals.length) i := fun hi =>
    World.sameBelow_shared (List.getElem?_eq_some_iff.1 hi).1
  cases op with
  | const value =>
    cases ha
    obtain rfl := List.length_eq_zero_iff.1 hargs
    simp only [act, map_pure]
    exact .pure rfl
  | localGet index =>
    cases ha
    obtain rfl := List.length_eq_zero_iff.1 hargs
    obtain ⟨ty, hty, -⟩ := hs
    simp only [act, map_bind, map_pure]
    exact (Matches.getLocal (shared hty)).bind fun v _ hv => .pure (hv ▸ rfl)
  | localSet index =>
    cases ha
    obtain ⟨v, rfl⟩ := List.length_eq_one_iff.1 hargs
    obtain ⟨ty, hty, -⟩ := hs
    simp only [act, map_bind, map_pure]
    exact (Matches.setLocal (shared hty) v).bind fun _ _ _ => .pure rfl
  | localTee index =>
    cases ha
    obtain ⟨v, rfl⟩ := List.length_eq_one_iff.1 hargs
    obtain ⟨ty, hty, -⟩ := hs
    simp only [act, map_bind, map_pure]
    exact (Matches.setLocal (shared hty) v).bind fun _ _ _ => .pure rfl
  | globalGet index =>
    cases ha
    obtain rfl := List.length_eq_zero_iff.1 hargs
    simp only [act, map_bind, map_pure]
    exact (Matches.perform hW hX _).bind fun v _ hv => .pure (hv ▸ rfl)
  | globalSet index =>
    cases ha
    obtain ⟨v, rfl⟩ := List.length_eq_one_iff.1 hargs
    simp only [act, map_bind, map_pure]
    exact (Matches.perform hW hX _).bind fun _ _ _ => .pure rfl
  | unary op =>
    cases ha
    obtain ⟨v, rfl⟩ := List.length_eq_one_iff.1 hargs
    simp only [act, map_bind, map_pure]
    exact (Matches.ofExcept hX _).bind fun v _ hv => .pure (hv ▸ rfl)
  | binary op =>
    cases ha
    obtain ⟨r, l, rfl⟩ := List.length_eq_two.1 hargs
    simp only [act, map_bind, map_pure]
    exact (Matches.ofExcept hX _).bind fun v _ hv => .pure (hv ▸ rfl)
  | load shape m =>
    cases ha
    obtain ⟨a, rfl⟩ := List.length_eq_one_iff.1 hargs
    simp only [act, map_bind, map_pure]
    exact (Matches.perform hW hX _).bind fun v _ hv => .pure (hv ▸ rfl)
  | store shape m =>
    cases ha
    obtain ⟨v, a, rfl⟩ := List.length_eq_two.1 hargs
    simp only [act, map_bind, map_pure]
    exact (Matches.perform hW hX _).bind fun _ _ _ => .pure rfl
  | memorySize memory =>
    cases memory <;> cases ha
    obtain rfl := List.length_eq_zero_iff.1 hargs
    simp only [act, map_bind, map_pure]
    exact (Matches.perform hW hX _).bind fun v _ hv => .pure (hv ▸ rfl)
  | memoryGrow memory =>
    cases memory <;> cases ha
    obtain ⟨v, rfl⟩ := List.length_eq_one_iff.1 hargs
    simp only [act, map_bind, map_pure]
    exact (Matches.perform hW hX _).bind fun v _ hv => .pure (hv ▸ rfl)
  | memoryCopy target source =>
    cases target <;> cases source <;> cases ha
    obtain ⟨l, s, t, rfl⟩ := List.length_eq_three.1 hargs
    simp only [act, map_bind, map_pure]
    exact (Matches.perform hW hX _).bind fun _ _ _ => .pure rfl
  | memoryFill memory =>
    cases memory <;> cases ha
    obtain ⟨l, v, t, rfl⟩ := List.length_eq_three.1 hargs
    simp only [act, map_bind, map_pure]
    exact (Matches.perform hW hX _).bind fun _ _ _ => .pure rfl
  | nop =>
    cases ha
    obtain rfl := List.length_eq_zero_iff.1 hargs
    simp only [act, map_pure]
    exact .pure rfl
  | call function =>
    obtain ⟨s, hcallee, -⟩ := Option.map_eq_some_iff.1 ha
    simp only [act, hcallee, map_bind, map_pure]
    exact (Matches.perform hW hX _).bind fun v _ hv => .pure (by subst hv; cases s.result <;> rfl)
  | callIndirect type table =>
    cases table with
    | succ => cases ha
    | zero =>
    obtain ⟨s, hcallee, hs⟩ := Option.map_eq_some_iff.1 ha
    cases hs
    obtain ⟨index, args, rfl⟩ := List.exists_cons_of_length_eq_add_one hargs
    simp only [act, hcallee, map_bind, map_pure]
    exact (Matches.perform hW hX _).bind fun v _ hv => .pure (by subst hv; cases s.result <;> rfl)
  | drop =>
    cases ha
    obtain ⟨v, rfl⟩ := List.length_eq_one_iff.1 hargs
    simp only [act, map_pure]
    exact .pure rfl
  | select | typedSelect =>
    cases ha
    obtain ⟨c, e, t, rfl⟩ := List.length_eq_three.1 hargs
    simp only [act, map_pure]
    exact .pure rfl
  | unreachable | block | loop | ifThen | elseArm | finish | br | brIf | brTable | ret | refFunc
  | other => cases ha

theorem Instr.execPlain_operator (labels : List Ty) (ha : op.arity? scope = some (taken, given))
    (stack : List Value) :
    execPlain scope labels op stack =
      if taken ≤ stack.length then do
        let results ← op.act scope (stack.take taken)
        return results ++ stack.drop taken
      else (throw .stuck : Run h Nat (List Value)) := by
  unfold execPlain
  split
  case h_6 => rw [ha]
  all_goals cases ha

end

/-- Every function has a name of its own, and `resolve` finds the function by it. -/
structure Scope.Resolves (scope : Scope) (resolve : NameId → Nat) : Prop where
  named : scope.funcTypes.length ≤ scope.funcNames.length
  found : ∀ i id, scope.funcNames[i]? = some id → resolve id = i

namespace Builder

section
variable {h : Host} {resolve : NameId → Nat} {bound : Nat} {scope : Scope} {locals labels : List Ty}
  {b₀ b : Builder} {es : List Expr} {k : Nat} {M : Run h Nat (List Value)} {op : Operator}
  {taken given : Nat}

/-- A node that does what an operator does to the values of its operands. -/
theorem performs_operator {frames : List Frame} {e : Expr}
    (ha : op.arity? scope = some (taken, given)) (hs : Instr.Admits scope locals op)
    (hes : es.length = taken)
    (heval : Expr.eval h resolve bound e = Expr.operands h resolve bound es >>= fun vs =>
      List.head? <$> op.act scope vs.reverse) :
    Performs h resolve bound locals.length frames es e
      (fun vs => List.head? <$> op.act scope vs.reverse)
      (Instr.execPlain scope labels op) where
  eval w _ := congrFun heval w
  step vs stack hvs := by
    have hlength : vs.reverse.length = taken := by simp [hvs, hes]
    rw [Instr.execPlain_operator labels ha, if_pos (by simp [hvs, hes]), ← hlength,
      List.take_left, List.drop_left, ← bind_pure (List.head? <$> _)]
    refine (Operator.act_matches Frame.Follows.trap ha hs hlength).bind fun v r hr => ?_
    exact .pure (by rw [hr])

theorem push_operator {e : Expr} (ha : op.arity? scope = some (taken, given))
    (hs : Instr.Admits scope locals op)
    (hb : Taking h resolve bound locals labels b₀ es k M b) (hes : es.length = taken)
    (heval : Expr.eval h resolve bound e = Expr.operands h resolve bound es >>= fun vs =>
      List.head? <$> op.act scope vs.reverse)
    (hchildren : ∀ c ∈ e.children, c ∈ es)
    (hown : ∀ i, e.ownLocal? = some i → i < locals.length)
    (hty : e.ty.arity = given) (hterm : e.isTerminator = false) :
    Yields (push e) b fun _ b' => Taking h resolve bound locals labels b₀ [] (given + k)
      (M >>= Instr.execPlain scope labels op) b' := by
  rw [← hty]
  refine push_keeps hb (fun hn hbelow => ?_) (performs_operator ha hs hes heval) hterm
  exact .node (fun i hi => Nat.lt_of_lt_of_le (hown i hi) hn) fun c hc => hbelow c (hchildren c hc)

theorem localTy_run (hb : Taking h resolve bound locals labels b₀ es k M b) {i : Nat} {ty : Ty}
    (hi : locals[i]? = some ty) : localTy i b = .ok (ty, b) := by
  obtain ⟨-, f, outer, hs, -, -⟩ := hb
  obtain ⟨rest, hrest⟩ := hs.declared
  have hlt := (List.getElem?_eq_some_iff.1 hi).1
  have hget : b.locals[i]? = some ty := by rw [← hrest, List.getElem?_append_left hlt, hi]
  rw [localTy, bind_run (a := b) rfl, hget]
  rfl

theorem globalTy_run {i : Nat} {ty : Ty} (hi : scope.globalTypes[i]? = some ty) :
    globalTy scope i b = .ok (ty, b) := by
  rw [globalTy, hi]
  rfl

/-- The operand taken last has a value. -/
theorem Taking.ty_ne_void {e : Expr}
    (hb : Taking h resolve bound locals labels b₀ (e :: es) k M b) : e.ty ≠ .void := by
  obtain ⟨-, f, outer, hs, -, -⟩ := hb
  simpa [Expr.isValue] using hs.values e (.head _)

theorem ofFuncType_ok {type : FuncType} {s : Signature}
    (hs : (Signature.ofFuncType type).toOption = some s) : Signature.ofFuncType type = .ok s := by
  cases hsignature : Signature.ofFuncType type with
  | error => rw [hsignature] at hs; cases hs
  | ok => rw [hsignature] at hs; cases hs; rfl

theorem callFunction_eq (hresolve : scope.Resolves resolve) {function : Nat} {s : Signature}
    (hs : scope.callee? function = some s) :
    ∃ target, scope.funcNames[function]? = some target ∧ callFunction scope function =
      takeValues "call arguments" s.params.length [] >>= fun args =>
        push (.call target args s.result) := by
  obtain ⟨type, htype, hsignature⟩ := Option.bind_eq_some_iff.1 hs
  have hlt := Nat.lt_of_lt_of_le (List.getElem?_eq_some_iff.1 htype).1 hresolve.named
  refine ⟨scope.funcNames[function], List.getElem?_eq_getElem hlt, ?_⟩
  rw [callFunction, htype, List.getElem?_eq_getElem hlt]
  dsimp only
  rw [ofFuncType_ok hsignature]
  rfl

theorem callTable_eq {type : Nat} {s : Signature} (hs : scope.declared? type = some s) :
    callTable scope type 0 =
      takeValue "call_indirect table index" >>= fun target =>
        takeValues "call_indirect arguments" s.params.length [] >>= fun args =>
          push (.callIndirect target args s.result) := by
  obtain ⟨type, htype, hsignature⟩ := Option.bind_eq_some_iff.1 hs
  rw [callTable, if_neg (by simp), htype]
  dsimp only
  rw [ofFuncType_ok hsignature]
  rfl

theorem arity_of_ne_void {ty : Ty} (hty : ty ≠ .void) : ty.arity = 1 := if_neg hty

/-- Rebuilding an operator that takes and gives operands only. -/
theorem operator_keeps (hresolve : scope.Resolves resolve)
    (ha : op.arity? scope = some (taken, given)) (hs : Instr.Admits scope locals op)
    (hb : Taking h resolve bound locals labels b₀ [] (taken + k) M b) :
    Yields (rebuildLive scope op) b fun _ b' =>
      Taking h resolve bound locals labels b₀ [] (given + k)
        (M >>= Instr.execPlain scope labels op) b' := by
  have one : ∀ {n}, 1 + n = n + 1 := fun {n} => Nat.add_comm 1 n
  cases op with
  | const value =>
    cases ha
    rw [Nat.zero_add] at hb
    exact push_operator rfl hs hb rfl (by simp [Expr.eval, Expr.operands, Operator.act])
      (by simp [Expr.children]) (by rintro _ ⟨⟩) (arity_of_ne_void (by simp [Expr.ty])) rfl
  | localGet index =>
    cases ha
    rw [Nat.zero_add] at hb
    obtain ⟨ty, hty, hvoid⟩ := id hs
    refine .after (localTy_run hb hty) ?_
    refine push_operator rfl hs hb rfl ?_ ?_ ?_ ?_ rfl
    · simp [Expr.eval, Expr.operands, Operator.act, Ty.keep, hvoid]
    · simp [Expr.children]
    · rintro i ⟨⟩
      exact (List.getElem?_eq_some_iff.1 hty).1
    · exact arity_of_ne_void hvoid
  | localSet index =>
    cases ha
    rw [one] at hb
    obtain ⟨ty, hty, hvoid⟩ := id hs
    refine .after (localTy_run hb hty) ?_
    refine (takeValue_keeps _ hb).bind fun e b₁ hb₁ => ?_
    refine push_operator rfl hs hb₁ rfl ?_ ?_ ?_ rfl rfl
    · simp [Expr.eval, Expr.operands, Operator.act, Ty.keep]
    · simp [Expr.children]
    · rintro i ⟨⟩
      exact (List.getElem?_eq_some_iff.1 hty).1
  | localTee index =>
    cases ha
    rw [one] at hb
    obtain ⟨ty, hty, hvoid⟩ := id hs
    refine .after (localTy_run hb hty) ?_
    refine (takeValue_keeps _ hb).bind fun e b₁ hb₁ => ?_
    refine push_operator rfl hs hb₁ rfl ?_ ?_ ?_ ?_ rfl
    · simp [Expr.eval, Expr.operands, Operator.act, Ty.keep, hvoid]
    · simp [Expr.children]
    · rintro i ⟨⟩
      exact (List.getElem?_eq_some_iff.1 hty).1
    · exact arity_of_ne_void hvoid
  | globalGet index =>
    cases ha
    rw [Nat.zero_add] at hb
    obtain ⟨ty, hty, hvoid⟩ := id hs
    refine .after (globalTy_run hty) ?_
    refine push_operator rfl hs hb rfl ?_ ?_ (by rintro _ ⟨⟩) (arity_of_ne_void hvoid) rfl
    · simp [Expr.eval, Expr.operands, Operator.act, Ty.keep, hvoid]
    · simp [Expr.children]
  | globalSet index =>
    cases ha
    rw [one] at hb
    obtain ⟨ty, hty, -⟩ := id hs
    refine .after (globalTy_run hty) ?_
    refine (takeValue_keeps _ hb).bind fun e b₁ hb₁ => ?_
    refine push_operator rfl hs hb₁ rfl ?_ ?_ (by rintro _ ⟨⟩) rfl rfl
    · simp [Expr.eval, Expr.operands, Operator.act]
    · simp [Expr.children]
  | unary op =>
    cases ha
    rw [one] at hb
    refine (takeValue_keeps _ hb).bind fun e b₁ hb₁ => ?_
    refine push_operator rfl hs hb₁ rfl ?_ ?_ (by rintro _ ⟨⟩)
      (arity_of_ne_void (by simp [Expr.ty])) rfl
    · simp [Expr.eval, Expr.operands, Operator.act]
    · simp [Expr.children]
  | binary op =>
    cases ha
    rw [Nat.add_comm] at hb
    refine (takeValue_keeps _ hb).bind fun right b₁ hb₁ => ?_
    refine (takeValue_keeps _ hb₁).bind fun left b₂ hb₂ => ?_
    refine push_operator rfl hs hb₂ rfl ?_ ?_ (by rintro _ ⟨⟩)
      (arity_of_ne_void (by simp [Expr.ty])) rfl
    · simp [Expr.eval, Expr.operands, Operator.act]
    · simp [Expr.children]
  | load shape m =>
    cases ha
    rw [one] at hb
    refine (takeValue_keeps _ hb).bind fun e b₁ hb₁ => ?_
    refine push_operator rfl hs hb₁ rfl ?_ ?_ (by rintro _ ⟨⟩) (arity_of_ne_void hs.2) rfl
    · simp [Expr.eval, Expr.operands, Operator.act, Ty.keep, hs.2, memArg]
    · simp [Expr.children]
  | store shape m =>
    cases ha
    rw [Nat.add_comm] at hb
    refine (takeValue_keeps _ hb).bind fun value b₁ hb₁ => ?_
    refine (takeValue_keeps _ hb₁).bind fun address b₂ hb₂ => ?_
    refine push_operator rfl hs hb₂ rfl ?_ ?_ (by rintro _ ⟨⟩) rfl rfl
    · simp [Expr.eval, Expr.operands, Operator.act, memArg]
    · simp [Expr.children]
  | memorySize memory =>
    cases memory <;> cases ha
    rw [Nat.zero_add] at hb
    refine push_operator rfl hs hb rfl ?_ ?_ (by rintro _ ⟨⟩) rfl rfl
    · simp [Expr.eval, Expr.operands, Operator.act]
    · simp [Expr.children]
  | memoryGrow memory =>
    cases memory <;> cases ha
    rw [one] at hb
    refine (takeValue_keeps _ hb).bind fun e b₁ hb₁ => ?_
    refine push_operator rfl hs hb₁ rfl ?_ ?_ (by rintro _ ⟨⟩) rfl rfl
    · simp [Expr.eval, Expr.operands, Operator.act]
    · simp [Expr.children]
  | memoryCopy target source =>
    cases target <;> cases source <;> cases ha
    rw [Nat.add_comm] at hb
    refine (takeValue_keeps _ hb).bind fun length b₁ hb₁ => ?_
    refine (takeValue_keeps _ hb₁).bind fun source b₂ hb₂ => ?_
    refine (takeValue_keeps _ hb₂).bind fun target b₃ hb₃ => ?_
    refine push_operator rfl hs hb₃ rfl ?_ ?_ (by rintro _ ⟨⟩) rfl rfl
    · simp [Expr.eval, Expr.operands, Operator.act]
    · simp [Expr.children]
  | memoryFill memory =>
    cases memory <;> cases ha
    rw [Nat.add_comm] at hb
    refine (takeValue_keeps _ hb).bind fun length b₁ hb₁ => ?_
    refine (takeValue_keeps _ hb₁).bind fun value b₂ hb₂ => ?_
    refine (takeValue_keeps _ hb₂).bind fun target b₃ hb₃ => ?_
    refine push_operator rfl hs hb₃ rfl ?_ ?_ (by rintro _ ⟨⟩) rfl rfl
    · simp [Expr.eval, Expr.operands, Operator.act]
    · simp [Expr.children]
  | nop =>
    have hnop : (M >>= Instr.execPlain scope labels .nop) = M := by
      rw [← bind_pure M, bind_assoc]
      refine bind_congr fun stack => ?_
      rw [pure_bind, Instr.execPlain_operator labels ha]
      cases ha
      simp [Operator.act]
    cases ha
    rw [hnop]
    exact .pure hb
  | call function =>
    obtain ⟨s, hcallee, hst⟩ := Option.map_eq_some_iff.1 ha
    cases hst
    obtain ⟨target, htarget, hcall⟩ := callFunction_eq hresolve hcallee
    rw [rebuildLive, hcall]
    refine (takeValues_keeps _ _ [] hb).bind fun args b₁ hb₁ => ?_
    rw [List.append_nil] at hb₁
    refine push_operator ha hs hb₁.2 hb₁.1 ?_ ?_ (by rintro _ ⟨⟩) rfl rfl
    · simp [Expr.eval, Operator.act, hcallee, hresolve.found _ _ htarget]
    · simp [Expr.children]
  | callIndirect type table =>
    cases table with
    | succ => cases ha
    | zero =>
    obtain ⟨s, hcallee, hst⟩ := Option.map_eq_some_iff.1 ha
    cases hst
    rw [rebuildLive, callTable_eq hcallee]
    rw [Nat.add_right_comm] at hb
    refine (takeValue_keeps _ hb).bind fun target b₁ hb₁ => ?_
    refine (takeValues_keeps _ _ [] hb₁).bind fun args b₂ hb₂ => ?_
    refine push_operator ha hs hb₂.2 (by simp [hb₂.1]) ?_ ?_ (by rintro _ ⟨⟩) rfl rfl
    · simp [Expr.eval, Expr.operands_append, Expr.operands, Operator.act, hcallee]
    · simp [Expr.children]
  | drop =>
    cases ha
    rw [one] at hb
    refine (takeValue_keeps _ hb).bind fun e b₁ hb₁ => ?_
    refine push_operator rfl hs hb₁ rfl ?_ ?_ (by rintro _ ⟨⟩) rfl rfl
    · simp [Expr.eval, Expr.operands, Operator.act]
    · simp [Expr.children]
  | select | typedSelect =>
    cases ha
    rw [Nat.add_comm] at hb
    refine (takeValue_keeps _ hb).bind fun condition b₁ hb₁ => ?_
    refine (takeValue_keeps _ hb₁).bind fun ifFalse b₂ hb₂ => ?_
    refine (takeValue_keeps _ hb₂).bind fun ifTrue b₃ hb₃ => ?_
    have hvoid : ifTrue.ty ≠ .void := hb₃.ty_ne_void
    refine push_operator rfl hs hb₃ rfl ?_ ?_ (by rintro _ ⟨⟩) (arity_of_ne_void hvoid) rfl
    · simp [Expr.eval, Expr.operands, Operator.act, Ty.keep, hvoid]
    · simp [Expr.children]
  | unreachable | block | loop | ifThen | elseArm | finish | br | brIf | brTable | ret | refFunc
  | other => cases ha

end

end Builder

end WasmLift
