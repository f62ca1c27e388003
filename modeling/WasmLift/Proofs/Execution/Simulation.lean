import WasmLift.Proofs.Execution.Structure

/-!
# The machine runs structured instructions

The machine on the flat form of instructions does what the instructions do (`Instr.execAll_lands`).
Where they come to an end, the machine comes to the code that follows; where they branch, it comes
to where the branch goes on; and where a loop was restarted too often, the machine is still running
after more steps than the bound (`Machine.Lands`). For a whole function this says that the two
families of observations agree (`Machine.agree`).
-/

namespace WasmLift

namespace Machine

section
variable {h : Host} {scope : Scope}

/-! ## Steps -/

/-- At most `n` steps of a machine. -/
def run (scope : Scope) : (n : Nat) → Machine h → (Outcome × World h) ⊕ Machine h
  | 0, m => .inr m
  | n + 1, m =>
    match m.step scope with
    | .inl halted => .inl halted
    | .inr m' => run scope n m'

/-- A machine that takes a step and goes on has one step less to take. -/
theorem run_succ {m m' : Machine h} (hm : m.step scope = .inr m') (n : Nat) :
    run scope (n + 1) m = run scope n m' := by
  rw [run, hm]

/-- Steps of a machine may be taken in two goes. -/
theorem run_add {m m' : Machine h} {n : Nat} (hm : run scope n m = .inr m') (k : Nat) :
    run scope (n + k) m = run scope k m' := by
  induction n generalizing m with
  | zero =>
    cases hm
    rw [Nat.zero_add]
  | succ n ih =>
    rw [run] at hm
    rw [Nat.add_right_comm, run]
    split at hm
    · cases hm
    · exact ih hm

/-- Where a machine lands that runs instructions, followed by the code `rest`, inside the given
constructs: `p` is the end of the instructions. If a loop was restarted too often, it has taken more
than `least` steps. -/
def Lands (scope : Scope) (least : Nat) (p : Except (Exit Nat) (List Value) × World h)
    (rest : List Operator) (control : List Target) (m : Machine h) : Prop :=
  match p with
  | (.ok stack, w) => ∃ n, run scope n m = .inr ⟨rest, stack, control, w⟩
  | (.error (.jump depth value), w) => ∃ n t, 0 < n ∧ control[depth]? = some t ∧
      (t.carries = .void → value = none) ∧
      run scope n m = .inr ⟨t.resume, value.toList ++ t.below, control.drop (depth + 1), w⟩
  | (.error (.trap t), w) => ∃ n, run scope n m = .inl (.trapped t, w)
  | (.error .exhausted, w) => ∃ n m', least < n ∧ run scope n m = .inr m' ∧ m'.world = w
  | (.error (.ret _), _) | (.error .stuck, _) => True

variable {least : Nat} {rest : List Operator} {control : List Target} {m : Machine h}

/-- Steps may come before. -/
theorem Lands.after {least' k : Nat} {m' : Machine h}
    {p : Except (Exit Nat) (List Value) × World h} (hm : run scope k m = .inr m')
    (hp : Lands scope least' p rest control m') (hle : least ≤ least' + k) :
    Lands scope least p rest control m := by
  obtain ⟨(⟨depth, value⟩ | _ | t | _ | _) | stack, w⟩ := p
  · obtain ⟨n, t, hn, ht, hvoid, hrun⟩ := hp
    exact ⟨k + n, t, Nat.add_pos_right k hn, ht, hvoid, (run_add hm n).trans hrun⟩
  · trivial
  · obtain ⟨n, hrun⟩ := hp
    exact ⟨k + n, (run_add hm n).trans hrun⟩
  · obtain ⟨n, m'', hn, hrun, hw⟩ := hp
    exact ⟨k + n, m'', by omega, (run_add hm n).trans hrun, hw⟩
  · trivial
  · obtain ⟨n, hrun⟩ := hp
    exact ⟨k + n, (run_add hm n).trans hrun⟩

/-- A machine lands where it does after one step more. -/
theorem Lands.step {m' : Machine h} {p : Except (Exit Nat) (List Value) × World h}
    (hm : m.step scope = .inr m') (hp : Lands scope least p rest control m') :
    Lands scope least p rest control m :=
  hp.after (k := 1) (run_succ hm 0) (Nat.le_succ _)

/-- Instructions one after the other. -/
theorem Lands.bind {mid : List Operator} {x : Run h Nat (List Value)}
    {f : List Value → Run h Nat (List Value)} {w : World h}
    (hx : Lands scope least (x w) mid control m)
    (hf : ∀ stack w', Lands scope least (f stack w') rest control ⟨mid, stack, control, w'⟩) :
    Lands scope least ((x >>= f) w) rest control m := by
  rw [Run.bind_apply]
  generalize x w = p at hx
  obtain ⟨(⟨depth, value⟩ | _ | t | _ | _) | stack, w'⟩ := p
  · exact hx
  · trivial
  · exact hx
  · exact hx
  · trivial
  · obtain ⟨n, hrun⟩ := hx
    exact (hf stack w').after hrun (Nat.le_add_right _ _)

/-! ## Plain operators -/

/-- A plain operator leaves by a trap only, or not at all. -/
inductive OfOperator {τ : Type} : Exit τ → Prop where
  | trap (t : Trap) : OfOperator (.trap t)
  | stuck : OfOperator .stuck

/-- The run adds to the trace, and leaves as plain operators do. -/
def Steady {τ α : Type} (x : Run h τ α) : Prop :=
  ∀ w, w.trace <:+ (x w).2.trace ∧ ∀ e, (x w).1 = .error e → OfOperator e

section
variable {τ α β : Type}

/-- A value that is given at once touches nothing. -/
theorem Steady.pure {a : α} : Steady (pure a : Run h τ α) :=
  fun w => ⟨List.suffix_refl w.trace, nofun⟩

/-- What leaves as plain operators do is steady. -/
theorem Steady.throw {e : Exit τ} (he : OfOperator e) : Steady (throw e : Run h τ α) :=
  fun w => ⟨List.suffix_refl w.trace, fun _ he' => by cases he'; exact he⟩

/-- Two steady runs are steady one after the other, since the trace only grows. -/
theorem Steady.bind {x : Run h τ α} {f : α → Run h τ β} (hx : Steady x) (hf : ∀ a, Steady (f a)) :
    Steady (x >>= f) := by
  intro w
  rw [Run.bind_apply]
  have hxw := hx w
  generalize x w = p at hxw
  obtain ⟨e | a, w'⟩ := p
  · exact ⟨hxw.1, fun _ he => by cases he; exact hxw.2 e rfl⟩
  · exact ⟨hxw.1.trans (hf a w').1, (hf a w').2⟩

/-- An operation on values is steady. -/
theorem Steady.ofExcept (x : Except Trap α) : Steady (Run.ofExcept x : Run h τ α) := by
  cases x with
  | ok a => exact .pure
  | error t => exact .throw (.trap t)

/-- An effect only adds itself to the trace. -/
theorem Steady.perform (e : Effect) : Steady (Run.perform e : Run h τ Value) := by
  intro w
  have hanswer : Steady (Run.ofExcept (h.perform e w.store).1 : Run h τ Value) := .ofExcept _
  have hanswer := hanswer { w with store := (h.perform e w.store).2, trace := e :: w.trace }
  exact ⟨(List.suffix_cons e w.trace).trans hanswer.1, hanswer.2⟩

/-- To read a local touches nothing. -/
theorem Steady.getLocal (i : Nat) : Steady (Run.getLocal i : Run h τ Value) :=
  fun w => ⟨List.suffix_refl w.trace, nofun⟩

/-- To assign a local leaves the trace alone. -/
theorem Steady.setLocal (i : Nat) (v : Value) : Steady (Run.setLocal i v : Run h τ Unit) :=
  fun w => ⟨List.suffix_refl w.trace, nofun⟩

/-- A plain operator is steady, whatever its operands. -/
theorem act_steady (scope : Scope) (op : Operator) (args : List Value) :
    Steady (op.act scope args : Run h τ (List Value)) := by
  unfold Operator.act
  split
  all_goals first
    -- The calls look up a signature first.
    | split
      · exact .bind (.perform _) fun _ => .pure
      · exact .throw .stuck
    | exact .throw .stuck
    | exact .bind (.perform _) fun _ => .pure
    | exact .bind (.ofExcept _) fun _ => .pure
    | exact .bind (.getLocal _) fun _ => .pure
    | exact .bind (.setLocal _ _) fun _ => .pure
    | exact .pure

end

/-- A branch carries one value at most. -/
theorem carriedFrom?_toList {ty : Ty} {stack values : List Value}
    (hv : ty.carriedFrom? stack = some values) : values.head?.toList = values := by
  unfold Ty.carriedFrom? at hv
  split at hv
  · cases hv
    rfl
  · obtain ⟨v, -, rfl⟩ := Option.map_eq_some_iff.1 hv
    rfl

/-- A branch of the instructions lands where the jump of the machine does. -/
theorem branch_lands {labels : List Ty} {depth : Nat} (code : List Operator) {stack : List Value}
    {w : World h} (hlabels : control.map Target.carries = labels)
    (hm : m.step scope = jump ⟨code, stack, control, w⟩ depth) :
    Lands scope least (Instr.branch labels depth stack w) rest control m := by
  rw [Instr.branch]
  cases hvalues : labels[depth]?.bind (·.carriedFrom? stack) with
  | none => trivial
  | some values =>
    obtain ⟨ty, hty, hcarried⟩ := Option.bind_eq_some_iff.1 hvalues
    rw [← hlabels, List.getElem?_map] at hty
    obtain ⟨t, ht, rfl⟩ := Option.map_eq_some_iff.1 hty
    refine ⟨1, t, Nat.one_pos, ht, fun hvoid => ?_, ?_⟩
    · rw [Ty.carriedFrom?, if_pos hvoid] at hcarried
      cases hcarried
      rfl
    · rw [carriedFrom?_toList hcarried]
      refine (run_succ ?_ 0).trans rfl
      rw [hm, jump]
      simp only [ht, hcarried]

/-- An operator that takes and gives operands only, or one that is not supported. -/
theorem operator_lands {labels : List Ty} {op : Operator} {stack : List Value} {w : World h}
    (hexecute : ∀ m : Machine h, execute scope m op = m.apply scope op)
    (hplain : (Instr.execPlain scope labels op stack : Run h Nat (List Value)) =
      match op.arity? scope with
      | some (taken, _) =>
        if taken ≤ stack.length then do
          let results ← op.act scope (stack.take taken)
          return results ++ stack.drop taken
        else throw .stuck
      | none => throw .stuck) :
    Lands scope least (Instr.execPlain scope labels op stack w) rest control
      ⟨op :: rest, stack, control, w⟩ := by
  rw [hplain]
  cases harity : op.arity? scope with
  | none => trivial
  | some arity =>
    obtain ⟨taken, given⟩ := arity
    by_cases htaken : taken ≤ stack.length
    · have hstep : step scope (⟨op :: rest, stack, control, w⟩ : Machine h) =
          apply scope ⟨rest, stack, control, w⟩ op := hexecute _
      simp only [apply, harity, if_pos htaken] at hstep
      simp only [if_pos htaken]
      rw [Run.bind_apply]
      rcases hact : (op.act scope (stack.take taken) : Run h Nat (List Value)) w with
        ⟨e | results, w'⟩
      · rw [hact] at hstep
        have hsteady : Steady (op.act scope (stack.take taken) : Run h Nat (List Value)) :=
          act_steady scope op _
        have hexit := (hsteady w).2 e
        rw [hact] at hexit
        cases hexit rfl with
        | trap t => exact ⟨1, by rw [run, hstep]; rfl⟩
        | stuck => trivial
      · rw [hact] at hstep
        exact ⟨1, run_succ hstep 0⟩
    · simp only [if_neg htaken]
      trivial

/-- A plain operator, branches among them, lands where the machine does with it. -/
theorem execPlain_lands {labels : List Ty} {op : Operator} (hop : op.isPlain = true)
    (hlabels : control.map Target.carries = labels) (stack : List Value) (w : World h) :
    Lands scope least (Instr.execPlain scope labels op stack w) rest control
      ⟨op :: rest, stack, control, w⟩ := by
  cases op with
  | br depth => exact branch_lands rest hlabels rfl
  | brIf depth =>
    cases stack with
    | nil => trivial
    | cons c stack =>
      by_cases hc : c.holds = true
      · rw [Instr.execPlain, if_pos hc]
        refine branch_lands rest hlabels ?_
        simp only [step, execute, pop, if_pos hc]
      · rw [Instr.execPlain, if_neg hc]
        refine ⟨1, run_succ ?_ 0⟩
        simp only [step, execute, pop, if_neg hc]
  | brTable depths fallback =>
    cases stack with
    | nil => trivial
    | cons c stack => exact branch_lands rest hlabels rfl
  | ret =>
    have hlength : labels.length = control.length := by rw [← hlabels, List.length_map]
    refine branch_lands rest hlabels ?_
    rw [hlength]
    rfl
  | unreachable => exact ⟨1, rfl⟩
  | block | loop | ifThen | elseArm | finish => cases hop
  | _ => exact operator_lands (fun _ => rfl) rfl

/-! ## Finding the end of a construct -/

/-- A plain operator is passed when the end of a construct is looked for. -/
theorem afterEnd_plain {op : Operator} (hop : op.isPlain = true) (depth : Nat)
    (rest : List Operator) :
    Operator.afterEnd depth (op :: rest) = Operator.afterEnd depth rest := by
  cases op with
  | block | loop | ifThen | elseArm | finish => cases hop
  | _ => cases depth <;> rfl

/-- A plain operator is passed when the second arm of a conditional is looked for. -/
theorem afterElse?_plain {op : Operator} (hop : op.isPlain = true) (depth : Nat)
    (rest : List Operator) :
    Operator.afterElse? depth (op :: rest) = Operator.afterElse? depth rest := by
  cases op with
  | block | loop | ifThen | elseArm | finish => cases hop
  | _ => cases depth <;> rfl

mutual

/-- A whole instruction is passed when the end of a construct is looked for. -/
theorem afterEnd_flatten (depth : Nat) (rest : List Operator) :
    ∀ i : Instr, Operator.afterEnd depth (i.flatten ++ rest) = Operator.afterEnd depth rest
  | .plain op => afterEnd_plain op.2 depth rest
  | .block _ body | .loop _ body | .ifThen _ body => by
    simp only [Instr.flatten, List.cons_append, List.append_assoc, List.nil_append]
    exact afterEnd_flattenAll (depth + 1) (.finish :: rest) body
  | .ifElse _ body other => by
    simp only [Instr.flatten, List.cons_append, List.append_assoc, List.nil_append]
    refine (afterEnd_flattenAll (depth + 1) _ body).trans ?_
    exact afterEnd_flattenAll (depth + 1) (.finish :: rest) other

/-- Whole instructions are passed when the end of a construct is looked for. -/
theorem afterEnd_flattenAll (depth : Nat) (rest : List Operator) :
    ∀ is : List Instr,
      Operator.afterEnd depth (Instr.flattenAll is ++ rest) = Operator.afterEnd depth rest
  | [] => rfl
  | i :: is => by
    rw [Instr.flattenAll, List.append_assoc, afterEnd_flatten depth _ i]
    exact afterEnd_flattenAll depth rest is

end

mutual

/-- A whole instruction is passed when the second arm of a conditional is looked for. -/
theorem afterElse?_flatten (depth : Nat) (rest : List Operator) :
    ∀ i : Instr, Operator.afterElse? depth (i.flatten ++ rest) = Operator.afterElse? depth rest
  | .plain op => afterElse?_plain op.2 depth rest
  | .block _ body | .loop _ body | .ifThen _ body => by
    simp only [Instr.flatten, List.cons_append, List.append_assoc, List.nil_append]
    exact afterElse?_flattenAll (depth + 1) (.finish :: rest) body
  | .ifElse _ body other => by
    simp only [Instr.flatten, List.cons_append, List.append_assoc, List.nil_append]
    refine (afterElse?_flattenAll (depth + 1) _ body).trans ?_
    exact afterElse?_flattenAll (depth + 1) (.finish :: rest) other

/-- Whole instructions are passed when the second arm of a conditional is looked for. -/
theorem afterElse?_flattenAll (depth : Nat) (rest : List Operator) :
    ∀ is : List Instr,
      Operator.afterElse? depth (Instr.flattenAll is ++ rest) = Operator.afterElse? depth rest
  | [] => rfl
  | i :: is => by
    rw [Instr.flattenAll, List.append_assoc, afterElse?_flatten depth _ i]
    exact afterElse?_flattenAll depth rest is

end

/-! ## Constructs -/

/-- Leaving a construct puts its results on top of the operands from before it. -/
theorem Lands.leave {x : Run h Nat (List Value)} {w : World h} {t : Target}
    {closing : List Operator} (ht : t.resume = rest)
    (hclose : ∀ stack w', Machine.step scope (⟨closing, stack, t :: control, w'⟩ : Machine h) =
      .inr ⟨rest, stack ++ t.below, control, w'⟩)
    (hx : Lands scope least (x w) closing (t :: control) m) :
    Lands scope least ((Instr.leaving x >>= fun results => pure (results ++ t.below)) w) rest
      control m := by
  rw [Run.bind_apply, Instr.leaving, Run.onJump]
  generalize x w = p at hx
  obtain ⟨(⟨depth, value⟩ | _ | trap | _ | _) | stack, w'⟩ := p
  · obtain ⟨n, t', hn, ht', hvoid, hrun⟩ := hx
    cases depth with
    | zero =>
      cases ht'
      rw [ht] at hrun
      exact ⟨n, hrun⟩
    | succ depth => exact ⟨n, t', hn, ht', hvoid, hrun⟩
  · trivial
  · exact hx
  · exact hx
  · trivial
  · obtain ⟨n, hrun⟩ := hx
    exact ⟨n + 1, (run_add hrun 1).trans (run_succ (hclose stack w') 0)⟩

/-- One round of a loop, from the moment before it is entered. A branch to the loop comes back to
this moment. -/
theorem round_lands {type : BlockType} {inside : List Operator} {stack : List Value}
    {x : Run h Nat (List Value)} {bound : Nat}
    (hx : ∀ w, Lands scope bound (x w) (.finish :: rest)
      (⟨.void, .loop type :: inside, stack⟩ :: control)
      ⟨inside, [], ⟨.void, .loop type :: inside, stack⟩ :: control, w⟩)
    {k : Nat} (hk : k ≤ bound) {again : Run h Nat (List Value)}
    (hagain : ∀ n w m, 0 < n → run scope n m = .inr ⟨.loop type :: inside, stack, control, w⟩ →
      Lands scope k ((again >>= fun results => pure (results ++ stack)) w) rest control m)
    (w : World h) :
    Lands scope k
      ((x.onJump (fun depth value =>
        match depth with
        | 0 => again
        | depth + 1 => throw (.jump depth value)) >>= fun results => pure (results ++ stack)) w)
      rest control ⟨.loop type :: inside, stack, control, w⟩ := by
  have hround := Lands.step (m := ⟨.loop type :: inside, stack, control, w⟩) rfl (hx w)
  rw [Run.bind_apply, Run.onJump]
  generalize x w = p at hround
  obtain ⟨(⟨depth, value⟩ | _ | trap | _ | _) | results, w'⟩ := p
  · obtain ⟨n, t, hn, ht, hvoid, hrun⟩ := hround
    cases depth with
    | zero =>
      cases ht
      cases hvoid rfl
      have hland := hagain n w' _ hn hrun
      rw [Run.bind_apply] at hland
      exact hland
    | succ depth => exact ⟨n, t, hn, ht, hvoid, hrun⟩
  · trivial
  · exact hround
  · obtain ⟨n, m', hn, hrun, hw⟩ := hround
    exact ⟨n, m', Nat.lt_of_le_of_lt hk hn, hrun, hw⟩
  · trivial
  · obtain ⟨n, hrun⟩ := hround
    exact ⟨n + 1, (run_add hrun 1).trans (run_succ rfl 0)⟩

/-- A loop lands where the machine does that enters it, by induction on how often it may still be
restarted. -/
theorem restarting_lands {type : BlockType} {inside : List Operator} {stack : List Value}
    {x : Run h Nat (List Value)} {bound : Nat}
    (hx : ∀ w, Lands scope bound (x w) (.finish :: rest)
      (⟨.void, .loop type :: inside, stack⟩ :: control)
      ⟨inside, [], ⟨.void, .loop type :: inside, stack⟩ :: control, w⟩)
    (k : Nat) (hk : k ≤ bound) (w : World h) :
    Lands scope k ((Instr.restarting x k >>= fun results => pure (results ++ stack)) w) rest control
      ⟨.loop type :: inside, stack, control, w⟩ := by
  induction k generalizing w with
  | zero =>
    refine round_lands hx hk (fun n w m hn hrun => ?_) w
    exact ⟨n, _, hn, hrun, rfl⟩
  | succ k ih =>
    refine round_lands hx hk (fun n w m hn hrun => ?_) w
    exact (ih (Nat.le_of_succ_le hk) w).after hrun (by omega)

mutual

/-- The machine runs an instruction. -/
theorem exec_lands (bound : Nat) (labels : List Ty) (stack : List Value) (rest : List Operator)
    (control : List Target) (hlabels : control.map Target.carries = labels) (w : World h) :
    ∀ i : Instr, Lands scope bound (i.exec h scope bound labels stack w) rest control
      ⟨i.flatten ++ rest, stack, control, w⟩
  | .plain op => execPlain_lands op.2 hlabels stack w
  | .block type body => by
    rw [Instr.exec]
    cases hty : scope.constructTy? type with
    | none => trivial
    | some ty =>
    let t : Target := ⟨ty, rest, stack⟩
    have hinside : Lands scope bound (Instr.execAll h scope bound body (ty :: labels) [] w)
        (.finish :: rest) (t :: control)
        ⟨Instr.flattenAll body ++ .finish :: rest, [], t :: control, w⟩ :=
      execAll_lands bound (ty :: labels) [] _ _ (by rw [List.map_cons, hlabels]) w body
    refine Lands.step ?_ (Lands.leave (t := t) rfl (fun _ _ => rfl) hinside)
    simp only [Instr.flatten, List.cons_append, List.append_assoc, List.nil_append, step, execute,
      hty, enter, afterEnd_flattenAll]
    rfl
  | .loop type body => by
    have hinside : ∀ w : World h, Lands scope bound
        (Instr.execAll h scope bound body (.void :: labels) [] w) (.finish :: rest)
        (⟨.void, .loop type :: (Instr.flattenAll body ++ .finish :: rest), stack⟩ :: control)
        ⟨Instr.flattenAll body ++ .finish :: rest, [],
          ⟨.void, .loop type :: (Instr.flattenAll body ++ .finish :: rest), stack⟩ :: control, w⟩ :=
      fun w => execAll_lands bound (.void :: labels) [] _ _ (by rw [List.map_cons, hlabels]) w body
    have hloop := restarting_lands hinside bound (Nat.le_refl _) w
    rw [Instr.exec, Instr.flatten, List.cons_append, List.append_assoc]
    exact hloop
  | .ifThen type body => by
    cases hty : scope.constructTy? type with
    | none => simp only [Instr.exec, hty]; trivial
    | some ty =>
    cases stack with
    | nil => simp only [Instr.exec, hty]; trivial
    | cons c stack =>
    let t : Target := ⟨ty, rest, stack⟩
    simp only [Instr.exec, hty]
    by_cases hc : c.holds = true
    · have hinside : Lands scope bound (Instr.execAll h scope bound body (ty :: labels) [] w)
          (.finish :: rest) (t :: control)
          ⟨Instr.flattenAll body ++ .finish :: rest, [], t :: control, w⟩ :=
        execAll_lands bound (ty :: labels) [] _ _ (by rw [List.map_cons, hlabels]) w body
      rw [if_pos hc]
      refine Lands.step ?_ (Lands.leave (t := t) rfl (fun _ _ => rfl) hinside)
      simp only [Instr.flatten, List.cons_append, List.append_assoc, List.nil_append, step, execute,
        hty, pop, if_pos hc, enter, afterEnd_flattenAll]
      rfl
    · rw [if_neg hc]
      refine Lands.step ?_ ⟨0, rfl⟩
      simp only [Instr.flatten, List.cons_append, List.append_assoc, List.nil_append, step, execute,
        hty, pop, if_neg hc, afterElse?_flattenAll, afterEnd_flattenAll]
      rfl
  | .ifElse type body other => by
    cases hty : scope.constructTy? type with
    | none => simp only [Instr.exec, hty]; trivial
    | some ty =>
    cases stack with
    | nil => simp only [Instr.exec, hty]; trivial
    | cons c stack =>
    let t : Target := ⟨ty, rest, stack⟩
    have hcarries : (t :: control).map Target.carries = ty :: labels := by
      rw [List.map_cons, hlabels]
    simp only [Instr.exec, hty]
    by_cases hc : c.holds = true
    · have hinside : Lands scope bound (Instr.execAll h scope bound body (ty :: labels) [] w)
          (.elseArm :: (Instr.flattenAll other ++ .finish :: rest)) (t :: control)
          ⟨Instr.flattenAll body ++ .elseArm :: (Instr.flattenAll other ++ .finish :: rest), [],
            t :: control, w⟩ :=
        execAll_lands bound (ty :: labels) [] _ _ hcarries w body
      rw [if_pos hc]
      refine Lands.step ?_ (Lands.leave (t := t) rfl (fun _ _ => rfl) hinside)
      simp only [Instr.flatten, List.cons_append, List.append_assoc, List.nil_append, step, execute,
        hty, pop, if_pos hc, enter, afterEnd_flattenAll, Operator.afterEnd]
      rfl
    · have hinside : Lands scope bound (Instr.execAll h scope bound other (ty :: labels) [] w)
          (.finish :: rest) (t :: control)
          ⟨Instr.flattenAll other ++ .finish :: rest, [], t :: control, w⟩ :=
        execAll_lands bound (ty :: labels) [] _ _ hcarries w other
      rw [if_neg hc]
      refine Lands.step ?_ (Lands.leave (t := t) rfl (fun _ _ => rfl) hinside)
      simp only [Instr.flatten, List.cons_append, List.append_assoc, List.nil_append, step, execute,
        hty, pop, if_neg hc, enter, afterEnd_flattenAll, Operator.afterEnd, afterElse?_flattenAll,
        Operator.afterElse?]
      rfl

/-- The machine runs instructions. -/
theorem execAll_lands (bound : Nat) (labels : List Ty) (stack : List Value) (rest : List Operator)
    (control : List Target) (hlabels : control.map Target.carries = labels) (w : World h) :
    ∀ is : List Instr,
      Lands scope bound (Instr.execAll h scope bound is labels stack w) rest control
      ⟨Instr.flattenAll is ++ rest, stack, control, w⟩
  | [] => ⟨0, rfl⟩
  | i :: is => by
    rw [Instr.flattenAll, List.append_assoc]
    exact (exec_lands bound labels stack _ control hlabels w i).bind fun stack' w' =>
      execAll_lands bound labels stack' rest control hlabels w' is

end

/-! ## Observations -/

/-- What is observed after some steps. -/
def observed : (Outcome × World h) ⊕ Machine h → Observation h
  | .inl (outcome, w) => ⟨outcome, w.trace, w.store⟩
  | .inr m => ⟨.running, m.world.trace, m.world.store⟩

/-- What is observed of a machine is observed after running it. -/
theorem observe_eq_run (k : Nat) (m : Machine h) :
    observe scope k m = observed (run scope k m) := by
  induction k generalizing m with
  | zero => rfl
  | succ k ih =>
    rw [observe, run]
    cases m.step scope with
    | inl halted => rfl
    | inr m' => exact ih m'

/-- A jump leaves the trace alone. -/
theorem jump_trace (m : Machine h) (depth : Nat) :
    (observed (m.jump depth)).trace = m.world.trace := by
  rw [jump]
  split
  · rfl
  · split <;> rfl

/-- To leave a construct leaves the trace alone. -/
theorem leave_trace (m : Machine h) (code : List Operator) :
    (observed (m.leave code)).trace = m.world.trace := by
  rw [leave]
  split <;> rfl

/-- A plain operator only adds to the trace. -/
theorem apply_trace (scope : Scope) (m : Machine h) (op : Operator) :
    m.world.trace <:+ (observed (m.apply scope op)).trace := by
  rw [apply]
  split
  · exact List.suffix_refl _
  · split
    · next taken _ _ _ =>
      have hsteady : Steady (op.act scope (m.operands.take taken) : Run h Nat (List Value)) :=
        act_steady scope op _
      have htrace := (hsteady m.world).1
      generalize (op.act scope (m.operands.take taken) : Run h Nat (List Value)) m.world = p
        at htrace
      split <;> exact htrace
    · exact List.suffix_refl _

/-- An operator only adds to the trace. -/
theorem execute_trace (scope : Scope) (m : Machine h) (op : Operator) :
    m.world.trace <:+ (observed (execute scope m op)).trace := by
  cases op with
  | block type =>
    rw [execute]
    split <;> exact List.suffix_refl _
  | loop | unreachable => exact List.suffix_refl _
  | ifThen type =>
    rw [execute]
    split
    · exact List.suffix_refl _
    · rw [pop]
      split
      · exact List.suffix_refl _
      · dsimp only
        split
        · exact List.suffix_refl _
        · split <;> exact List.suffix_refl _
  | elseArm | finish => exact (leave_trace m _).symm ▸ List.suffix_refl _
  | br depth => exact (jump_trace m depth).symm ▸ List.suffix_refl _
  | brIf depth =>
    rw [execute, pop]
    split
    · exact List.suffix_refl _
    · split
      · exact (jump_trace _ depth).symm ▸ List.suffix_refl _
      · exact List.suffix_refl _
  | brTable depths fallback =>
    rw [execute, pop]
    split
    · exact List.suffix_refl _
    · exact (jump_trace _ _).symm ▸ List.suffix_refl _
  | ret => exact (jump_trace m _).symm ▸ List.suffix_refl _
  | _ =>
    unfold execute
    exact apply_trace scope m _

/-- A step only adds to the trace. -/
theorem step_trace (scope : Scope) (m : Machine h) :
    m.world.trace <:+ (observed (m.step scope)).trace := by
  rw [step]
  split
  · split <;> exact List.suffix_refl _
  · next op rest _ => exact execute_trace scope { m with code := rest } op

/-- A run only adds to the trace. -/
theorem run_trace (scope : Scope) (n : Nat) (m : Machine h) :
    m.world.trace <:+ (observed (run scope n m)).trace := by
  induction n generalizing m with
  | zero => exact List.suffix_refl _
  | succ n ih =>
    have hstep := step_trace scope m
    rw [run]
    cases hm : m.step scope with
    | inl halted => rwa [hm] at hstep
    | inr m' =>
      rw [hm] at hstep
      exact hstep.trans (ih m')

/-- A machine that has halted stays as it is. -/
theorem run_halted {n k : Nat} {m : Machine h} {halted : Outcome × World h}
    (hm : run scope n m = .inl halted) (hk : n ≤ k) : run scope k m = .inl halted := by
  induction n generalizing m k with
  | zero => cases hm
  | succ n ih =>
    obtain ⟨k, rfl⟩ : ∃ k', k = k' + 1 := ⟨k - 1, by omega⟩
    rw [run] at hm ⊢
    split at hm
    · exact hm
    · exact ih hm (by omega)

/-- A function comes to an end like its instructions, or goes on for more steps than the bound. -/
theorem start_run {body : List Instr} {result : Ty} {w : World h} {bound : Nat}
    (hgoes : (Instr.observe scope body result w bound).outcome ≠ .stuck) :
    ∃ n, observed (run scope n (start (Instr.flattenAll body ++ [Operator.finish]) result w)) =
        Instr.observe scope body result w bound ∧
      ((Instr.observe scope body result w bound).outcome = .running → bound < n) := by
  have hlands : Lands scope bound (Instr.execAll h scope bound body [result] [] w) [.finish]
      [⟨result, [], []⟩] (start (Instr.flattenAll body ++ [Operator.finish]) result w) :=
    execAll_lands bound [result] [] [.finish] [⟨result, [], []⟩] rfl w body
  unfold Instr.observe at hgoes ⊢
  generalize Instr.execAll h scope bound body [result] [] w = p at hlands hgoes ⊢
  obtain ⟨(⟨depth, value⟩ | value | trap | _ | _) | stack, w'⟩ := p
  · obtain ⟨n, t, -, ht, -, hrun⟩ := hlands
    cases depth with
    | zero =>
      cases ht
      refine ⟨n + 1, ?_, nofun⟩
      rw [run_add hrun 1]
      simp [run, Machine.step, halt, observed, Instr.outcome]
    | succ depth => cases ht
  · exact absurd rfl hgoes
  · obtain ⟨n, hrun⟩ := hlands
    exact ⟨n, by rw [hrun]; rfl, nofun⟩
  · obtain ⟨n, m, hn, hrun, hw⟩ := hlands
    exact ⟨n, by rw [hrun, ← hw]; rfl, fun _ => hn⟩
  · exact absurd rfl hgoes
  · obtain ⟨n, hrun⟩ := hlands
    refine ⟨n + 2, ?_, nofun⟩
    rw [run_add hrun 2]
    simp [run, Machine.step, execute, leave, halt, observed, Instr.outcome]

/-- An observation refines itself. -/
theorem refinedBy_refl (o : Observation h) : o.RefinedBy o := by
  unfold Observation.RefinedBy
  split
  · exact List.suffix_refl _
  · rfl

/-- More steps refine what is observed. -/
theorem run_refinedBy {k n : Nat} (hk : k ≤ n) (m : Machine h) :
    (observed (run scope k m)).RefinedBy (observed (run scope n m)) := by
  cases hrun : run scope k m with
  | inl halted =>
    rw [run_halted hrun hk]
    exact refinedBy_refl _
  | inr m' =>
    obtain ⟨d, rfl⟩ := Nat.exists_eq_add_of_le hk
    rw [run_add hrun d]
    exact run_trace scope d m'

/-- The machine and the instructions are observed alike. -/
theorem agree {body : List Instr} {result : Ty} {w : World h}
    (hgoes : ∀ bound, (Instr.observe scope body result w bound).outcome ≠ .stuck) :
    Observation.Agree (Instr.observe scope body result w)
      fun k => observe scope k (start (Instr.flattenAll body ++ [Operator.finish]) result w) := by
  refine ⟨fun bound => ?_, fun k => ⟨k, ?_⟩⟩
  · obtain ⟨n, hn, -⟩ := start_run (hgoes bound)
    refine ⟨n, ?_⟩
    dsimp only
    rw [observe_eq_run, hn]
    exact refinedBy_refl _
  · obtain ⟨n, hn, hrunning⟩ := start_run (hgoes k)
    dsimp only
    rw [observe_eq_run, ← hn]
    rw [← hn] at hrunning
    by_cases hk : k ≤ n
    · exact run_refinedBy hk _
    · cases hrun : run scope n (start (Instr.flattenAll body ++ [Operator.finish]) result w) with
      | inl halted =>
        rw [run_halted hrun (by omega)]
        exact refinedBy_refl _
      | inr m =>
        have hlate := hrunning (by rw [hrun]; rfl)
        omega

end

end Machine

end WasmLift
