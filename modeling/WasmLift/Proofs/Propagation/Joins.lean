import WasmLift.Proofs.Propagation.Freshness

/-!
# Recorded values where ways join

The walk goes through a function in the order of the text, and an execution may come to a use of a
local on several ways. In a function that reads nothing but parameters, locals and the stack pointer
what is recorded cannot go stale. There the text and the ways agree, provided that every local is
assigned in one place and on every way to its uses (`Framed.readsTrue_of_secluded`). Where ways with
different assignments join, or called functions move the stack pointer, they need not
(`Framed.readsStale_joined`).
-/

namespace WasmLift

/-- No called function changes the global. -/
def Host.CallsKeep (h : Host) (index : Nat) : Prop :=
  ∀ callee args store, (h.call callee args store).2.globals index = store.globals index

namespace Framed

/-- The node has nothing to do with the memory, nor with globals except that it may read the stack
pointer, and it assigns no parameter. -/
def Secluded (s : Surroundings) : Expr → Prop
  | .globalGet index _ => s.stackPointer = some index
  | .localSet index _ _ _ => s.function.params.length ≤ index
  | .globalSet .. | .load .. | .store .. | .memorySize | .memoryGrow .. | .memoryCopy ..
  | .memoryFill .. => False
  | _ => True

/-! ## Secluded runs -/

section
variable {h : Host} {s : Surroundings} {resolve : NameId → Nat} {bound : Nat}

/-- A secluded node changes neither the parameters nor the stack pointer. -/
theorem Secluded.act {e : Expr} (he : Secluded s e)
    (hcalls : ∀ i, s.stackPointer = some i → h.CallsKeep i) {w : World h} (vs : List Value) :
    Keeps (SameInputs s w) (e.act h resolve vs) := by
  have hperform : ∀ effect : Effect,
      (∀ store i, s.stackPointer = some i →
        (h.perform effect store).2.globals i = store.globals i) →
      Keeps (SameInputs s w) (Run.perform effect : Run h Label Value) := by
    intro effect hglobals w' hw'
    have hanswer : Keeps (SameInputs s w)
        (Run.ofExcept (h.perform effect w'.store).1 : Run h Label Value) := .ofExcept
    exact hanswer _ ⟨hw'.params, fun i hi => (hw'.pointer i hi).trans (hglobals _ i hi).symm⟩
  have hcall : ∀ callee args, Keeps (SameInputs s w)
      (Run.perform (.call callee args) : Run h Label Value) := fun callee args =>
    hperform _ fun store i hi => hcalls i hi callee args store
  unfold Expr.act
  split
  case h_2 index value tee ty v =>
    intro w' hw'
    refine ⟨fun i hi => ?_, hw'.pointer⟩
    have hne : i ≠ index := Nat.ne_of_lt (Nat.lt_of_lt_of_le hi he)
    show w.locals i = (w'.setLocal index v).locals i
    simpa [World.setLocal, hne] using hw'.params i hi
  all_goals first
    | exact he.elim
    | exact fun w hw => hw
    | exact (hcall _ _).bind fun _ => .pure
    | exact Keeps.demand.bind fun _ => (hcall _ _).bind fun _ => .pure
    | exact (hperform _ fun _ _ _ => rfl).bind fun _ => .pure
    | exact .map .ofExcept
    -- The conditional branches.
    | split <;> exact fun w hw => hw
    -- The branch table.
    | refine Keeps.demand.bind fun _ => ?_
      split <;> exact .throw

end

/-! ## Secluded walks -/

section
variable {s : Surroundings} {st st' : FrameState}

/-- Nothing recorded reads the memory or a named global. -/
def Tidy (st : FrameState) : Prop :=
  ∀ c, some c ∈ st.registers → c.isSettled = true

theorem Tidy.initial : Tidy (initial s) := by
  intro c hc
  cases List.eq_of_mem_replicate hc

theorem mem_registers {index : Nat} {c : Code} (hentry : known? s st index = some (some c)) :
    some c ∈ st.registers := by
  unfold known? at hentry
  split at hentry
  · cases hentry
  · simp only [Option.map_eq_some_iff, Option.some.injEq, exists_eq_right,
      Option.join_eq_some_iff] at hentry
    exact List.mem_of_getElem? hentry

theorem Tidy.localGet (hst : Tidy st) {index : Nat} {c : Code}
    (hget : localGet s index st = (.ok c, st')) : Tidy st' ∧ c.isSettled = true := by
  by_cases hindex : index < s.function.params.length
  · cases (localGet_param hindex).symm.trans hget
    exact ⟨hst, rfl⟩
  · rw [Nat.not_lt] at hindex
    rw [localGet_eq hindex (localGet_slot hindex hget)] at hget
    cases hentry : known? s st index with
    | none =>
      rw [hentry] at hget
      cases hget
      exact ⟨hst, rfl⟩
    | some known =>
      rw [hentry] at hget
      cases known with
      | none =>
        cases hget
        exact ⟨hst, rfl⟩
      | some d =>
        cases hget
        exact ⟨hst, hst c (mem_registers hentry)⟩

theorem Tidy.localSet (hst : Tidy st) {index : Nat} (hindex : s.function.params.length ≤ index)
    {c d : Code} {tee : Bool} (hc : c.hasEffects = false → c.isSettled = true)
    (hset : localSet s index c tee st = (.ok d, st')) :
    Tidy st' ∧ (d.hasEffects = false → d.isSettled = true) := by
  rw [localSet_eq hindex (localSet_slot hindex hset)] at hset
  split at hset
  · cases hset
    refine ⟨fun b hb => ?_, nofun⟩
    rcases List.mem_or_eq_of_mem_set hb with hb | hb
    · exact hst b hb
    · cases hb
  · next hneither =>
    rw [not_or, Bool.not_eq_true] at hneither
    have hsettled := hc hneither.2
    cases hset
    refine ⟨fun b hb => ?_, fun _ => ?_⟩
    · rcases List.mem_or_eq_of_mem_set hb with hb | hb
      · exact hst b hb
      · cases hb
        exact hsettled
    · split
      · exact hsettled
      · rfl

theorem binary_settled {op : BinOp} {l r : Code} (hl : l.hasEffects = false → l.isSettled = true)
    (hr : r.hasEffects = false → r.isSettled = true) (hpure : (binary op l r).hasEffects = false) :
    (binary op l r).isSettled = true := by
  obtain ⟨hl', hr'⟩ := binary_operands hpure
  rcases binary_cases op l r with hc | ⟨hc, -⟩ | ⟨_, _, _, _, _, -, -, hc, -⟩
  · simp [hc, Code.isSettled, hl hl', hr hr']
  · rw [hc]
    rfl
  · rw [hc]
    rfl

/-- A secluded node is written as something settled, unless it has effects. -/
theorem Secluded.compose {e : Expr} (he : Secluded s e) {cs : List Code} {c : Code}
    (hcs : ∀ d ∈ cs, d.hasEffects = false → d.isSettled = true) (hst : Tidy st)
    (hcompose : Walk.compose s.program (dialect s) e cs st = (.ok c, st')) :
    Tidy st' ∧ (c.hasEffects = false → c.isSettled = true) := by
  unfold Walk.compose at hcompose
  split at hcompose
  case h_1 =>
    obtain ⟨hst, hc⟩ := hst.localGet hcompose
    exact ⟨hst, fun _ => hc⟩
  case h_2 => exact hst.localSet he (hcs _ (.head _)) hcompose
  case h_3 index _ =>
    cases hcompose
    have hpointer : (dialect s).globalGet index = .stackPointer := if_pos he
    rw [hpointer]
    exact ⟨hst, fun _ => rfl⟩
  case h_8 op _ v =>
    cases hcompose
    exact ⟨hst, fun hpure => hcs v (.head _) hpure⟩
  case h_9 =>
    cases hcompose
    exact ⟨hst, binary_settled (hcs _ (.head _)) (hcs _ (.tail _ (.head _)))⟩
  case h_10 =>
    cases hcompose
    refine ⟨hst, fun hpure => ?_⟩
    simp only [Code.hasEffects, Bool.or_eq_false_iff] at hpure
    simp_all [Code.isSettled]
  case h_11 =>
    cases hcompose
    exact ⟨hst, hcs _ (.head _)⟩
  all_goals first
    | exact he.elim
    | cases hcompose
      exact ⟨hst, fun _ => rfl⟩

theorem writeAll_settled {es : List Expr} {cs : List Code}
    (hes : ∀ e ∈ es, ∀ {st st' : FrameState} {c : Code}, Tidy st → write s e st = (.ok c, st') →
      Tidy st' ∧ (c.hasEffects = false → c.isSettled = true)) (hst : Tidy st)
    (hwrite : writeAll s es st = (.ok cs, st')) :
    Tidy st' ∧ ∀ c ∈ cs, c.hasEffects = false → c.isSettled = true := by
  induction es generalizing st cs with
  | nil =>
    cases hwrite
    exact ⟨hst, nofun⟩
  | cons e rest ih =>
    obtain ⟨c, st₁, cs, hc, hcs, rfl⟩ := Walk.exprs_cons_ok hwrite
    obtain ⟨hst₁, hsettled⟩ := hes e (.head _) hst hc
    obtain ⟨hst', hall⟩ := ih (fun e he => hes e (.tail _ he)) hst₁ hcs
    exact ⟨hst', List.forall_mem_cons.2 ⟨hsettled, hall⟩⟩

/-- What is recorded for secluded code, and what it is written as unless it has effects, is
settled. -/
theorem write_settled {e : Expr} (he : e.All (Secluded s)) {c : Code} (hst : Tidy st)
    (hwrite : write s e st = (.ok c, st')) :
    Tidy st' ∧ (c.hasEffects = false → c.isSettled = true) := by
  induction he generalizing st st' c with
  | @node e own _ ih =>
  have hall : ∀ {es st st' cs}, es ⊆ e.children → Tidy st → writeAll s es st = (.ok cs, st') → _ :=
    fun hsub hst => writeAll_settled (fun x hx => ih x (hsub hx)) hst
  cases hsimple : e.isSimple with
  | true =>
    obtain ⟨codes, st₁, hcodes, hcompose⟩ := Walk.simple_ok hsimple hwrite
    obtain ⟨hst₁, hsettled⟩ := hall (List.Subset.refl _) hst hcodes
    exact own.compose hsettled hst₁ hcompose
  | false =>
    cases e with
    | block label children ty =>
      obtain ⟨heffects, codes, hcodes⟩ := Walk.block_ok hwrite
      exact ⟨(hall (List.Subset.refl _) hst hcodes).1, hasEffects_elim heffects⟩
    | ite condition ifTrue ifFalse ty =>
      obtain ⟨heffects, cc, st₁, tc, st₂, fs, hcc, htc, hfs⟩ := Walk.ite_ok hwrite
      have hst₁ := (ih condition (.head _) hst hcc).1
      have hst₂ := (ih ifTrue (.tail _ (.head _)) hst₁ htc).1
      exact ⟨(hall (fun _ hx => .tail _ (.tail _ hx)) hst₂ hfs).1, hasEffects_elim heffects⟩
    | loop label body ty =>
      obtain ⟨heffects, d, hd⟩ := Walk.loop_ok hwrite
      exact ⟨(ih body (.head _) hst hd).1, hasEffects_elim heffects⟩
    | _ => cases hsimple

end

/-! ## Reading where ways join -/

/-- In a secluded function that assigns every local in one place and on every way to its uses, every
use is written as what it is worth, on whatever way it is come to. -/
theorem readsTrue_of_secluded {h : Host} {s : Surroundings} {page : Page h}
    {resolve : NameId → Nat} {bound : Nat} {w : World h} (hadds : h.AddsWords)
    (honce : WrittenOnce s) {nodes : List Code} (hprinted : (statements s).1 = .ok nodes)
    (hsecluded : ∀ body, s.function.body? = some body → body.All (Secluded s))
    (hcalls : ∀ i, s.stackPointer = some i → h.CallsKeep i)
    (hnames : NamesHold s page resolve bound w) : ReadsTrue s page resolve bound w := by
  -- All worlds of the function have the same inputs, and what is recorded reads nothing else.
  let Seen (_ : Nat) (c : Code) (w₀ : World h) : Prop := c.isSettled = true ∧ SameInputs s w w₀
  have hkeeps : ∀ e : Expr, e.All (Secluded s) →
      Keeps (SameInputs s w) (e.eval h resolve bound) := fun e he =>
    Expr.eval_keeps (he.mono fun _ hx vs => hx.act hcalls vs)
  have hpoints : ∀ x z, Visits s resolve bound w x z →
      x.All (Secluded s) ∧ Tidy z.state ∧ SameInputs s w z.world := by
    rintro x z ⟨body, hbody, hx⟩
    have hes : ∀ e ∈ [body], e.All (Secluded s) := by simpa using hsecluded body hbody
    let P (z : Point h) : Prop := Tidy z.state ∧ SameInputs s w z.world
    have hz : P z := by
      refine hx.preserves hes ?_ ?_ ?_ ⟨.initial, fun _ _ => rfl, fun _ _ => rfl⟩
      · exact fun e he p c v q hp hpass =>
          ⟨(write_settled he hp.1 hpass.written).1, (hkeeps e he).after hp.2 hpass.run⟩
      · exact fun e he p c st hp hskip => ⟨(write_settled he hp.1 hskip).1, hp.2⟩
      · exact fun e he p label v w hp hjump => ⟨hp.1, (hkeeps e he).after hp.2 hjump⟩
    exact ⟨hx.all hes, hz⟩
  suffices hproper : ∀ x z, Visits s resolve bound w x z →
      Proper s page resolve bound (fun _ => True) Seen x z from
    readsTrue_of_proper hadds honce (Prod.ext hprinted rfl) hproper
  intro x z hx
  obtain ⟨hall, htidy, hinputs⟩ := hpoints x z hx
  refine ⟨(hnames x z hx).namedFor, ?_, ?_⟩
  · rintro index ty rfl - c - ⟨w₀, ⟨hsettled, hinputs₀⟩, hvalue, hvars⟩ -
    have hkept : Kept s page w₀ z.world c := (hinputs₀.symm.trans hinputs).kept (.inl hsettled)
    rw [← hkept.value_eq hvars]
    exact hvalue trivial
  · rintro index e tee ty rfl - c v q hpass hpure
    have he : e.All (Secluded s) := hall.child (.head _)
    exact ⟨(write_settled he htidy hpass.written).2 hpure, (hkeeps e he).after hinputs hpass.run⟩

/-- Hands the stack pointer to one of two calls, and then keeps it in a loop. -/
def rejoined : List Expr :=
  [.localSet 1 (.globalGet 0 .i32) false .void,
    .ite (.localGet 0 .i32)
      (.block none
        [.localSet 2 (.localGet 1 .i32) false .void,
          .drop (.call ⟨0⟩ [.localGet 2 .i32] .i32)] .void)
      (some (.drop (.call ⟨0⟩ [.localGet 1 .i32] .i32))) .void,
    .loop (some ⟨0⟩)
      (.block none
        [.localSet 3 (.localGet 1 .i32) false .void,
          .br ⟨0⟩ (some (.binary (.int .w32 .sub) (.localGet 0 .i32) (.const (.i32 300)))) none]
        .void) .void,
    .localGet 3 .i32]

/-- On either way to the loop, and in every round of it, the local is the stack pointer. -/
theorem readsTrue_of_secluded_rejoined :
    ReadsTrue (trial rejoined) ⟨.i32 84, fun _ _ => none, fun _ => 0⟩ NameId.slot 5 start := by
  have hprinted : (statements (trial rejoined)).1 = .ok _ := rfl
  refine readsTrue_of_secluded cells_addsWords (trial_writtenOnce (n := 12) rfl) hprinted ?_
    (fun _ _ _ _ _ => rfl) ?_
  · intro body hbody
    cases hbody
    repeat' first
      | refine .node ?_ ?_
      | refine List.forall_mem_cons.2 ⟨?_, ?_⟩
      | exact List.forall_mem_nil _
      | exact trivial
      | exact rfl
      | exact Nat.le_of_ble_eq_true rfl
  · rintro x z ⟨body, hbody, hx⟩
    cases hbody
    have hnamed : ∀ e ∈ [Expr.block none rejoined .i32], e.All fun x =>
        ∀ z, Named (h := cells) (trial rejoined) ⟨.i32 84, fun _ _ => none, fun _ => 0⟩ NameId.slot 5
          z x := by
      repeat' first
        | refine .node ?_ ?_
        | refine List.forall_mem_cons.2 ⟨?_, ?_⟩
        | exact List.forall_mem_nil _
        | exact fun _ => trivial
        | exact fun _ hne => absurd rfl hne
        | exact fun _ _ _ hpass => nomatch hpass.written
    exact (hx.all hnamed).own z

/-- Secluded code in which nevertheless a recorded code is read that is not worth its local,
whatever the names on the page mean. -/
structure MisreadJoin {h : Host} (w : World h) (body : List Expr) : Prop where
  secluded : (Expr.block none body .i32).All (Secluded (trial body))
  printed : (statements (trial body)).1.isOk = true
  wrong : ∀ page, ReadsStale (trial body) page NameId.slot 0 w

/-- A local that has another value than its recorded code is read wrongly. -/
theorem readsStale_last {h : Host} {w : World h} {es : List Expr} {index : Nat} {ty : Ty}
    {s : Surroundings} {p : Point h} {c : Code} {v : Value}
    (hs : s = trial (es ++ [.localGet index ty]))
    (hp : p = Point.after s NameId.slot 0 ⟨initial s, w⟩ es)
    (hwrite : (writeAll s es (initial s)).1.isOk = true)
    (hrun : (Expr.runAll h NameId.slot 0 es w).1.isOk = true)
    (hindex : 1 ≤ index) (hknown : known? s p.state index = some (some c))
    (hvalue : ∀ page, value s page p.world c = some v) (hdiffer : v ≠ p.world.locals index)
    (page : Page h) : ReadsStale s page NameId.slot 0 w := by
  have hbody : s.function.body? = some (.block none (es ++ [.localGet index ty]) .i32) := by
    rw [hs]
    rfl
  have hread : Visits s NameId.slot 0 w (.localGet index ty) p :=
    ⟨_, hbody, .block (.after hwrite hrun (hp ▸ .here))⟩
  have hparams : s.function.params.length ≤ index := by
    rw [hs]
    exact hindex
  refine ⟨index, ty, p, c, hread, hparams, hknown, ?_⟩
  rw [hvalue page]
  exact fun heq => hdiffer (Option.some.inj heq)

/-- Assigns a local in both arms of a conditional. -/
def joined : List Expr :=
  [.ite (.localGet 0 .i32) (.localSet 3 (.const (.i32 1)) false .void)
    (some (.localSet 3 (.const (.i32 2)) false .void)) .void]

/-- Assigns a local unless a branch is taken. -/
def skipped : List Expr :=
  [.block (some ⟨0⟩)
    [.br ⟨0⟩ (some (.localGet 0 .i32)) none, .localSet 3 (.const (.i32 1)) false .void] .void]

/-- Reads the stack pointer, and then calls a function. -/
def called : List Expr :=
  [.localSet 3 (.globalGet 0 .i32) false .void, .drop (.call ⟨0⟩ [] .i32)]

/-- Surroundings in which a called function leaves zero in all globals. -/
def clearing : Host :=
  { cells with call := fun _ _ store => (.ok (.i32 0), { store with globals := fun _ => .i32 0 }) }

/-- Secluded code can be written wrongly: the text of a conditional goes through both arms, and that
of a block through what a branch skips, there is but one frame base, and a called function may move
the stack pointer. -/
theorem readsStale_joined :
    MisreadJoin start (joined ++ [.localGet 3 .i32]) ∧
      MisreadJoin start (skipped ++ [.localGet 3 .i32]) ∧
      MisreadJoin start (difference twoBases) ∧
      MisreadJoin (h := clearing) ⟨start.locals, start.store, []⟩
        (called ++ [.localGet 3 .i32]) := by
  refine ⟨⟨?_, by decide +kernel, ?_⟩, ⟨?_, by decide +kernel, ?_⟩, ⟨?_, by decide +kernel, ?_⟩,
    ⟨?_, by decide +kernel, ?_⟩⟩
  case refine_2 =>
    exact readsStale_last (c := .const (.i32 2) none) (v := .i32 2) rfl rfl (by decide +kernel)
      (by decide +kernel) (by decide) rfl (fun _ => rfl) (by decide +kernel)
  case refine_4 =>
    exact readsStale_last (c := .const (.i32 1) none) (v := .i32 1) rfl rfl (by decide +kernel)
      (by decide +kernel) (by decide) rfl (fun _ => rfl) (by decide +kernel)
  case refine_6 =>
    exact readsStale_difference (c := .stackBase) rfl rfl (by decide +kernel)
      (by decide +kernel) rfl rfl rfl (by decide +kernel)
  case refine_8 =>
    exact readsStale_last (c := .stackPointer) (v := .i32 0) rfl rfl (by decide +kernel)
      (by decide +kernel) (by decide) rfl (fun _ => rfl) (by decide +kernel)
  all_goals
    repeat' first
      | refine .node ?_ ?_
      | refine List.forall_mem_cons.2 ⟨?_, ?_⟩
      | exact List.forall_mem_nil _
      | exact trivial
      | exact rfl
      | exact Nat.le_of_ble_eq_true rfl

end Framed

end WasmLift
