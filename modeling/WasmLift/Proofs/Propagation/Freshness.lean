import WasmLift.Proofs.Propagation.Registers

/-!
# Recorded values that are still fresh

A recorded value is read later than it was recorded, and nothing is forgotten in between when the
memory, a global or a parameter changes. A use of a local is written as what it is worth if what the
recorded value reads has not changed since, and the names on the page are not used for two things
(`Framed.readsTrue_of_fresh`). Without that, even straight-line code can be written wrongly
(`Framed.readsStale_straight`).
-/

namespace WasmLift

namespace Framed

section
variable {h : Host} (s : Surroundings) (page : Page h) (resolve : NameId → Nat) (bound : Nat)
  (w : World h)

/-- Wherever a recorded value is read, the parameters, globals and places of the memory it reads
hold what they held when it was recorded. In straight-line code there is one time at which it was
recorded (`WrittenOnce.visits_eq`); in a loop this is asked of every round. -/
def Fresh : Prop :=
  ∀ index ty z c, Visits s resolve bound w (.localGet index ty) z →
    s.function.params.length ≤ index → known? s z.state index = some (some c) →
    ∀ e tee ty' p v q, Visits s resolve bound w (.localSet index e tee ty') p →
      Passes s resolve bound e p c (some v) q → Kept s page q.world z.world c

/-- Somewhere a use of a local is written as a recorded code that is not worth the local. -/
def ReadsStale : Prop :=
  ∃ index ty z c, Visits s resolve bound w (.localGet index ty) z ∧
    s.function.params.length ≤ index ∧ known? s z.state index = some (some c) ∧
    value s page z.world c ≠ some (z.world.locals index)

end

/-! ## Straight-line code -/

section
variable {h : Host} (s : Surroundings) (resolve : NameId → Nat) (bound : Nat)

/-- The point after some nodes. -/
def Point.after (p : Point h) (es : List Expr) : Point h :=
  ⟨(writeAll s es p.state).2, (Expr.runAll h resolve bound es p.world).2⟩

/-- The points of straight-line code that is nested to a depth of `n` at most, in the order of the
text. -/
def trail : (n : Nat) → List Expr → Point h → List (Expr × Point h)
  | n + 1, e :: rest, p =>
    (e, p) :: (trail n e.children p ++ trail n rest (p.after s resolve bound [e]))
  | _, _, _ => []

end

/-- The nodes are straight-line code, nested to a depth of `n` at most. -/
def isStraight : (n : Nat) → List Expr → Bool
  | _, [] => true
  | 0, _ :: _ => false
  | n + 1, e :: rest =>
    e.isSimple && e.branchTargets.isEmpty && isStraight n e.children && isStraight n rest

/-- The first node of straight-line code is simple, and both its children and the rest are
straight-line code. -/
theorem of_isStraight_cons {n : Nat} {e : Expr} {rest : List Expr}
    (h : isStraight (n + 1) (e :: rest) = true) :
    e.isSimple = true ∧ isStraight n e.children = true ∧ isStraight n rest = true := by
  simp only [isStraight, Bool.and_eq_true] at h
  exact ⟨h.1.1.1, h.1.2, h.2⟩

section
variable {h : Host} {s : Surroundings} {resolve : NameId → Nat} {bound : Nat} {w : World h}

/-- A node that is written and run to its end leads to the point after it. -/
theorem Passes.eq_after {e : Expr} {p q : Point h} {c : Code} {v : Option Value}
    (hpass : Passes s resolve bound e p c v q) : q = p.after s resolve bound [e] := by
  have hwrite : writeAll s [e] p.state = _ := Walk.exprs_single hpass.written
  rw [Point.after, hwrite, Expr.runAll_single hpass.run]

/-- Goes on after nodes that are written and run to their end. -/
theorem Reaches.after {es rest : List Expr} {x : Expr} {p z : Point h}
    (hwrite : (writeAll s es p.state).1.isOk = true)
    (hrun : (Expr.runAll h resolve bound es p.world).1.isOk = true)
    (hrest : Reaches s resolve bound rest (p.after s resolve bound es) x z) :
    Reaches s resolve bound (es ++ rest) p x z := by
  induction es generalizing p with
  | nil => exact hrest
  | cons e es ih =>
    rw [Point.after] at hrest
    rcases hcodes : writeAll s (e :: es) p.state with ⟨_ | codes, st⟩
    · rw [hcodes] at hwrite
      cases hwrite
    rcases hvalues : Expr.runAll h resolve bound (e :: es) p.world with ⟨_ | values, w⟩
    · rw [hvalues] at hrun
      cases hrun
    rw [hcodes, hvalues] at hrest
    obtain ⟨c, st₁, cs, hc, hcs, -⟩ := Walk.exprs_cons_ok hcodes
    obtain ⟨v, w₁, vs, hv, hvs, -⟩ := Expr.runAll_cons_ok hvalues
    have hcs : writeAll s es st₁ = (.ok cs, st) := hcs
    refine .later (b := ⟨st₁, w₁⟩) ⟨hc, hv⟩ (ih (by rw [hcs]; rfl) (by rw [hvs]; rfl) ?_)
    rw [Point.after, hcs, hvs]
    exact hrest

/-- The trail of straight-line code leaves out no point. -/
theorem Reaches.mem_trail {n : Nat} {es : List Expr} {x : Expr} {p z : Point h}
    (hreach : Reaches s resolve bound es p x z) (hes : isStraight n es = true) :
    (x, z) ∈ trail s resolve bound n es p := by
  induction n generalizing es p with
  | zero =>
    cases es with
    | nil => cases hreach
    | cons => cases hes
  | succ n ih =>
    cases es with
    | nil => cases hreach
    | cons e rest =>
      obtain ⟨hsimple, hchildren, hrest⟩ := of_isStraight_cons hes
      cases hreach with
      | here => exact .head _
      | later hpass hlater =>
        rw [trail, ← hpass.eq_after]
        exact .tail _ (List.mem_append_right _ (ih hlater hrest))
      | operand _ hoperand => exact .tail _ (List.mem_append_left _ (ih hoperand hchildren))
      | block | condition | ifTrue | ifFalse | body | again => cases hsimple

section
variable {params index : Nat} {targets : Label → List Nat} {a b : Assigned} {es : List Expr}

/-- An assignment on the trail of nodes is the first place of its local, which is passed after
them. -/
theorem WriteOnce.trail {n : Nat} {p q : Point h} {value : Expr} {tee : Bool} {ty : Ty}
    (hes : WriteOnce params targets a es b) (hparams : params ≤ index)
    (hset : (.localSet index value tee ty, q) ∈ Framed.trail s resolve bound n es p)
    (hline : isStraight n es = true) : index ∉ a.places ∧ index ∈ b.places := by
  induction n generalizing es a b p with
  | zero => cases es <;> cases hset
  | succ n ih =>
    cases es with
    | nil => cases hset
    | cons e rest =>
      obtain ⟨hsimple, hchildren, hrest⟩ := of_isStraight_cons hline
      cases hes with
      | block | ite | loop => cases hsimple
      | simple _ hbelow hown hlater =>
        rcases List.mem_cons.1 hset with heq | hset
        · cases heq
          obtain ⟨hnew, hpassed⟩ := hown.assigns hparams
          exact ⟨fun hmem => hnew (hbelow.places hmem), hlater.places hpassed⟩
        · rcases List.mem_append.1 hset with hset | hset
          · obtain ⟨hnew, hpassed⟩ := ih hbelow hset hchildren
            exact ⟨hnew, hlater.places (hown.places hpassed)⟩
          · obtain ⟨hnew, hpassed⟩ := ih hlater hset hrest
            exact ⟨fun hmem => hnew (hown.places (hbelow.places hmem)), hpassed⟩

/-- The trail of nodes that assign every local in one place comes to the assignment of a local
once. -/
theorem WriteOnce.trail_once {n : Nat} {p q q' : Point h} {value value' : Expr} {tee tee' : Bool}
    {ty ty' : Ty} (hes : WriteOnce params targets a es b) (hparams : params ≤ index)
    (hset : (.localSet index value tee ty, q) ∈ Framed.trail s resolve bound n es p)
    (hset' : (.localSet index value' tee' ty', q') ∈ Framed.trail s resolve bound n es p)
    (hline : isStraight n es = true) : q = q' := by
  induction n generalizing es a b p with
  | zero => cases es <;> cases hset
  | succ n ih =>
    cases es with
    | nil => cases hset
    | cons e rest =>
      obtain ⟨hsimple, hchildren, hrest⟩ := of_isStraight_cons hline
      cases hes with
      | block | ite | loop => cases hsimple
      | @simple _ _ a₁ a₂ _ _ _ _ hbelow hown hlater =>
        have hsub := hown.places
        -- The place is passed below the node, at the node, or after it.
        have hwhere : ∀ {value tee ty z}, (.localSet index value tee ty, z) ∈
            Framed.trail s resolve bound (n + 1) (e :: rest) p →
              (z = p ∧ index ∉ a₁.places ∧ index ∈ a₂.places) ∨
              ((.localSet index value tee ty, z) ∈ Framed.trail s resolve bound n e.children p ∧
                index ∈ a₁.places) ∨
              ((.localSet index value tee ty, z) ∈
                Framed.trail s resolve bound n rest (p.after s resolve bound [e]) ∧
                index ∉ a₂.places) := by
          intro value tee ty z hz
          rcases List.mem_cons.1 hz with heq | hz
          · cases heq
            exact .inl ⟨rfl, hown.assigns hparams⟩
          · rcases List.mem_append.1 hz with hz | hz
            · exact .inr (.inl ⟨hz, (hbelow.trail hparams hz hchildren).2⟩)
            · exact .inr (.inr ⟨hz, (hlater.trail hparams hz hrest).1⟩)
        rcases hwhere hset with ⟨rfl, hnew, hdone⟩ | ⟨hz, hdone⟩ | ⟨hz, hnew⟩ <;>
          rcases hwhere hset' with ⟨rfl, hnew', hdone'⟩ | ⟨hz', hdone'⟩ | ⟨hz', hnew'⟩
        · rfl
        · exact absurd hdone' hnew
        · exact absurd hdone hnew'
        · exact absurd hdone hnew'
        · exact ih hbelow hz hz' hchildren
        · exact absurd (hsub hdone) hnew'
        · exact absurd hdone' hnew
        · exact absurd (hsub hdone') hnew
        · exact ih hlater hz hz' hrest

end

section
variable {w : World h} {body : List Expr} {label : Option Label} {ty : Ty} {n : Nat}

/-- The points of a function whose body is straight-line code are those of its trail. -/
theorem Visits.mem_trail {x : Expr} {z : Point h} (hx : Visits s resolve bound w x z)
    (hbody : s.function.body? = some (.block label body ty)) (hline : isStraight n body = true) :
    x = .block label body ty ∨ (x, z) ∈ trail s resolve bound n body ⟨initial s, w⟩ := by
  obtain ⟨tree, htree, hx⟩ := hx
  cases hbody.symm.trans htree
  cases hx with
  | here => exact .inl rfl
  | later _ hrest => cases hrest
  | operand hsimple _ => cases hsimple
  | block hx => exact .inr (hx.mem_trail hline)

/-- An execution of straight-line code comes to the assignment of a local at one point, so that what
is `Fresh` there is so since the latest assignment. -/
theorem WrittenOnce.visits_eq (honce : WrittenOnce s)
    (hbody : s.function.body? = some (.block label body ty)) (hline : isStraight n body = true)
    {index : Nat} (hindex : s.function.params.length ≤ index) {value value' : Expr}
    {tee tee' : Bool} {ty₁ ty₂ : Ty} {p q : Point h}
    (hp : Visits s resolve bound w (.localSet index value tee ty₁) p)
    (hq : Visits s resolve bound w (.localSet index value' tee' ty₂) q) : p = q := by
  obtain ⟨targets, b, hwrites⟩ := honce _ hbody
  cases hwrites with
  | simple hsimple => cases hsimple
  | block hinside =>
    have hp := (hp.mem_trail hbody hline).resolve_left nofun
    have hq := (hq.mem_trail hbody hline).resolve_left nofun
    exact hinside.trail_once hindex hp hq hline

end

end

/-! ## Surroundings to try -/

/-- Surroundings with a memory that has a value at each address, and with functions that do
nothing. -/
def cells : Host where
  Memory := Nat → Value
  unary _ _ := .error (.failed "unary")
  binary op l r :=
    match op, l, r with
    | .int _ .add, l, r => (l.sum? r).elim (.error (.failed "add")) .ok
    | .int .w32 .sub, .i32 x, .i32 y => .ok (.i32 (x - y))
    | _, _, _ => .error (.failed "binary")
  load arg _ address memory :=
    match memory (address.asIndex + arg.offset) with
    | .i32 word => .ok (.i32 (if arg.bytes = 1 then word &&& 255 else word))
    | v => .ok v
  memorySize _ := .i32 1
  update u memory :=
    match u with
    | .store arg address v =>
      (.ok v, fun i => if i = address.asIndex + arg.offset then v else memory i)
    | _ => (.error (.failed "update"), memory)
  call _ _ store := (.ok (.i32 0), store)

theorem cells_addsWords : cells.AddsWords := by
  intro width l r v hv
  simp only [cells] at hv
  cases hsum : l.sum? r with
  | none =>
    rw [hsum] at hv
    cases hv
  | some u =>
    rw [hsum] at hv
    cases hv
    rfl

/-- A function of one parameter and four locals; the first global is the stack pointer, and the two
others bear the same name. -/
def trial (body : List Expr) : Surroundings where
  program :=
    { functions := []
      globals := [⟨"sp", .i32, true, none⟩, ⟨"count", .i32, true, none⟩,
        ⟨"count", .i32, true, none⟩]
      tables := []
      segments := []
      names := [] }
  memory := {}
  function :=
    { name := ⟨0⟩
      params := [.i32]
      result := .i32
      kind := .defined [.i32, .i32, .i32, .i32] (.block none body .i32)
      exportName := none }
  stackPointer := some 0

/-- The parameter is `300`, and the globals are `100`, `101` and so on. -/
def start : World cells where
  locals i := if i = 0 then .i32 300 else .i32 0
  store := ⟨fun i => .i32 (.ofNat 32 (100 + i)), fun _ => .i32 0⟩
  trace := []

theorem trial_writtenOnce {body : List Expr} {n : Nat} {a : Assigned}
    (hbody : scan 1 n (fun _ => []) ⟨[], []⟩ [.block none body .i32] = some a) :
    WrittenOnce (trial body) := by
  intro tree htree
  cases htree
  exact ⟨fun _ => [], a, scan_once hbody⟩

/-- An access to a word, at a distance of `12`. -/
def word : MemArg := ⟨12, 4, false, false⟩

/-! ## Reading fresh values -/

/-- In a function that assigns every local in one place and before its uses, every use is written as
what it is worth, provided that recorded values are fresh when they are read. -/
theorem readsTrue_of_fresh {h : Host} {s : Surroundings} {page : Page h} {resolve : NameId → Nat}
    {bound : Nat} {w : World h} (hadds : h.AddsWords) (honce : WrittenOnce s) {nodes : List Code}
    (hprinted : (statements s).1 = .ok nodes)
    (hnames : NamesHold s page resolve bound w) (hfresh : Fresh s page resolve bound w) :
    ReadsTrue s page resolve bound w := by
  -- The worlds in which the assignments to a local leave a code for it.
  let Seen (index : Nat) (c : Code) (w₀ : World h) : Prop :=
    ∃ e tee ty p v q, Visits s resolve bound w (.localSet index e tee ty) p ∧
      Passes s resolve bound e p c (some v) q ∧ q.world = w₀
  suffices hproper : ∀ x z, Visits s resolve bound w x z →
      Proper s page resolve bound (fun _ => True) Seen x z from
    readsTrue_of_proper hadds honce (Prod.ext hprinted rfl) hproper
  refine fun x z hx => ⟨(hnames x z hx).namedFor, ?_, ?_⟩
  · rintro index ty rfl hindex c hc ⟨w₀, ⟨e, tee, ty', p, v, q, hset, hpass, rfl⟩, hvalue, hvars⟩ -
    have hkept := hfresh index ty z c hx hindex hc e tee ty' p v q hset hpass
    rw [← hkept.value_eq hvars]
    exact hvalue trivial
  · rintro index e tee ty rfl - c v q hpass -
    exact ⟨e, tee, ty, z, v, q, hx, hpass, rfl⟩

/-- Stores the parameter, loads it again, stores something elsewhere, and returns what was
loaded. -/
def elsewhere : List Expr :=
  [.store (.const (.i32 8)) (.localGet 0 .i32) word,
    .localSet 1 (.load (.const (.i32 8)) word .i32) false .void,
    .store (.const (.i32 40)) (.const (.i32 7)) word,
    .localGet 1 .i32]

/-- What was loaded is still there after a store elsewhere. -/
theorem readsTrue_of_fresh_elsewhere :
    ReadsTrue (trial elsewhere) ⟨.i32 84, fun _ _ => none, fun _ => 0⟩ NameId.slot 0 start := by
  have hscan : scan 1 9 (fun _ => []) ⟨[], []⟩ [.block none elsewhere .i32] = some _ := rfl
  have hstraight : isStraight 9 elsewhere = true := by decide +kernel
  have hprinted : (statements (trial elsewhere)).1 = .ok _ := rfl
  refine readsTrue_of_fresh cells_addsWords (trial_writtenOnce hscan) hprinted ?_ ?_
  · intro x z hx
    rcases hx.mem_trail rfl hstraight with rfl | hx
    · trivial
    simp only [elsewhere, trail, Expr.children, List.cons_append, List.nil_append, List.mem_cons,
      Prod.mk.injEq, List.not_mem_nil, or_false, List.append_nil] at hx
    rcases hx with ⟨rfl, -⟩ | ⟨rfl, -⟩ | ⟨rfl, -⟩ | ⟨rfl, -⟩ | ⟨rfl, -⟩ | ⟨rfl, -⟩ | ⟨rfl, -⟩ |
      ⟨rfl, -⟩ | ⟨rfl, -⟩ | ⟨rfl, -⟩
    case inr.inr.inr.inr.inr.inl =>
      -- The load is the only name, and it is not written as a slot.
      intro place v q hpass
      cases hpass.written
    all_goals trivial
  · intro index ty z c hz hindex hc e tee ty' p v q hp hpass
    have hz := (hz.mem_trail rfl hstraight).resolve_left (by rintro ⟨⟩)
    have hp := (hp.mem_trail rfl hstraight).resolve_left (by rintro ⟨⟩)
    simp only [elsewhere, trail, Expr.children, List.cons_append, List.nil_append, List.mem_cons,
      Prod.mk.injEq, List.not_mem_nil, or_false, List.append_nil, reduceCtorEq, false_and, false_or,
      Expr.localGet.injEq, Expr.localSet.injEq] at hz hp
    obtain ⟨⟨rfl, rfl, -, -⟩, rfl⟩ := hp
    rcases hz with ⟨⟨hparam, -⟩, -⟩ | ⟨-, rfl⟩
    · cases hparam
    · have hdereference : Code.deref (.const (.i32 8) none) word .i32 = c :=
        Except.ok.inj (congrArg Prod.fst hpass.written)
      cases hdereference
      cases hpass.eq_after
      refine ⟨trivial, fun a ha => ?_⟩
      cases ha
      rfl

/-- Straight-line code that assigns every local once and before its uses, and in which nevertheless
a recorded code is read that is not worth its local, whatever the names on the page mean. -/
structure Misread (body : List Expr) : Prop where
  line : isStraight 12 body = true
  once : WrittenOnce (trial body)
  printed : (statements (trial body)).1.isOk = true
  wrong : ∀ page, ReadsStale (trial body) page NameId.slot 0 start

/-- Nodes followed by the difference of two locals. -/
def difference (es : List Expr) : List Expr :=
  es ++ [.binary (.int .w32 .sub) (.localGet 3 .i32) (.localGet 4 .i32)]

/-- Of two locals that differ and have the same recorded code, one is read wrongly. -/
theorem readsStale_difference {es : List Expr} {s : Surroundings} {p : Point cells} {c : Code}
    (hs : s = trial (difference es))
    (hp : p = Point.after s NameId.slot 0 ⟨initial s, start⟩ es)
    (hwrite : (writeAll s es (initial s)).1.isOk = true)
    (hrun : (Expr.runAll cells NameId.slot 0 es start).1.isOk = true)
    (hcodes : (writeAll s [.localGet 3 .i32] p.state).1 = .ok [c])
    (hknown₃ : known? s p.state 3 = some (some c)) (hknown₄ : known? s p.state 4 = some (some c))
    (hdiffer : p.world.locals 3 ≠ p.world.locals 4) (page : Page cells) :
    ReadsStale s page NameId.slot 0 start := by
  have hparams : s.function.params.length = 1 := by
    rw [hs]
    rfl
  have hbody : s.function.body? = some (.block none (difference es) .i32) := by
    rw [hs]
    rfl
  have hvisits : ∀ {x z}, Reaches s NameId.slot 0 [.localGet 3 .i32, .localGet 4 .i32] p x z →
      Visits s NameId.slot 0 start x z := fun hx =>
    ⟨_, hbody, .block (.after hwrite hrun (.operand rfl (hp ▸ hx)))⟩
  have hread₄ : Visits s NameId.slot 0 start (.localGet 4 .i32) p := by
    obtain ⟨c₃, st₃, cs, hwrite₃, -, -⟩ := Walk.exprs_cons_ok (Prod.ext hcodes rfl)
    obtain ⟨rfl, rfl⟩ := localGet_known (by omega) hknown₃ hwrite₃
    exact hvisits (.later (b := ⟨p.state, p.world⟩) ⟨hwrite₃, rfl⟩ .here)
  by_cases hvalue : value s page p.world c = some (p.world.locals 3)
  · refine ⟨4, .i32, p, c, hread₄, by omega, hknown₄, ?_⟩
    rw [hvalue]
    exact fun heq => hdiffer (Option.some.inj heq)
  · exact ⟨3, .i32, p, c, hvisits .here, by omega, hknown₃, hvalue⟩

/-- Stores the parameter in the frame, and loads it again. -/
def spill : List Expr :=
  [.localSet 1 (.globalGet 0 .i32) false .void,
    .localSet 2 (.binary (.int .w32 .sub) (.localGet 1 .i32) (.const (.i32 16))) false .void,
    .store (.localGet 2 .i32) (.localGet 0 .i32) word,
    .localSet 3 (.load (.localGet 2 .i32) word .i32) false .void]

/-- Stores `7` in the place of the parameter, and loads that. -/
def overwritten : List Expr :=
  spill ++
    [.store (.localGet 2 .i32) (.const (.i32 7)) word,
      .localSet 4 (.load (.localGet 2 .i32) word .i32) false .void]

/-- Loads the lowest byte of the parameter, too. -/
def narrowed : List Expr :=
  spill ++ [.localSet 4 (.load (.localGet 2 .i32) { word with bytes := 1 } .i32) false .void]

/-- Subtracts two numbers from the stack pointer. -/
def twoBases : List Expr :=
  [.localSet 1 (.globalGet 0 .i32) false .void,
    .localSet 3 (.binary (.int .w32 .sub) (.localGet 1 .i32) (.const (.i32 16))) false .void,
    .localSet 4 (.binary (.int .w32 .sub) (.localGet 1 .i32) (.const (.i32 8))) false .void]

/-- Reads two globals. -/
def homonyms : List Expr :=
  [.localSet 3 (.globalGet 1 .i32) false .void, .localSet 4 (.globalGet 2 .i32) false .void]

/-- Straight-line code that assigns every local once and before its uses can be written wrongly: a
place of the memory may be overwritten after its value was recorded, a part of a stack slot is
written like the whole, there is but one frame base, and globals may share a name. -/
theorem readsStale_straight :
    Misread (difference overwritten) ∧ Misread (difference narrowed) ∧
      Misread (difference twoBases) ∧ Misread (difference homonyms) := by
  refine ⟨⟨by decide +kernel, trial_writtenOnce (n := 12) rfl, by decide +kernel, ?_⟩,
    ⟨by decide +kernel, trial_writtenOnce (n := 12) rfl, by decide +kernel, ?_⟩,
    ⟨by decide +kernel, trial_writtenOnce (n := 12) rfl, by decide +kernel, ?_⟩,
    ⟨by decide +kernel, trial_writtenOnce (n := 12) rfl, by decide +kernel, ?_⟩⟩
  · exact readsStale_difference (c := .slot ⟨12, 0⟩) rfl rfl (by decide +kernel)
      (by decide +kernel) rfl rfl rfl (by decide +kernel)
  · exact readsStale_difference (c := .slot ⟨12, 0⟩) rfl rfl (by decide +kernel)
      (by decide +kernel) rfl rfl rfl (by decide +kernel)
  · exact readsStale_difference (c := .stackBase) rfl rfl (by decide +kernel)
      (by decide +kernel) rfl rfl rfl (by decide +kernel)
  · exact readsStale_difference (c := .globalVar "count") rfl rfl (by decide +kernel)
      (by decide +kernel) rfl rfl rfl (by decide +kernel)

end Framed

end WasmLift
