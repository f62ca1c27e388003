import WasmLift.Program.Classify
import WasmLift.Proofs.Execution.Nodes
import WasmLift.Proofs.Propagation.Freshness

/-!
# Where stack slots are

A function that opens a frame computes the frame base in its first three statements. Whatever is the
stack pointer plus or minus a constant is written as the frame base, there and later. Where all of
these have one value, an access that is written as a stack slot goes to the frame base plus the
offset of its place (`Framed.slots_at_base`), however the address was put together: through copies
in locals, sums of constants and static offsets. Where the stack pointer is moved by two different
distances, a slot can name the wrong address (`Framed.slot_elsewhere`).
-/

namespace WasmLift

/-- The address and the static part of a load or a store. -/
def Expr.access? : Expr → Option (Expr × MemArg)
  | .load address arg _ => some (address, arg)
  | .store address _ arg => some (address, arg)
  | _ => none

/-- The place in a stack slot that a load or a store is written as. -/
def Code.accessed? : Code → Option SlotPlace
  | .slot place => some place
  | .assign (.slot place) _ => some place
  | _ => none

namespace Framed

variable {h : Host}

/-! ## Ways through nodes -/

section
variable {s : Surroundings} {resolve : NameId → Nat} {bound : Nat} {es : List Expr} {x y : Expr}
  {p q z z' : Point h}

/-- A way to a node and a way on inside it. -/
theorem Reaches.trans (hx : Reaches s resolve bound es p x z)
    (hy : Reaches s resolve bound [x] z y z') : Reaches s resolve bound es p y z' := by
  induction hx with
  | here => exact hy.weaken rfl
  | later hpass _ ih => exact .later hpass (ih hy)
  | operand he _ ih => exact .operand he (ih hy)
  | block _ ih => exact .block (ih hy)
  | condition _ ih => exact .condition (ih hy)
  | ifTrue hpass hv _ ih => exact .ifTrue hpass hv (ih hy)
  | ifFalse hpass hv hskip _ ih => exact .ifFalse hpass hv hskip (ih hy)
  | body _ ih => exact .body (ih hy)
  | again hjump _ ih => exact .again hjump (ih hy)

/-- A way to a node that is not in a first, simple node leads past that node. -/
theorem Reaches.past {e : Expr} {rest : List Expr} {Q : Expr → Prop}
    (hx : Reaches s resolve bound (e :: rest) p x z) (he : e.All Q) (hsimple : e.isSimple = true)
    (hnot : ¬ Q x) :
    ∃ c v q, Passes s resolve bound e p c v q ∧ Reaches s resolve bound rest q x z := by
  cases hx with
  | here => exact absurd he.own hnot
  | later hpass hrest => exact ⟨_, _, _, hpass, hrest⟩
  | operand _ hoperand => exact absurd (hoperand.all fun c hc => he.child hc).own hnot
  | block | condition | ifTrue | ifFalse | body | again => cases hsimple

/-- An assignment passes its value first, and then writes and sets the local. -/
theorem Passes.localSet {index : Nat} {e : Expr} {tee : Bool} {ty : Ty} {c : Code}
    {v : Option Value} (hpass : Passes s resolve bound (.localSet index e tee ty) p c v q) :
    ∃ d u p', Passes s resolve bound e p d (some u) p' ∧
      localSet s index d tee p'.state = (.ok c, q.state) ∧
      q.world = p'.world.setLocal index u := by
  obtain ⟨codes, st, hcodes, hcompose⟩ := Walk.simple_ok rfl hpass.written
  obtain ⟨d, st', ds, hd, hnil, rfl⟩ := Walk.exprs_cons_ok hcodes
  cases hnil
  have hrun := hpass.run
  rw [Expr.eval_simple rfl] at hrun
  obtain ⟨us, w, hus, hact⟩ := bind_ok hrun
  obtain ⟨u, w', vs, hu, hnil, hvs⟩ := Expr.runAll_cons_ok (Expr.operands_ok hus)
  cases hnil
  match us with
  | [u] =>
    cases hvs
    exact ⟨d, u, ⟨st, w⟩, ⟨hd, hu⟩, hcompose, (congrArg Prod.snd hact).symm⟩

end

/-! ## Frames -/

/-- The first statements of a function that opens a frame: `a` is the stack pointer, `b` the size
and `c` their difference. -/
def prologue (sp a b c : Nat) (size : Value) (width : Width) (t₁ t₂ t₃ : Ty) : List Expr :=
  [.localSet a (.globalGet sp t₁) false .void, .localSet b (.const size) false .void,
    .localSet c (.binary (.int width .sub) (.localGet a t₂) (.localGet b t₃)) false .void]

/-- The function opens a frame of `n` bytes, with `c` for its base. -/
structure OpensFrame (s : Surroundings) (a b c : Nat) (n : Int) : Prop where
  statements : ∃ sp size width t₁ t₂ t₃ label rest ty, s.stackPointer = some sp ∧
    size.asInteger? = some n ∧ s.function.body? =
      some (.block label (prologue sp a b c size width t₁ t₂ t₃ ++ rest) ty)
  locals : s.function.params.length ≤ a ∧ s.function.params.length ≤ b ∧
    s.function.params.length ≤ c

theorem OpensFrame.classify {s : Surroundings} {a b c : Nat} {n : Int}
    (hopens : OpensFrame s a b c n) :
    Compression.classify s.stackPointer s.function = .decompressed n := by
  obtain ⟨sp, size, width, t₁, t₂, t₃, label, rest, ty, hsp, hsize, hbody⟩ := hopens.statements
  unfold Function.body? at hbody
  unfold Compression.classify
  split at hbody
  · cases hbody
  · cases hbody
    simp_all [Compression.ofStatements, Compression.frameSize?, prologue, Compression.plainSet?,
      Compression.readsStackPointer, Compression.integer?, Compression.sumOfLocals?, BinOp.isSub]

section
variable (s : Surroundings) (resolve : NameId → Nat) (bound : Nat) (w : World h)

/-- Whatever is written as the frame base, being the stack pointer plus or minus a constant, has the
given value. -/
def Collapses (base : Value) : Prop :=
  ∀ op left right z v q, Visits s resolve bound w (.binary op left right) z →
    Passes s resolve bound (.binary op left right) z .stackBase (some v) q → v = base

end

section
variable {s : Surroundings} {resolve : NameId → Nat} {bound : Nat} {w : World h} {p q z : Point h}
  {a b c : Nat} {n : Int} {base : Value}

/-- While no local is a variable, an assignment records a value without effects. -/
theorem localSet_records {index : Nat} {d d' : Code} {tee : Bool} {st st' : FrameState}
    (hset : localSet s index d tee st = (.ok d', st'))
    (hparams : s.function.params.length ≤ index) (hpure : d.hasEffects = false)
    (hplain : st.plain = []) : st'.plain = [] ∧ known? s st' index = some (some d) := by
  have hslot := localSet_slot hparams hset
  rw [localSet_eq hparams hslot, if_neg (by simp [hplain, hpure])] at hset
  cases hset
  exact ⟨hplain, by simp [known?, hplain, List.getElem?_set_self hslot]⟩

/-- A sum or difference of two locals is written as what their recorded values give. -/
theorem write_binary {op : BinOp} {t₁ t₂ : Ty} {st st' : FrameState} {d l r : Code}
    (hwrite : write s (.binary op (.localGet a t₁) (.localGet b t₂)) st = (.ok d, st'))
    (ha : s.function.params.length ≤ a) (hb : s.function.params.length ≤ b)
    (hl : known? s st a = some (some l)) (hr : known? s st b = some (some r)) :
    d = binary op l r := by
  obtain ⟨codes, st₁, hcodes, hcompose⟩ := Walk.simple_ok rfl hwrite
  obtain ⟨l', st₂, rs, hl', hrest, rfl⟩ := Walk.exprs_cons_ok hcodes
  obtain ⟨rfl, rfl⟩ := localGet_known ha hl hl'
  obtain ⟨r', st₃, cs, hr', hnil, rfl⟩ := Walk.exprs_cons_ok hrest
  obtain ⟨rfl, rfl⟩ := localGet_known hb hr hr'
  cases hnil
  cases hcompose
  rfl

/-- After the first statements, the local that holds the frame base has the value that all sums and
differences of the stack pointer and a constant have. -/
theorem prologue_base {sp : Nat} {size : Value} {width : Width} {t₁ t₂ t₃ : Ty}
    {rest : List Expr} {x : Expr} (hsp : s.stackPointer = some sp)
    (hsize : size.asInteger? = some n)
    (hlocals : s.function.params.length ≤ a ∧ s.function.params.length ≤ b ∧
      s.function.params.length ≤ c) (hne : a ≠ b)
    (hplain : p.state.plain = [])
    (hbase : ∀ op left right z v q,
      Reaches s resolve bound (prologue sp a b c size width t₁ t₂ t₃ ++ rest) p
        (.binary op left right) z →
      Passes s resolve bound (.binary op left right) z .stackBase (some v) q → v = base)
    (hx : Reaches s resolve bound (prologue sp a b c size width t₁ t₂ t₃ ++ rest) p x z)
    (haccess : x.access? ≠ none) :
    ∃ q, q.world.locals c = base ∧ Reaches s resolve bound rest q x z := by
  obtain ⟨ha, hb, hc⟩ := hlocals
  have hnode : ∀ e ∈ prologue sp a b c size width t₁ t₂ t₃, e.All fun e => e.access? = none := by
    intro e he
    rw [Expr.all_iff]
    simp only [prologue, List.mem_cons, List.not_mem_nil, or_false] at he
    rcases he with rfl | rfl | rfl <;> simp [Expr.nodes_eq, Expr.children, Expr.access?]
  obtain ⟨c₁, v₁, p₁, hpass₁, hx₁⟩ := hx.past (hnode _ (.head _)) rfl haccess
  obtain ⟨c₂, v₂, p₂, hpass₂, hx₂⟩ := hx₁.past (hnode _ (.tail _ (.head _))) rfl haccess
  obtain ⟨c₃, v₃, p₃, hpass₃, hx₃⟩ := hx₂.past (hnode _ (.tail _ (.tail _ (.head _)))) rfl haccess
  refine ⟨p₃, ?_, hx₃⟩
  -- what the walk has recorded before the third statement
  obtain ⟨d₁, u₁, q₁, hvalue₁, hset₁, -⟩ := hpass₁.localSet
  obtain ⟨d₂, u₂, q₂, hvalue₂, hset₂, -⟩ := hpass₂.localSet
  have hd₁ : d₁ = .stackPointer ∧ q₁.state = p.state := by
    have hwrite : write s (.globalGet sp t₁) p.state = (.ok (globalGet s sp), p.state) := rfl
    rw [globalGet, if_pos hsp, hvalue₁.written] at hwrite
    exact ⟨Except.ok.inj (congrArg Prod.fst hwrite), congrArg Prod.snd hwrite⟩
  have hd₂ : d₂ = const s size ∧ q₂.state = p₁.state := by
    have hwrite : write s (.const size) p₁.state = (.ok (const s size), p₁.state) := rfl
    rw [hvalue₂.written] at hwrite
    exact ⟨Except.ok.inj (congrArg Prod.fst hwrite), congrArg Prod.snd hwrite⟩
  rw [hd₁.1, hd₁.2] at hset₁
  rw [hd₂.1, hd₂.2] at hset₂
  obtain ⟨hplain₁, hknown₁⟩ := localSet_records hset₁ ha rfl hplain
  obtain ⟨-, hknown₂⟩ := localSet_records hset₂ hb rfl hplain₁
  have hknown₁ := (localSet_keepsEntry ha hne (const s size) false).after hknown₁ hset₂
  -- so the third statement assigns what is written as the frame base
  obtain ⟨d₃, u₃, q₃, hvalue₃, -, hworld⟩ := hpass₃.localSet
  have hd₃ : d₃ = .stackBase := by
    rw [write_binary hvalue₃.written ha hb hknown₁ hknown₂]
    simp [binary, frameAddress?, const, integer?, hsize, isStackPointer, BinOp.isSub]
  subst hd₃
  rw [hworld, ← hbase _ _ _ p₂ u₃ q₃ (.later hpass₁ (.later hpass₂ (.operand rfl .here))) hvalue₃]
  simp [World.setLocal]

/-- At every load and store, the local that holds the frame base has the value that all sums and
differences of the stack pointer and a constant have. -/
theorem OpensFrame.holdsBase (hopens : OpensFrame s a b c n) (honce : WrittenOnce s)
    (hbase : Collapses s resolve bound w base) {x : Expr} (hx : Visits s resolve bound w x z)
    (haccess : x.access? ≠ none) : z.world.locals c = base := by
  obtain ⟨sp, size, width, t₁, t₂, t₃, label, rest, ty, hsp, hsize, hbody⟩ := hopens.statements
  obtain ⟨body, hbody', hx⟩ := hx
  cases hbody.symm.trans hbody'
  have hx : Reaches s resolve bound (prologue sp a b c size width t₁ t₂ t₃ ++ rest)
      ⟨initial s, w⟩ x z := by
    cases hx with
    | here => exact absurd rfl haccess
    | later _ hnil => cases hnil
    | operand hsimple _ => cases hsimple
    | block hx => exact hx
  obtain ⟨targets, b', honce⟩ := honce _ hbody
  cases honce with
  | simple hsimple => cases hsimple
  | block honce _ _ =>
    obtain ⟨a₁, hfirst, honce⟩ := honce.cons_inv
    obtain ⟨a₂, hsecond, honce⟩ := honce.cons_inv
    obtain ⟨a₃, hthird, honce⟩ := honce.cons_inv
    obtain ⟨ha, hb, hc⟩ := hopens.locals
    have hplace : c ∈ a₃.places := (hthird.assigns hc).2
    have hne : a ≠ b := by
      rintro rfl
      exact (hsecond.assigns hb).1 (hfirst.assigns ha).2
    obtain ⟨q, hq, hrest⟩ := prologue_base hsp hsize ⟨ha, hb, hc⟩ hne rfl
      (fun op left right z v q hz => hbase op left right z v q ⟨_, hbody, .block hz⟩) hx haccess
    -- no later statement assigns the local again
    have hkeeps : ∀ e : Expr, e.All (Spares s.function.params.length a₃.places) →
        Keeps (fun w : World h => w.locals c = base) (e.eval h resolve bound) := fun e he =>
      Expr.eval_keeps (he.mono fun y hy vs =>
        act_keepsLocal (hy.ne hc hplace) vs)
    exact hrest.preserves (P := fun z => z.world.locals c = base) honce.spares
      (fun e he p d v q hp hpass => (hkeeps e he).after hp hpass.run)
      (fun _ _ _ _ _ hp _ => hp)
      (fun e he p l v w hp hjump => (hkeeps e he).after hp hjump) hq

/-! ## Addresses in the frame -/

/-- A code that is a constant or an address in the frame. -/
def Anchored : Code → Prop
  | .const _ _ | .stackBase | .stackAddress _ => True
  | _ => False

theorem Anchored.closed : Closed Anchored := by
  refine ⟨fun _ _ => trivial, fun {c} k hc => ?_, nofun, nofun, nofun, nofun⟩
  cases c with
  | stackBase | stackAddress => trivial
  | _ => cases hc

/-- What is anchored has the same value in all worlds. -/
theorem Anchored.value_eq {page : Page h} {w w' : World h} {d : Code} (hd : Anchored d) :
    value s page w d = value s page w' d := by
  cases d with
  | const | stackBase | stackAddress => rfl
  | _ => cases hd

/-- Where nothing but one value is written as the frame base, all points are proper, as far as
anchored codes go. -/
theorem Collapses.proper (hbase : Collapses s resolve bound w base) {x : Expr}
    (hx : Visits s resolve bound w x z) :
    Proper s ⟨base, fun _ _ => none, fun _ => 0⟩ resolve bound Anchored (fun _ _ _ => True) x
      z := by
  refine ⟨?_, ?_, fun _ _ _ _ _ _ _ _ _ _ _ => trivial⟩
  · cases x with
    | binary op left right => exact fun v q hpass => hbase op left right z v q hx hpass
    | globalGet | load => exact nofun
    | _ => trivial
  · rintro index ty rfl - d - ⟨w₀, -, hvalue, -⟩ hd
    rw [hd.value_eq]
    exact hvalue hd

/-- An access that is written as a stack slot has an address in the frame, and the place of the slot
is that address plus the static offset. -/
theorem access_slot {d : Code} {arg : MemArg} {ty : Ty} {place : SlotPlace} {st st' : FrameState}
    (haccess : access d arg ty st = (.ok (.slot place), st')) :
    ∃ k, distance? d = some k ∧ k + arg.offset = (place.offset + place.diff : Nat) := by
  cases access_cases haccess with
  | slot inFrame placed =>
    rw [FrameLayout.place_sum placed]
    exact frameOffset?_some inFrame

/-- A load or store that is written with a stack slot is written by placing the access. -/
theorem write_accessed {x address : Expr} {arg : MemArg} {d : Code} {place : SlotPlace}
    {st st' : FrameState} (hx : x.access? = some (address, arg))
    (hwrite : write s x st = (.ok d, st')) (hd : d.accessed? = some place) :
    ∃ da st₁ st₂ ty st₃, write s address st = (.ok da, st₁) ∧
      access da arg ty st₂ = (.ok (.slot place), st₃) := by
  cases x with
  | load address' arg' ty =>
    cases hx
    obtain ⟨codes, st₁, hcodes, hcompose⟩ := Walk.simple_ok rfl hwrite
    obtain ⟨da, st₂, cs, hda, hnil, rfl⟩ := Walk.exprs_cons_ok hcodes
    cases hnil
    refine ⟨da, st₁, st₁, ty, st', hda, ?_⟩
    have hcompose : access da arg ty st₁ = (.ok d, st') := hcompose
    rcases access_ok hcompose with rfl | ⟨-, place', rfl⟩
    · cases hd
    · cases hd
      exact hcompose
  | store address' value arg' =>
    cases hx
    obtain ⟨codes, st₁, hcodes, hcompose⟩ := Walk.simple_ok rfl hwrite
    obtain ⟨da, st₂, cs, hda, hcs, rfl⟩ := Walk.exprs_cons_ok hcodes
    obtain ⟨dv, st₃, cs, -, hnil, rfl⟩ := Walk.exprs_cons_ok hcs
    cases hnil
    refine ⟨da, st₂, st₁, value.ty, st', hda, ?_⟩
    have hcompose : store da dv value.ty arg st₁ = (.ok d, st') := hcompose
    obtain ⟨target, st₄, htarget, hpure⟩ := bind_ok hcompose
    cases hpure
    rcases access_ok htarget with rfl | ⟨-, place', rfl⟩
    · cases hd
    · cases hd
      exact htarget
  | _ => cases hx

/-- In a function that opens a frame and assigns every local in one place and before its uses, all
accesses that are written as stack slots go to the place they are written as, counted from the value
of the local that holds the frame base. This is so if everything that is written as the frame base
has one and the same value. -/
theorem slots_at_base (hadds : h.AddsWords) (hopens : OpensFrame s a b c n) (honce : WrittenOnce s)
    {nodes : List Code} (hprinted : (statements s).1 = .ok nodes)
    (hbase : Collapses s resolve bound w base) :
    Compression.classify s.stackPointer s.function = .decompressed n ∧
      ∀ x z, Visits s resolve bound w x z → ∀ address arg, x.access? = some (address, arg) →
        ∀ d st place, write s x z.state = (.ok d, st) → d.accessed? = some place →
          ∀ v w', address.eval h resolve bound z.world = (.ok (some v), w') →
            v.plus arg.offset = (z.world.locals c).plus (place.offset + place.diff : Nat) := by
  refine ⟨hopens.classify, fun x z hx address arg haccess d st place hwrite hd v w' hrun => ?_⟩
  rw [hopens.holdsBase honce hbase hx (by simp [haccess])]
  obtain ⟨da, st₁, st₂, ty, st₃, hda, hslot⟩ := write_accessed haccess hwrite hd
  obtain ⟨k, hk, hplace⟩ := access_slot hslot
  -- the address is worth what it is written as
  obtain ⟨body, hbody, hx⟩ := hx
  obtain ⟨targets, b', honce⟩ := honce body hbody
  obtain ⟨code, hcode⟩ := Walk.function_ok hbody (Prod.ext hprinted rfl)
  have haddress : Reaches s resolve bound [x] z address z := by
    cases x with
    | load | store =>
      cases haccess
      exact .operand rfl .here
    | _ => cases haccess
  have hproper := fun y z' hy => hbase.proper (x := y) (z := z') ⟨body, hbody, hy⟩
  obtain ⟨targets', a', b', hstands⟩ := (hx.trans haddress).stands hadds Anchored.closed honce nofun
    ⟨nofun, nofun⟩ hproper (Walk.exprs_single hcode)
  have hsound := (hstands.once.sound hadds Anchored.closed).one z da st₁ hstands.knows hstands.sure
    (fun y z' hy => hproper y z' ((hx.trans haddress).trans hy)) hda
  obtain ⟨-, hworth⟩ := (hsound.1 (some v) w' hrun).2 (hasEffects_of_distance? hk) v rfl
  rw [value_address hk (hworth.value (Anchored.closed.address hk)), Value.plus_plus, hplace]

end

/-- Opens a frame of 16 bytes. -/
def opened : List Expr :=
  prologue 0 1 2 3 (.i32 16) .w32 .i32 .i32 .i32

theorem trial_opensFrame (rest : List Expr) : OpensFrame (trial (opened ++ rest)) 1 2 3 16 :=
  ⟨⟨0, .i32 16, .w32, .i32, .i32, .i32, none, rest, .i32, rfl, rfl, rfl⟩, by simp [trial]⟩

/-- Stores the parameter at the address in a local. -/
def storeThrough (index : Nat) : Expr :=
  .store (.localGet index .i32) (.localGet 0 .i32) word

/-- Stores the parameter in the frame, through a local that is less than the frame base. -/
def spilled : List Expr :=
  [.localSet 4 (.binary (.int .w32 .add) (.localGet 3 .i32) (.const (.i32 (-4)))) false .void,
    storeThrough 4, .load (.localGet 3 .i32) word .i32]

/-- The store in the frame goes to the place that it is written as. -/
theorem slots_at_base_spilled :
    ∃ z st v w', Visits (trial (opened ++ spilled)) NameId.slot 0 start (storeThrough 4) z ∧
      write (trial (opened ++ spilled)) (storeThrough 4) z.state =
        (.ok (.assign (.slot ⟨8, 0⟩) (.param 0)), st) ∧
      (Expr.localGet 4 .i32).eval cells NameId.slot 0 z.world = (.ok (some v), w') ∧
      v.plus 12 = (z.world.locals 3).plus 8 := by
  let s := trial (opened ++ spilled)
  let z := Point.after s NameId.slot 0 ⟨initial s, start⟩ (opened ++ spilled.take 1)
  have hvisits : Visits s NameId.slot 0 start (storeThrough 4) z := by
    refine ⟨_, rfl, .block ?_⟩
    exact @Reaches.after _ s NameId.slot 0 (opened ++ spilled.take 1) (spilled.drop 1) _ _ z
      (by decide +kernel) (by decide +kernel) .here
  have hscan : scan 1 12 (fun _ => []) ⟨[], []⟩ [.block none (opened ++ spilled) .i32] = some _ :=
    rfl
  have hstraight : isStraight 12 (opened ++ spilled) = true := by decide +kernel
  have hprinted : (statements s).1 = .ok _ := rfl
  have hbase : Collapses s NameId.slot 0 start (.i32 84) := by
    intro op left right z v q hz hpass
    have hz := (hz.mem_trail rfl hstraight).resolve_left nofun
    simp only [opened, prologue, spilled, storeThrough, trail, Expr.children, List.cons_append,
      List.nil_append, List.mem_cons, Prod.mk.injEq, List.not_mem_nil, or_false, List.append_nil,
      reduceCtorEq, false_and, false_or, Expr.binary.injEq] at hz
    rcases hz with ⟨⟨rfl, rfl, rfl⟩, rfl⟩ | ⟨⟨rfl, rfl, rfl⟩, rfl⟩
    · exact (Option.some.inj (Except.ok.inj (congrArg Prod.fst hpass.run))).symm
    · -- the sum is not written as the frame base, but as an address below it
      cases hpass.written
  obtain ⟨-, hslots⟩ := slots_at_base cells_addsWords (trial_opensFrame spilled)
    (trial_writtenOnce hscan) hprinted hbase
  refine ⟨z, _, _, _, hvisits, rfl, rfl, ?_⟩
  exact hslots _ z hvisits _ _ rfl _ _ _ rfl rfl _ _ rfl

/-- Moves the stack pointer by another distance, stores the parameter there, and loads from the
frame. -/
def moved : List Expr :=
  [.localSet 4 (.binary (.int .w32 .sub) (.globalGet 0 .i32) (.const (.i32 8))) false .void,
    storeThrough 4, .load (.localGet 3 .i32) word .i32]

/-- A store outside the place that it is written as: the stack pointer minus `8` is written as the
frame base, as is the stack pointer minus the frame size. -/
theorem slot_elsewhere :
    OpensFrame (trial (opened ++ moved)) 1 2 3 16 ∧ WrittenOnce (trial (opened ++ moved)) ∧
      ∃ z st v w', Visits (trial (opened ++ moved)) NameId.slot 0 start (storeThrough 4) z ∧
        write (trial (opened ++ moved)) (storeThrough 4) z.state =
          (.ok (.assign (.slot ⟨12, 0⟩) (.param 0)), st) ∧
        (Expr.localGet 4 .i32).eval cells NameId.slot 0 z.world = (.ok (some v), w') ∧
        v.plus 12 ≠ (z.world.locals 3).plus 12 := by
  let s := trial (opened ++ moved)
  let z := Point.after s NameId.slot 0 ⟨initial s, start⟩ (opened ++ moved.take 1)
  have hscan : scan 1 12 (fun _ => []) ⟨[], []⟩ [.block none (opened ++ moved) .i32] = some _ := rfl
  refine ⟨trial_opensFrame moved, trial_writtenOnce hscan, z, _, _, _, ⟨_, rfl, .block ?_⟩, rfl,
    rfl, by decide +kernel⟩
  exact @Reaches.after _ s NameId.slot 0 (opened ++ moved.take 1) (moved.drop 1) _ _ z
    (by decide +kernel) (by decide +kernel) .here

end Framed

end WasmLift
