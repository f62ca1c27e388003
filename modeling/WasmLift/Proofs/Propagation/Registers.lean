import WasmLift.Proofs.Propagation.Soundness

/-!
# Reading recorded values

Trust in what is recorded holds at every point that a run of a body comes to (`Reaches.stands`), and
what the walk knows of a local there it knows to the end. So in a function that writes its locals
once, a use of a local is written as what it is worth, by means of variables that the page assigns
whenever the function does (`readsTrue_of_proper`), as long as all points are proper.
-/

namespace WasmLift

namespace Framed

variable {h : Host}

section
variable {s : Surroundings} {page : Page h} {resolve : NameId → Nat} {bound : Nat}
  {Counts : Code → Prop} {Seen : Nat → Code → World h → Prop} {targets : Label → List Nat}
  {a b : Assigned}

theorem WriteOnce.cons_inv {params : Nat} {e : Expr} {rest : List Expr}
    (hes : WriteOnce params targets a (e :: rest) b) :
    ∃ a₁, WriteOnce params targets a [e] a₁ ∧ WriteOnce params targets a₁ rest b := by
  cases hes with
  | simple he hchildren hown hrest => exact ⟨_, .simple he hchildren hown .nil, hrest⟩
  | block hchildren hsurely hrest => exact ⟨_, .block hchildren hsurely .nil, hrest⟩
  | ite hcondition htrue hfalse hsurely hrest =>
    exact ⟨_, .ite hcondition htrue hfalse hsurely .nil, hrest⟩
  | loop hbody hrest => exact ⟨_, .loop hbody .nil, hrest⟩

theorem Extends.trans {places places' : List Nat} {st₁ st₂ st₃ : FrameState}
    (h₁ : Extends s places st₁ st₂) (hsub : places ⊆ places') (h₂ : Extends s places' st₂ st₃) :
    Extends s places st₁ st₃ :=
  fun i hi known hknown => h₂ i (hsub hi) known (h₁ i hi known hknown)

/-- The first of several nodes, and what is known after it to the end of the walk over all. -/
theorem WriteOnce.head {e : Expr} {rest : List Expr}
    (hes : WriteOnce s.function.params.length targets a (e :: rest) b) {st last : FrameState}
    (hknows : Knows s st a.places) {cs : List Code}
    (hwrite : writeAll s (e :: rest) st = (.ok cs, last)) :
    ∃ a₁ c st₁, WriteOnce s.function.params.length targets a [e] a₁ ∧
      write s e st = (.ok c, st₁) ∧ a₁.places ⊆ b.places ∧ Extends s a₁.places st₁ last := by
  obtain ⟨a₁, he, hrest⟩ := hes.cons_inv
  obtain ⟨c, st₁, cs, hwrite, hwrites, -⟩ := Walk.exprs_cons_ok hwrite
  exact ⟨a₁, c, st₁, he, hwrite, hrest.places,
    hrest.extends_all (he.knows hknows (Walk.exprs_single hwrite)) hwrites⟩

variable (s page Counts Seen) in
/-- What is known of a point before a node: locals are written once in the node, what is recorded
for the surely assigned ones can be trusted, and what is known after the node stays known to the end
of the walk. -/
structure Stands (x : Expr) (z : Point h) (places : List Nat) (last : FrameState)
    (targets : Label → List Nat) (a b : Assigned) : Prop where
  once : WriteOnce s.function.params.length targets a [x] b
  knows : Knows s z.state a.places
  sure : Sure s page Counts Seen a.places a.surely z
  sub : b.places ⊆ places
  written : ∃ c st, write s x z.state = (.ok c, st) ∧ Extends s b.places st last

theorem Stands.onward {x : Expr} {z : Point h} {places places' : List Nat}
    {st last : FrameState} {targets : Label → List Nat} {a b : Assigned}
    (hx : Stands s page Counts Seen x z places st targets a b) (hsub : places ⊆ places')
    (hlast : Extends s places st last) :
    Stands s page Counts Seen x z places' last targets a b := by
  obtain ⟨c, st₁, hwrite, hextends⟩ := hx.written
  exact ⟨hx.once, hx.knows, hx.sure, fun i hi => hsub (hx.sub hi),
    c, st₁, hwrite, hextends.trans hx.sub hlast⟩

/-- Trust holds at every point that a run of a body comes to. -/
theorem Reaches.stands (hadds : h.AddsWords) (hclosed : Closed Counts) {es : List Expr} {x : Expr}
    {p z : Point h} (hreach : Reaches s resolve bound es p x z)
    (hes : WriteOnce s.function.params.length targets a es b) (hknows : Knows s p.state a.places)
    (hsure : Sure s page Counts Seen a.places a.surely p)
    (hproper : ∀ x z, Reaches s resolve bound es p x z →
      Proper s page resolve bound Counts Seen x z)
    {cs : List Code} {last : FrameState} (hwrite : writeAll s es p.state = (.ok cs, last)) :
    ∃ targets' a' b', Stands s page Counts Seen x z b.places last targets' a' b' := by
  induction hreach generalizing targets a b cs last with
  | here =>
    obtain ⟨a₁, c, st₁, he, hwrite, hsub, hout⟩ := hes.head hknows hwrite
    exact ⟨targets, a, a₁, he, hknows, hsure, hsub, c, st₁, hwrite, hout⟩
  | @later e x rest p q z c v hpass _ ih =>
    obtain ⟨a₁, he, hrest⟩ := hes.cons_inv
    obtain ⟨c', st₁, cs, hwrite, hwrites, -⟩ := Walk.exprs_cons_ok hwrite
    cases hpass.written.symm.trans hwrite
    have hknows₁ := he.knows hknows (Walk.exprs_single hpass.written)
    have hone := (he.sound hadds hclosed).one p c q.state hknows hsure
      (fun x z hx => hproper x z (hx.weaken rfl)) hpass.written
    exact ih hrest hknows₁ (hone.1 v q.world hpass.run).1
      (fun x z hx => hproper x z (.later hpass hx)) hwrites
  | @operand e x rest p z hsimple _ ih =>
    obtain ⟨a₁, c, st₁, he, hwrite, hsub, hout⟩ := hes.head hknows hwrite
    cases he with
    | block | ite | loop => cases hsimple
    | simple _ hchildren hown hnil =>
      cases hnil
      obtain ⟨codes, st₂, hcodes, hcompose⟩ := Walk.simple_ok hsimple hwrite
      have hown' := hown.extends (hchildren.knows hknows hcodes) hcompose
      obtain ⟨targets', a', b', hz⟩ := ih hchildren hknows hsure
        (fun x z hx => hproper x z (.operand hsimple hx)) hcodes
      exact ⟨targets', a', b', (hz.onward hown.places hown').onward hsub hout⟩
  | block _ ih =>
    obtain ⟨a₁, c, st₁, he, hwrite, hsub, hout⟩ := hes.head hknows hwrite
    cases he with
    | simple hsimple => cases hsimple
    | block hchildren _ hnil =>
      cases hnil
      obtain ⟨-, codes, hcodes⟩ := Walk.block_ok hwrite
      obtain ⟨targets', a', b', hz⟩ := ih hchildren hknows hsure
        (fun x z hx => hproper x z (.block hx)) hcodes
      exact ⟨targets', a', b', hz.onward hsub hout⟩
  | condition _ ih =>
    obtain ⟨a₁, c, st₁, he, hwrite, hsub, hout⟩ := hes.head hknows hwrite
    cases he with
    | simple hsimple => cases hsimple
    | ite hcondition htrue hfalse _ hnil =>
      cases hnil
      obtain ⟨-, cc, st₁, tc, st₂, fs, hcc, htc, hfs⟩ := Walk.ite_ok hwrite
      have hknows₁ := hcondition.knows hknows (Walk.exprs_single hcc)
      have hknows₂ := htrue.knows hknows₁ (Walk.exprs_single htc)
      obtain ⟨targets', a', b', hz⟩ := ih hcondition hknows hsure
        (fun x z hx => hproper x z (.condition hx)) (Walk.exprs_single hcc)
      have hz := hz.onward htrue.places (htrue.extends_all hknows₁ (Walk.exprs_single htc))
      have hz := hz.onward hfalse.places (hfalse.extends_all hknows₂ hfs)
      exact ⟨targets', a', b', hz.onward hsub hout⟩
  | @ifTrue _ _ _ _ _ _ p q z c v hpass hv _ ih =>
    obtain ⟨a₁, c, st₁, he, hwrite, hsub, hout⟩ := hes.head hknows hwrite
    cases he with
    | simple hsimple => cases hsimple
    | ite hcondition htrue hfalse _ hnil =>
      cases hnil
      obtain ⟨-, cc, st₁, tc, st₂, fs, hcc, htc, hfs⟩ := Walk.ite_ok hwrite
      cases hpass.written.symm.trans hcc
      have hknows₁ := hcondition.knows hknows (Walk.exprs_single hcc)
      have hknows₂ := htrue.knows hknows₁ (Walk.exprs_single htc)
      have hone := (hcondition.sound hadds hclosed).one p _ q.state hknows hsure
        (fun x z hx => hproper x z (.condition hx)) hcc
      obtain ⟨targets', a', b', hz⟩ := ih htrue hknows₁ (hone.1 _ q.world hpass.run).1
        (fun x z hx => hproper x z (.ifTrue hpass hv hx)) (Walk.exprs_single htc)
      have hz := hz.onward hfalse.places (hfalse.extends_all hknows₂ hfs)
      exact ⟨targets', a', b', hz.onward hsub hout⟩
  | @ifFalse _ _ _ _ _ _ p q z c t v st hpass hv hskip _ ih =>
    obtain ⟨a₁, c, st₁, he, hwrite, hsub, hout⟩ := hes.head hknows hwrite
    cases he with
    | simple hsimple => cases hsimple
    | ite hcondition htrue hfalse _ hnil =>
      cases hnil
      obtain ⟨-, cc, st₁, tc, st₂, fs, hcc, htc, hfs⟩ := Walk.ite_ok hwrite
      cases hpass.written.symm.trans hcc
      cases hskip.symm.trans htc
      have hknows₁ := hcondition.knows hknows (Walk.exprs_single hcc)
      have hknows₂ := htrue.knows hknows₁ (Walk.exprs_single htc)
      have hone := (hcondition.sound hadds hclosed).one p _ q.state hknows hsure
        (fun x z hx => hproper x z (.condition hx)) hcc
      have hsure₂ := (hone.1 _ q.world hpass.run).1.step (q := ⟨st, q.world⟩) htrue.places hknows₁
        (htrue.extends_all hknows₁ (Walk.exprs_single htc)) fun _ _ => rfl
      obtain ⟨targets', a', b', hz⟩ := ih hfalse hknows₂ hsure₂
        (fun x z hx => hproper x z (.ifFalse hpass hv hskip hx)) hfs
      exact ⟨targets', a', b', hz.onward hsub hout⟩
  | body _ ih =>
    obtain ⟨a₁, c, st₁, he, hwrite, hsub, hout⟩ := hes.head hknows hwrite
    cases he with
    | simple hsimple => cases hsimple
    | loop hbody hnil =>
      cases hnil
      obtain ⟨-, d, hd⟩ := Walk.loop_ok hwrite
      obtain ⟨targets', a', b', hz⟩ := ih hbody hknows hsure
        (fun x z hx => hproper x z (.body hx)) (Walk.exprs_single hd)
      exact ⟨targets', a', b', hz.onward hsub hout⟩
  | again hjump _ ih =>
    refine ih hes hknows (hsure.step (fun _ hi => hi) hknows (fun _ _ _ hknown => hknown) ?_)
      (fun x z hx => hproper x z (.again hjump hx)) hwrite
    intro i hi
    cases hes with
    | simple hsimple => cases hsimple
    | loop hbody _ => exact hbody.locals_eval (hknows i hi).1 hi hjump

end

/-! ## Functions -/

section
variable (s : Surroundings) (page : Page h) (resolve : NameId → Nat) (bound : Nat) (w : World h)

/-- A point before a node of the function, on the way of an execution that begins in `w`. -/
def Visits (x : Expr) (z : Point h) : Prop :=
  ∃ body, s.function.body? = some body ∧ Reaches s resolve bound [body] ⟨initial s, w⟩ x z

/-- In the function, every local other than a parameter is assigned in one place at most, and
assigned on every way to a use of it. -/
def WrittenOnce : Prop :=
  ∀ body, s.function.body? = some body →
    ∃ targets b, WriteOnce s.function.params.length targets ⟨[], []⟩ [body] b

/-- The names on the page mean what they were written for, at all points of the function. -/
def NamesHold : Prop :=
  ∀ x z, Visits s resolve bound w x z → Named s page resolve bound z x

/-- Every assignment to the local prints as one to a variable. -/
def Shown (index : Nat) : Prop :=
  ∀ value tee ty z, Visits s resolve bound w (.localSet index value tee ty) z →
    ∃ c st, write s (.localSet index value tee ty) z.state = (.ok (.assign (.localVar index) c), st)

/-- What a use of a local is written as is worth the local, by means of variables that hold on the
page what they hold in the execution. -/
def ReadsTrue : Prop :=
  ∀ index ty z c st, Visits s resolve bound w (.localGet index ty) z →
    localGet s index z.state = (.ok c, st) →
    value s page z.world c = some (z.world.locals index) ∧
      ∀ i ∈ c.localVars, Shown s resolve bound w i

end

section
variable {s : Surroundings} {page : Page h} {resolve : NameId → Nat} {bound : Nat}
  {Seen : Nat → Code → World h → Prop} {w : World h}

/-- Uses of locals are written as what they are worth if all points are proper. -/
theorem readsTrue_of_proper (hadds : h.AddsWords) (honce : WrittenOnce s)
    {nodes : List Code} {last : FrameState} (hprinted : statements s = (.ok nodes, last))
    (hproper : ∀ x z, Visits s resolve bound w x z →
      Proper s page resolve bound (fun _ => True) Seen x z) :
    ReadsTrue s page resolve bound w := by
  rintro index ty z c st ⟨body, hbody, hread⟩ hget
  obtain ⟨targets, b, honce⟩ := honce body hbody
  obtain ⟨code, hcode⟩ := Walk.function_ok hbody hprinted
  have hstands : ∀ x z, Reaches s resolve bound [body] ⟨initial s, w⟩ x z →
      ∃ targets' a' b', Stands s page (fun _ => True) Seen x z b.places last targets' a' b' :=
    fun x z hx =>
      hx.stands hadds .all honce nofun ⟨nofun, nofun⟩
        (fun x z hx => hproper x z ⟨body, hbody, hx⟩) (Walk.exprs_single hcode)
  obtain ⟨targets₁, a₁, b₁, hz⟩ := hstands _ z hread
  have hassigned : index < s.function.params.length ∨ index ∈ a₁.surely := by
    cases hz.once with
    | simple _ hnil hown _ =>
      cases hnil
      exact hown.1
  obtain ⟨hst, hworth⟩ := localGet_worth hz.knows hz.sure hassigned
    ((hproper _ z ⟨body, hbody, hread⟩).read index ty rfl) hget
  refine ⟨hworth.value trivial, fun i hi => ?_⟩
  -- A variable stays one to the end of the walk, so its assignment was not recorded.
  have hvariable : known? s last i = some none := by
    obtain ⟨c₁, st₁, hwrite, hlast⟩ := hz.written
    have hextends := hz.once.extends_all hz.knows (Walk.exprs_single hwrite)
    obtain ⟨hplace, hentry⟩ := hworth.vars i hi
    exact hlast i (hz.once.places hplace) none (hextends i hplace none hentry)
  have hparams := (hz.knows i (hworth.vars i hi).1).1
  rintro value tee ty' z' ⟨body', hbody', hset⟩
  cases hbody.symm.trans hbody'
  obtain ⟨targets₂, a₂, b₂, hz'⟩ := hstands _ z' hset
  obtain ⟨c₂, st₂, hwrite, hlast⟩ := hz'.written
  cases hz'.once with
  | simple _ hchildren hown hnil =>
    cases hnil
    obtain ⟨codes, st₁, hcodes, hcompose⟩ := Walk.simple_ok rfl hwrite
    obtain ⟨d, st₃, cs, -, hnil, rfl⟩ := Walk.exprs_cons_ok hcodes
    cases hnil
    rcases hown.2 with ⟨hparam, -⟩ | ⟨-, -, rfl⟩
    · omega
    · rcases localSet_ok hparams hcompose with ⟨-, rfl⟩ | ⟨-, hentry, -⟩
      · exact ⟨d, st₂, hwrite⟩
      · have hlast := hlast i (.head _) (some d) hentry
        rw [hvariable] at hlast
        cases hlast

end

end Framed

end WasmLift
