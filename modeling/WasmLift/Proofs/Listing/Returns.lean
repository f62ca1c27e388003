import WasmLift.Proofs.Expansion.Correctness
import WasmLift.Proofs.Expansion.Endings
import WasmLift.Proofs.Listing.Labels
import WasmLift.Proofs.Program.Bodies
import WasmLift.Proofs.Propagation.Steps

/-!
# Where a value is returned

A dialect that writes something for every value (`Dialect.Speaks`) does not drop the last statement
of a body that ends in one. Both dialects are such: no register holds a node that prints nothing. So
the return of a function's value is put in place of the last statement and nothing is cut off, if
the end of the body can be reached at all (`Program.expandBody_returnsLast`). If it cannot, a value
may have been left below a jump, and the code after it comes after the return
(`Program.expandBody_returnsEarly`).
-/

namespace WasmLift

/-! ## Values print something -/

/-- The dialect writes something for every value, as long as the state has the property. -/
structure Dialect.Speaks {σ : Type} (P : σ → Prop) (d : Dialect σ) : Prop where
  localGet : ∀ {index st c st'}, P st → d.localGet index st = (.ok c, st') →
    P st' ∧ c.isNop = false
  localSet : ∀ {index value tee st c st'}, P st → value.isNop = false →
    d.localSet index value tee st = (.ok c, st') → P st' ∧ (tee = true → c.isNop = false)
  globalGet : ∀ index, (d.globalGet index).isNop = false
  const : ∀ value, (d.const value).isNop = false
  binary : ∀ op left right, (d.binary op left right).isNop = false
  load : ∀ {address arg ty st c st'}, P st → d.load address arg ty st = (.ok c, st') →
    P st' ∧ c.isNop = false
  store : ∀ {address value ty arg st c st'}, P st → d.store address value ty arg st = (.ok c, st') →
    P st'

namespace Walk

variable {σ : Type} {P : σ → Prop} {p : Program} {d : Dialect σ} {st st' : σ}

/-- A node made of codes that print something prints something if it is a value. -/
theorem compose_speaks (hd : d.Speaks P) {e : Expr} {cs : List Code} {c : Code} (he : e.Proper)
    (hsimple : e.isSimple = true) (hlength : cs.length = e.children.length)
    (hcs : ∀ c ∈ cs, c.isNop = false) (hst : P st) (hc : compose p d e cs st = (.ok c, st')) :
    P st' ∧ (e.isValue = true → c.isNop = false) := by
  unfold compose at hc
  split at hc
  case h_1 => exact (hd.localGet hst hc).imp_right fun h _ => h
  case h_2 index value tee ty v =>
    obtain ⟨hst', hspeaks⟩ := hd.localSet hst (hcs v (.head _)) hc
    refine ⟨hst', fun hvalue => hspeaks ?_⟩
    cases tee with
    | true => rfl
    | false =>
      rw [he.bare rfl] at hvalue
      cases hvalue
  case h_19 => exact (hd.load hst hc).imp_right fun h _ => h
  case h_20 => exact ⟨hd.store hst hc, nofun⟩
  all_goals
    cases hc
    refine ⟨hst, fun hvalue => ?_⟩
  case h_3 => exact hd.globalGet _
  case h_7 => exact hd.const _
  case h_9 => exact hd.binary _ _ _
  case h_25 =>
    -- No other node is a value, and no value has another number of children.
    exfalso
    cases e with
    | block | ite | loop => cases hsimple
    | br label condition value =>
      cases condition with
      | none => cases hvalue
      | some condition =>
        cases value with
        | none => cases hvalue
        | some value =>
          obtain ⟨v, c, rfl⟩ := List.length_eq_two.1 hlength
          grind
    | select condition ifTrue ifFalse ty =>
      obtain ⟨t, f, c, rfl⟩ := List.length_eq_three.1 hlength
      grind
    | binary op left right =>
      obtain ⟨l, r, rfl⟩ := List.length_eq_two.1 hlength
      grind
    | localSet | unary | load | memoryGrow =>
      obtain ⟨v, rfl⟩ := List.length_eq_one_iff.1 hlength
      grind
    | localGet | globalGet | const | memorySize =>
      obtain rfl := List.length_eq_zero_iff.1 hlength
      grind
    | call | callIndirect => grind
    | _ => cases hvalue
  all_goals first | rfl | cases hvalue

/-- Trees are written as something if each of them is. -/
theorem exprs_speaks {es : List Expr} {cs : List Code}
    (hes : ∀ e ∈ es, ∀ {st st' c}, P st → expr p d e st = (.ok c, st') →
      P st' ∧ (e.isValue = true → c.isNop = false))
    (hst : P st) (hcs : exprs p d es st = (.ok cs, st')) :
    P st' ∧ ((∀ e ∈ es, e.isValue = true) → ∀ c ∈ cs, c.isNop = false) := by
  induction es generalizing st cs with
  | nil =>
    cases hcs
    exact ⟨hst, fun _ => nofun⟩
  | cons e rest ih =>
    obtain ⟨c, st₁, cs, he, hrest, rfl⟩ := exprs_cons_ok hcs
    obtain ⟨hst₁, hc⟩ := hes e (.head _) hst he
    obtain ⟨hst', hcs⟩ := ih (fun e he => hes e (.tail _ he)) hst₁ hrest
    refine ⟨hst', fun hvalues => ?_⟩
    obtain ⟨hvalue, hvalues⟩ := List.forall_mem_cons.1 hvalues
    exact List.forall_mem_cons.2 ⟨hc hvalue, hcs hvalues⟩

/-- A value is written as code that prints something. -/
theorem expr_speaks (hd : d.Speaks P) {e : Expr} {c : Code} (he : e.All Expr.Proper) (hst : P st)
    (hwrite : expr p d e st = (.ok c, st')) :
    P st' ∧ (e.isValue = true → c.isNop = false) := by
  induction he generalizing st c st' with
  | @node e own _ ih =>
  cases hsimple : e.isSimple with
  | true =>
    obtain ⟨codes, st₁, hcodes, hcompose⟩ := simple_ok hsimple hwrite
    obtain ⟨hst₁, hspeaks⟩ := exprs_speaks ih hst hcodes
    exact compose_speaks hd own hsimple (exprs_length hcodes) (hspeaks (own.operands hsimple)) hst₁
      hcompose
  | false =>
    cases e with
    | block label children ty =>
      obtain ⟨nodes, st₁, hnodes, hpure⟩ := bind_ok hwrite
      cases hpure
      obtain ⟨codes, hcodes, -⟩ := statements_ok hnodes
      exact ⟨(exprs_speaks ih hst hcodes).1, fun _ => rfl⟩
    | ite condition ifTrue ifFalse ty =>
      obtain ⟨heffects, cc, st₁, tc, st₂, fs, hcondition, htrue, hfalse⟩ := ite_ok hwrite
      obtain ⟨hst₁, -⟩ := ih condition (.head _) hst hcondition
      obtain ⟨hst₂, -⟩ := ih ifTrue (.tail _ (.head _)) hst₁ htrue
      have hst' := (exprs_speaks (fun e he => ih e (.tail _ (.tail _ he))) hst₂ hfalse).1
      refine ⟨hst', fun _ => ?_⟩
      cases c <;> first | rfl | cases heffects
    | loop label body ty =>
      obtain ⟨heffects, b, hbody⟩ := loop_ok hwrite
      refine ⟨(ih body (.head _) hst hbody).1, fun _ => ?_⟩
      cases c <;> first | rfl | cases heffects
    | _ => cases hsimple

/-! ## The statements of a function -/

/-- The statements of a body before a value is returned, each with whether it has a value. -/
def tagged (p : Program) (d : Dialect σ) : Expr → Walk σ (List (Code × Bool))
  | .block _ children _ => bodyStatements p d children
  | .nop => return []
  | body => do
    let node ← expr p d body
    return [(node, body.isValue)]

/-- The statements of a body inside its own block, if that bears a label. -/
def enclosed : Expr → List Code → List Code
  | .block (some label) _ _, nodes => [.block (some label) nodes]
  | _, nodes => nodes

/-- A function is written as the statements of its body, with its value returned. -/
theorem function_eq {f : Function} {body : Expr} (hbody : f.body? = some body) :
    function p d f = do
      let statements ← tagged p d body
      return enclosed body (Code.withReturn (f.result != .void) statements) := by
  rw [function, hbody]
  cases body with
  | block label children ty => cases label <;> rfl
  | nop => rfl
  | _ => simp [tagged, enclosed]

/-- A function is its tagged statements with the implicit return. -/
theorem function_tagged {f : Function} {body : Expr} {nodes : List Code}
    (hbody : f.body? = some body) (hf : function p d f st = (.ok nodes, st')) :
    ∃ statements, tagged p d body st = (.ok statements, st') ∧
      nodes = enclosed body (Code.withReturn (f.result != .void) statements) := by
  rw [function_eq hbody] at hf
  obtain ⟨statements, st₁, hstatements, hpure⟩ := bind_ok hf
  cases hpure
  exact ⟨statements, hstatements, rfl⟩

/-- The last statement stays the last if it is a value. -/
theorem bodyStatements_last {es : List Expr} {statements : List (Code × Bool)}
    (hes : ∀ e ∈ es, ∀ {st st' c}, P st → expr p d e st = (.ok c, st') →
      P st' ∧ (e.isValue = true → c.isNop = false))
    (hst : P st) (hwrite : bodyStatements p d es st = (.ok statements, st'))
    (hvalue : Expr.EndsInValue es) : ∃ last, statements.getLast? = some (last, true) := by
  induction es generalizing st statements with
  | nil =>
    obtain ⟨last, ⟨⟩, -⟩ := hvalue
  | cons e rest ih =>
    obtain ⟨c, st₁, he, hrest⟩ := bind_ok hwrite
    obtain ⟨later, st₂, hrest, hpure⟩ := bind_ok hrest
    cases hpure
    obtain ⟨hst₁, hspeaks⟩ := hes e (.head _) hst he
    cases rest with
    | nil =>
      cases hrest
      have hvalue := Expr.endsInValue_singleton.1 hvalue
      exact ⟨c, by simp [hspeaks hvalue, hvalue]⟩
    | cons e' rest =>
      rw [Expr.EndsInValue, List.getLast?_cons_cons] at hvalue
      obtain ⟨last, hlast⟩ := ih (fun e he => hes e (.tail _ he)) hst₁ hrest hvalue
      refine ⟨last, ?_⟩
      split
      · exact hlast
      · rw [List.getLast?_cons, hlast]
        rfl

/-- If a body ends in a value, the last statement is tagged as one. -/
theorem tagged_last (hd : d.Speaks P) {body : Expr} {statements : List (Code × Bool)}
    (hbody : body.All Expr.Proper) (hst : P st)
    (hwrite : tagged p d body st = (.ok statements, st'))
    (hvalue : Expr.EndsInValue body.topLevel) :
    ∃ last, statements.getLast? = some (last, true) := by
  cases body with
  | block label children ty =>
    exact bodyStatements_last (fun e he _ _ _ => expr_speaks hd (hbody.child he)) hst hwrite hvalue
  | nop =>
    obtain ⟨last, ⟨⟩, -⟩ := hvalue
  | _ =>
    obtain ⟨c, st₁, -, hpure⟩ := bind_ok hwrite
    cases hpure
    have hvalue := Expr.endsInValue_singleton.1 hvalue
    exact ⟨c, by simp [hvalue]⟩

end Walk

namespace Code

/-- Numbering statements does not change them. -/
theorem zipIdx_map_node (statements : List (Code × Bool)) :
    statements.zipIdx.map (·.1.1) = statements.map Prod.fst := by
  rw [← List.zipIdx_map_fst 0 statements, List.map_map, List.zipIdx_map_fst]
  rfl

/-- Nothing changes if no value is to be returned, or if there is none. -/
theorem withReturn_unchanged {returnsValue : Bool} {statements : List (Code × Bool)}
    (h : returnsValue = false ∨ ∀ s ∈ statements, s.2 = false) :
    withReturn returnsValue statements = statements.map Prod.fst := by
  have hposition : (if returnsValue then lastValue? statements else none) = none := by
    obtain rfl | hnone := h
    · rfl
    · have hfind : statements.reverse.findIdx? (·.2) = none := by simpa using hnone
      simp [lastValue?, hfind]
  rw [withReturn, hposition, ← zipIdx_map_node]
  simp

/-- If the last statement has a value, it is returned, and the others stay as they are. -/
theorem withReturn_last (init : List (Code × Bool)) (last : Code) :
    withReturn true (init ++ [(last, true)]) = init.map Prod.fst ++ [last.returning false] := by
  have hposition : lastValue? (init ++ [(last, true)]) = some init.length := by
    simp [lastValue?, List.findIdx?_cons]
  rw [withReturn, if_pos rfl, hposition, List.zipIdx_append, List.map_append, ← zipIdx_map_node]
  congr 1
  · refine List.map_congr_left fun s hs => if_neg fun heq => ?_
    have hlt := (List.mem_zipIdx hs).2.1
    have hindex : s.2 = init.length := Option.some.inj heq
    omega
  · simp

end Code

/-! ## Both dialects -/

namespace Direct

variable {p : Program} {f : Function}

/-- The plain dialect writes something for every value. -/
theorem dialect_speaks : (dialect p f).Speaks fun _ => True where
  localGet _ h := by
    refine ⟨trivial, ?_⟩
    obtain rfl | ⟨rfl, -⟩ := variableOf_cases h <;> rfl
  localSet _ _ h := by
    obtain ⟨target, st₁, -, hpure⟩ := bind_ok h
    cases hpure
    exact ⟨trivial, fun _ => rfl⟩
  globalGet _ := rfl
  const _ := rfl
  binary _ _ _ := rfl
  load _ h := by
    cases h
    exact ⟨trivial, rfl⟩
  store _ _ := trivial

end Direct

namespace Framed

variable {s : Surroundings}

/-- Every register that holds a node holds one that prints something. -/
def Outspoken (st : FrameState) : Prop :=
  ∀ c, some c ∈ st.registers → c.isNop = false

/-- A read of a local is written as something. -/
theorem Gets.speaks {index : Nat} {st st' : FrameState} {c : Code} (hst : Outspoken st)
    (h : Gets s index st c st') : Outspoken st' ∧ c.isNop = false := by
  cases h with
  | param | plain | unknown => exact ⟨hst, rfl⟩
  | recorded register => exact ⟨hst, hst c register⟩

/-- An assignment that is also a value is written as something. -/
theorem Sets.speaks {index : Nat} {value c : Code} {tee : Bool} {st st' : FrameState}
    (hst : Outspoken st) (hvalue : value.isNop = false) (h : Sets s index value tee st c st') :
    Outspoken st' ∧ (tee = true → c.isNop = false) := by
  cases h with
  | param => exact ⟨hst, fun _ => rfl⟩
  | assigned =>
    refine ⟨fun c hc => ?_, fun _ => rfl⟩
    rcases List.mem_or_eq_of_mem_set hc with hc | hc
    · exact hst c hc
    · cases hc
  | recorded =>
    refine ⟨fun c hc => ?_, fun htee => by rwa [if_pos htee]⟩
    rcases List.mem_or_eq_of_mem_set hc with hc | hc
    · exact hst c hc
    · cases hc
      exact hvalue

/-- An access to memory is written as something. -/
theorem Accesses.speaks {address c : Code} {arg : MemArg} {ty : Ty} {st st' : FrameState}
    (hst : Outspoken st) (h : Accesses address arg ty st c st') :
    Outspoken st' ∧ c.isNop = false := by
  cases h <;> exact ⟨hst, rfl⟩

/-- The walk writes something for every value. -/
theorem dialect_speaks : (dialect s).Speaks Outspoken where
  localGet hst h := (localGet_cases h).speaks hst
  localSet hst hvalue h := (localSet_cases h).speaks hst hvalue
  globalGet index := by
    show (globalGet s index).isNop = false
    unfold globalGet
    split <;> rfl
  const _ := rfl
  binary op left right := by
    show (binary op left right).isNop = false
    rcases binary_cases op left right with heq | ⟨heq, -⟩ | ⟨_, _, _, _, _, -, -, heq, -⟩ <;>
      rw [heq] <;> rfl
  load hst h := (access_cases h).speaks hst
  store hst h := by
    obtain ⟨target, haccess, -⟩ := store_cases h
    exact (haccess.speaks hst).1

/-- No register holds a node that prints nothing when the walk starts. -/
theorem initial_outspoken : Outspoken (initial s) := by
  intro c hc
  cases List.eq_of_mem_replicate hc

end Framed

/-! ## Accepted bodies -/

/-- The value is returned by the last statement, if a value is to be returned, and every other
statement stays as it is. -/
def Code.ReturnsLast (result : Ty) (statements : List (Code × Bool)) : Prop :=
  if result = .void then withReturn (result != .void) statements = statements.map Prod.fst
  else ∃ init last, statements = init ++ [(last, true)] ∧
    withReturn (result != .void) statements = init.map Prod.fst ++ [last.returning false]

/-- A body whose end can be reached returns the value of its last statement. -/
theorem Walk.tagged_returnsLast {σ : Type} {P : σ → Prop} {p : Program} {d : Dialect σ} {st st' : σ}
    (hd : d.Speaks P) {body : Expr} {result : Ty} {statements : List (Code × Bool)}
    (hbody : body.All Expr.Proper) (hends : Expr.Ends result body.topLevel) (hst : P st)
    (hwrite : tagged p d body st = (.ok statements, st'))
    (hcompletes : Expr.Completes body.topLevel) : Code.ReturnsLast result statements := by
  unfold Code.ReturnsLast
  split
  next hvoid => exact Code.withReturn_unchanged (.inl (by simp [hvoid]))
  next hvalue =>
    obtain ⟨last, hlast⟩ := tagged_last hd hbody hst hwrite (hends hvalue hcompletes)
    obtain ⟨init, rfl⟩ := List.getLast?_eq_some_iff.1 hlast
    have hreturns : (result != .void) = true := by simpa using hvalue
    exact ⟨init, last, rfl, by rw [hreturns, Code.withReturn_last]⟩

namespace Program

/-- A function with an accepted body is written in either dialect as the statements of the body. If
the end of the body can be reached, the value of the function is returned by the last of them, and
all others are printed as they are: no statement comes after the return. -/
theorem expandBody_returnsLast {scope : Scope} {code : FunctionCode} {signature : Signature}
    {locals : List Ty} {body : Expr} (h : expandBody scope code signature = .ok (locals, body))
    (f : Function) (hparams : f.params = signature.params) (hresult : f.result = signature.result)
    (hkind : f.kind = .defined locals body) :
    (∀ p, ∃ statements, Walk.tagged p (Direct.dialect p f) body () = (.ok statements, ()) ∧
      Direct.statements p f =
        .ok (Walk.enclosed body (Code.withReturn (f.result != .void) statements)) ∧
      (Expr.Completes body.topLevel → Code.ReturnsLast f.result statements)) ∧
    ∀ s : Framed.Surroundings, s.function = f → ∃ statements st,
      Walk.tagged s.program (Framed.dialect s) body (Framed.initial s) = (.ok statements, st) ∧
      Framed.statements s =
        (.ok (Walk.enclosed body (Code.withReturn (f.result != .void) statements)), st) ∧
      (Expr.Completes body.topLevel → Code.ReturnsLast f.result statements) := by
  have hproper := expandBody_proper h
  obtain ⟨ops, declared, -, -, hops⟩ := expandBody_ok h
  have hends : Expr.Ends f.result body.topLevel := hresult ▸ Expr.ofOperators_endsInValue hops
  have hbody : f.body? = some body := by simp [Function.body?, hkind]
  have hrange := expandBody_inRange h hparams hkind
  refine ⟨fun p => ?_, ?_⟩
  · obtain ⟨nodes, st, hnodes, -⟩ :=
      Walk.function_returns (p := p) Direct.dialect_writes hrange () trivial
    obtain ⟨statements, hwrite, rfl⟩ := Walk.function_tagged hbody hnodes
    refine ⟨statements, hwrite, congrArg Prod.fst hnodes, ?_⟩
    exact Walk.tagged_returnsLast Direct.dialect_speaks hproper hends trivial hwrite
  · rintro s rfl
    obtain ⟨nodes, st, hnodes⟩ := Framed.statements_ok hrange
    obtain ⟨statements, hwrite, rfl⟩ := Walk.function_tagged hbody hnodes
    refine ⟨statements, st, hwrite, hnodes, ?_⟩
    exact Walk.tagged_returnsLast Framed.dialect_speaks hproper hends Framed.initial_outspoken
      hwrite

/-- A value is computed, a function is called, and the value is the result. -/
def awaiting : FunctionCode where
  type := 0
  locals := []
  -- i32.const 7; call 0; end
  body := [0x41, 0x07, 0x10, 0x00, 0x0b]

/-- A value that is put aside before a call is returned last, and the call is kept. -/
theorem expandBody_returnsLast_awaiting :
    let f (body : Expr) : Function := ⟨⟨1⟩, [], .i32, .defined [.i32] body, none⟩
    ∃ body, expandBody ⟨[], [⟨[], []⟩], [⟨0⟩], []⟩ awaiting ⟨[], .i32⟩ = .ok ([.i32], body) ∧
      Expr.Completes body.topLevel ∧
      ∃ statements, Direct.statements ⟨[], [], [], [], []⟩ (f body) =
          .ok (Walk.enclosed body (Code.withReturn true statements)) ∧
        Code.ReturnsLast .i32 statements := by
  intro f
  let body : Expr := .block none
    [.localSet 0 (.const (.i32 7)) false .void, .call ⟨0⟩ [] .void, .localGet 0 .i32] .i32
  have hbody : expandBody ⟨[], [⟨[], []⟩], [⟨0⟩], []⟩ awaiting ⟨[], .i32⟩ = .ok ([.i32], body) :=
    rfl
  let w : World default := ⟨fun _ => .i32 0, ⟨fun _ => .i32 0, ()⟩, []⟩
  have hcompletes : Expr.Completes body.topLevel := ⟨default, fun _ => 0, 0, w, _, _, rfl⟩
  obtain ⟨hdirect, -⟩ := expandBody_returnsLast hbody (f body) rfl rfl rfl
  obtain ⟨statements, -, hwritten, hreturns⟩ := hdirect ⟨[], [], [], [], []⟩
  exact ⟨body, hbody, hcompletes, statements, hwritten, hreturns hcompletes⟩

/-- A value is left where it is: after a call another one is returned. -/
def abandoning : FunctionCode where
  type := 0
  locals := []
  -- i32.const 1; call 0; i32.const 2; return; end
  body := [0x41, 0x01, 0x10, 0x00, 0x41, 0x02, 0x0f, 0x0b]

/-- The value that was left is printed as returned before the call, but the body makes the call and
returns the other one. -/
theorem expandBody_returnsEarly :
    let p : Program := ⟨[], [], [], [], [⟨"work", 0⟩]⟩
    let f (body : Expr) : Function := ⟨⟨1⟩, [], .i32, .defined [] body, none⟩
    let printed : List Code := [.ret (some (.const (.i32 1) none)), .call "work" [],
      .ret (some (.const (.i32 2) none))]
    ∃ body, expandBody ⟨[], [⟨[], []⟩], [⟨0⟩], []⟩ abandoning ⟨[], .i32⟩ = .ok ([], body) ∧
      Direct.statements p (f body) = .ok printed ∧
      (Framed.statements ⟨p, {}, f body, none⟩).1 = .ok printed ∧
      ∀ w : World default, Expr.eval default (fun _ => 0) 0 body w =
        (.error (.ret (some (.i32 2))), { w with trace := .call (.function 0) [] :: w.trace }) := by
  intro p f printed
  let body : Expr := .block none
    [.const (.i32 1), .call ⟨0⟩ [] .void, .ret (some (.const (.i32 2)))] .i32
  exact ⟨body, rfl, rfl, rfl, fun _ => rfl⟩

end Program

end WasmLift
