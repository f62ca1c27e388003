import WasmLift.Proofs.Listing.Lines
import WasmLift.Proofs.Listing.Returns

/-!
# Returns at the leaves

A conditional that makes the value of a function is returned as a whole if both its arms pass for
expressions (`Code.isTernary`); if not, the return is passed on to the arms. A conditional with a
value passes for an expression whatever its own arms are, so the test sees one level only. Every
value in a nest of conditionals is returned, and no scope is printed inside a return, exactly if no
conditional that passes the test holds a statement further down (`Code.withReturn_leaves`). Where
one does, it is returned with a scope among its operands (`Program.expandBody_returnsScope`).
-/

namespace WasmLift

namespace Code

open Text

/-- How an arm of a conditional with a value ends: in an expression without statements, in a
conditional whose arms end so, or in a terminator, alone or after other statements. -/
inductive Arm : Code → Prop where
  | value {v : Code} (flat : v.Flat) : Arm v
  | terminator {c : Code} (stops : c.isTerminator = true) : Arm c
  | nest {condition ifTrue ifFalse : Code} (first : Arm ifTrue) (second : Arm ifFalse) :
      Arm (.ite condition ifTrue (some ifFalse) true)
  | list {before : List Code} {last : Code} (bare : ∀ nodes, last ≠ .block none nodes)
      (ending : Arm last) : Arm (.block none (before ++ [last]))

/-- The second node is the first one with each value that it may end in returned: the values of a
conditional each for itself, or all at once by returning the conditional. Every value that is
returned has the property. A terminator stays as it is. -/
inductive ReturnsEach (Q : Code → Prop) : Code → Code → Prop where
  | value {v : Code} (holds : Q v) : ReturnsEach Q v (.ret (some v))
  | terminator {c : Code} (stops : c.isTerminator = true) : ReturnsEach Q c c
  | nest {condition t t' e e' : Code} (first : ReturnsEach Q t t') (second : ReturnsEach Q e e') :
      ReturnsEach Q (.ite condition t (some e) true) (.ite condition t' (some e') false)
  | list {before : List Code} {last last' : Code} (ending : ReturnsEach Q last last') :
      ReturnsEach Q (.block none (before ++ [last])) (.block none (before ++ [last']))

/-- The second node stands where the value of the first one is made. -/
inductive Tail : Code → Code → Prop where
  | self (c : Code) : Tail c c
  | first {condition ifTrue ifFalse c : Code} (h : Tail ifTrue c) :
      Tail (.ite condition ifTrue (some ifFalse) true) c
  | second {condition ifTrue ifFalse c : Code} (h : Tail ifFalse c) :
      Tail (.ite condition ifTrue (some ifFalse) true) c
  | last {before : List Code} {last c : Code} (h : Tail last c) :
      Tail (.block none (before ++ [last])) c

/-- Where a conditional makes the value of the node and is printed as one expression, no statement
stands inside it. -/
def FlatTernaries (node : Code) : Prop :=
  ∀ condition ifTrue ifFalse, Tail node (.ite condition ifTrue (some ifFalse) true) →
    isTernary ifTrue (some ifFalse) true = true →
    Flat (.ite condition ifTrue (some ifFalse) true)

/-- No scope stands inside the return of the value. -/
def Unbraced (v : Code) : Prop :=
  ∀ layout, Gives (fun r => ¬HoldsScope r.text) (render layout (.ret (some v)))

section
variable {Q Q' : Code → Prop} {c c' t t' e e' last condition : Code} {before : List Code}

/-- The property of the returned values may be weakened. -/
theorem ReturnsEach.mono (himp : ∀ v, Q v → Q' v) (h : ReturnsEach Q c c') :
    ReturnsEach Q' c c' := by
  induction h with
  | value holds => exact .value (himp _ holds)
  | terminator stops => exact .terminator stops
  | nest _ _ first second => exact .nest first second
  | list _ ending => exact .list ending

/-- A conditional that is returned as a whole has the property. -/
theorem ReturnsEach.returned {isValue : Bool}
    (h : ReturnsEach Q (.ite condition t (some e) isValue) (.ret (some c))) : Q c := by
  cases h with
  | value holds => exact holds

/-- A conditional that is not returned has the values of both arms returned. -/
theorem ReturnsEach.arms
    (h : ReturnsEach Q (.ite condition t (some e) true) (.ite condition t' (some e') false)) :
    ReturnsEach Q t t' ∧ ReturnsEach Q e e' := by
  cases h with
  | nest first second => exact ⟨first, second⟩

/-- A list has the values of its last node returned. -/
theorem ReturnsEach.ending
    (h : ReturnsEach Q (.block none (before ++ [last])) (.block none (before ++ [c']))) :
    ReturnsEach Q last c' := by
  generalize hfrom : Code.block none (before ++ [last]) = node at h
  generalize hto : Code.block none (before ++ [c']) = printed at h
  cases h with
  | value | nest => cases hto
  | terminator stops =>
    subst hfrom
    cases stops
  | list ending =>
    obtain ⟨-, heq⟩ := List.append_inj' (Code.block.inj hfrom).2 rfl
    obtain ⟨-, heq'⟩ := List.append_inj' (Code.block.inj hto).2 rfl
    cases heq
    cases heq'
    exact ending

/-- A conditional of flat nodes is flat. -/
theorem flat_nest (hcondition : condition.Flat) (htrue : t.Flat) (hfalse : e.Flat) :
    Flat (.ite condition t (some e) true) :=
  .node rfl (by simpa [children] using ⟨hcondition, htrue, hfalse⟩)

/-- What stands where a flat node's value is made is flat. -/
theorem Flat.tail (hflat : c.Flat) (h : Tail c c') : c'.Flat := by
  induction h with
  | self => exact hflat
  | first _ ih => exact ih (hflat.child (.tail _ (.head _)))
  | second _ ih => exact ih (hflat.child (.tail _ (.tail _ (.head _))))
  | last => cases hflat.own

/-- No statement stands inside a flat node. -/
theorem Flat.flatTernaries (hflat : c.Flat) : c.FlatTernaries :=
  fun _ _ _ htail _ => hflat.tail htail

/-- Where the value is made may be found in two goes. -/
theorem Tail.trans (h : Tail c c') (h' : Tail c' t) : Tail c t := by
  induction h with
  | self => exact h'
  | first _ ih => exact .first (ih h')
  | second _ ih => exact .second (ih h')
  | last _ ih => exact .last (ih h')

/-- A terminator makes its value, if any, by itself. -/
theorem Tail.terminator (hstops : c.isTerminator = true) (h : Tail c c') : c' = c := by
  cases h with
  | self => rfl
  | _ => cases hstops

/-- A terminator is no conditional printed as one expression. -/
theorem flatTernaries_terminator (hstops : c.isTerminator = true) : c.FlatTernaries := by
  intro condition ifTrue ifFalse htail
  rw [← htail.terminator hstops] at hstops
  cases hstops

/-- A conditional that is no expression has none with a statement inside exactly if its arms have
none. -/
theorem flatTernaries_nest (h : ¬isTernary t (some e) true = true) :
    FlatTernaries (.ite condition t (some e) true) ↔ t.FlatTernaries ∧ e.FlatTernaries := by
  refine ⟨fun hflat => ⟨fun _ _ _ htail => hflat _ _ _ (.first htail),
    fun _ _ _ htail => hflat _ _ _ (.second htail)⟩, ?_⟩
  rintro ⟨first, second⟩ _ _ _ htail hternary
  cases htail with
  | self => exact absurd hternary h
  | first htail => exact first _ _ _ htail hternary
  | second htail => exact second _ _ _ htail hternary

/-- A list has no such conditional exactly if its last node has none. -/
theorem flatTernaries_list :
    FlatTernaries (.block none (before ++ [last])) ↔ last.FlatTernaries := by
  refine ⟨fun hflat _ _ _ htail => hflat _ _ _ (.last htail), fun hlast _ _ _ htail => ?_⟩
  generalize hfrom : Code.block none (before ++ [last]) = node at htail
  cases htail with
  | self | first | second => cases hfrom
  | last htail =>
    obtain ⟨-, heq⟩ := List.append_inj' (Code.block.inj hfrom).2 rfl
    cases heq
    exact hlast _ _ _ htail

/-! ## The implicit return -/

/-- A conditional is returned as a whole if it passes for an expression, and otherwise in each of
its arms. -/
theorem returning_nest (inArm : Bool) :
    (Code.ite condition t (some e) true).returning inArm =
      if isTernary t (some e) true then .ret (some (.ite condition t (some e) true))
      else .ite condition (t.returning true) (some (e.returning true)) false := by
  rw [returning]
  simp [isTernary]

/-- An expression is no terminator. -/
theorem isTerminator_of_isExpression (h : c.isExpression = true) : c.isTerminator = false := by
  cases c <;> first | rfl | cases h

/-- A flat node is returned as it is. -/
theorem Flat.returning (hflat : c.Flat) (inArm : Bool) : c.returning inArm = .ret (some c) := by
  have hown := hflat.own
  unfold Code.returning
  split
  · next condition ifTrue ifFalse =>
    have htrue := (hflat.child (.tail _ (.head _)) : ifTrue.Flat).own
    have hfalse := (hflat.child (.tail _ (.tail _ (.head _))) : ifFalse.Flat).own
    simp [isExpression_of_isPlain htrue, isExpression_of_isPlain hfalse]
  · cases hown
  · have hexpression := isExpression_of_isPlain hown
    simp [hexpression, isTerminator_of_isExpression hexpression]

/-- A terminator in an arm stays as it is. -/
theorem returning_terminator (hstops : c.isTerminator = true) : c.returning true = c := by
  unfold returning
  split
  · cases hstops
  · cases hstops
  · simp [hstops]

/-- In an arm, a node that is no list is returned unless it is a terminator. -/
theorem returning_bare (hbare : ∀ nodes, c ≠ .block none nodes) :
    c.returning true = if c.isTerminator then c else c.returning false := by
  unfold returning
  split
  · rfl
  · next nodes => exact absurd rfl (hbare nodes)
  · simp

/-- The last of several statements is returned, and the others stay as they are. -/
theorem returningLast_append :
    returningLast (before ++ [last]) =
      before ++ [if last.isTerminator then last else last.returning false] := by
  induction before with
  | nil => rfl
  | cons node rest ih =>
    rw [List.cons_append, returningLast, ih, List.cons_append]
    simp

/-- The last statement of a list in an arm is returned as it would be if it were the arm. -/
theorem returning_list (hbare : ∀ nodes, last ≠ .block none nodes) :
    (Code.block none (before ++ [last])).returning true =
      .block none (before ++ [last.returning true]) := by
  rw [returning, if_pos rfl, returningLast_append, returning_bare hbare]

/-- In an arm every value is returned, as long as no ternary holds a statement. -/
theorem Arm.returnsEach (h : Arm c) (hflat : c.FlatTernaries) :
    ReturnsEach Flat c (c.returning true) := by
  induction h with
  | value flat =>
    rw [flat.returning]
    exact .value flat
  | terminator stops =>
    rw [returning_terminator stops]
    exact .terminator stops
  | @nest condition ifTrue ifFalse _ _ first second =>
    rw [returning_nest]
    split
    next hternary => exact .value (hflat _ _ _ (.self _) hternary)
    next hnot =>
      obtain ⟨hfirst, hsecond⟩ := (flatTernaries_nest hnot).1 hflat
      exact .nest (first hfirst) (second hsecond)
  | list bare _ ending =>
    rw [returning_list bare]
    exact .list (ending (flatTernaries_list.1 hflat))

/-- If the property of returned values keeps statements out of a ternary, no ternary of the arm
holds a statement. -/
theorem Arm.flatTernaries (h : Arm c)
    (hQ : ∀ condition t e, Tail c (.ite condition t (some e) true) →
      Arm (.ite condition t (some e) true) → Q (.ite condition t (some e) true) →
      Flat (.ite condition t (some e) true))
    (hreturns : ReturnsEach Q c (c.returning true)) : c.FlatTernaries := by
  induction h with
  | value flat => exact flat.flatTernaries
  | terminator stops => exact flatTernaries_terminator stops
  | @nest condition ifTrue ifFalse harm harm' first second =>
    rw [returning_nest] at hreturns
    split at hreturns
    -- Only the conditional that is returned as a whole needs the property.
    next => exact (hQ _ _ _ (.self _) (.nest harm harm') hreturns.returned).flatTernaries
    next hnot =>
      rw [flatTernaries_nest hnot]
      exact ⟨first (fun _ _ _ htail => hQ _ _ _ (.first htail)) hreturns.arms.1,
        second (fun _ _ _ htail => hQ _ _ _ (.second htail)) hreturns.arms.2⟩
  | list bare _ ending =>
    rw [returning_list bare] at hreturns
    rw [flatTernaries_list]
    exact ending (fun _ _ _ htail => hQ _ _ _ (.last htail)) hreturns.ending

/-! ## Scopes inside a return -/

variable {layout : FrameLayout}

/-- The return of a flat node holds no scope. -/
theorem Flat.unbraced (hflat : c.Flat) (hlegible : c.Legible) : c.Unbraced := by
  intro layout
  refine (hflat.render_oneLine hlegible).bind fun r hr => .pure ?_
  have hreturn : OneLine s!"return {r.text}" := by simp +decide [hr]
  exact hreturn.not_holdsScope

/-- A text with a scope still has it as an operand. -/
theorem holdsScope_asOperand {text : String} (h : HoldsScope text) :
    HoldsScope (asOperand layout c text) := by
  unfold asOperand
  split
  · exact (h.append_left "(").append_right ")"
  · exact h

/-- A conditional expression holds the scopes in its arms. -/
theorem holdsScope_ternaryText {condition ifTrue ifFalse : String}
    (h : HoldsScope ifTrue ∨ HoldsScope ifFalse) :
    HoldsScope (ternaryText condition ifTrue ifFalse) := by
  unfold ternaryText
  rcases h with h | h
  · exact ((h.append_left _).append_right _).append_right _
  · exact h.append_left _

/-- A conditional that is a statement is printed with a scope. -/
theorem holdsScope_if (condition : String) (lines : List String) :
    HoldsScope (scope s!"if ({condition}) \x7b" lines) := by
  have hhead : s!"if ({condition}) \x7b" = s!"if ({condition}) " ++ "\x7b" := by
    show "if (" ++ condition ++ (") " ++ "\x7b") = "if (" ++ condition ++ ") " ++ "\x7b"
    exact String.append_assoc.symm
  rw [hhead]
  exact holdsScope_scope _ lines

/-- A conditional that passes for an expression and is not flat is printed with a scope inside, as
long as its conditions are flat. -/
theorem Arm.braced (h : Arm c) (hexpression : c.isExpression = true) (hnot : ¬c.Flat)
    (hconditions : ∀ condition t e, Tail c (.ite condition t (some e) true) → condition.Flat)
    (layout : FrameLayout) : Gives (fun r => HoldsScope r.text) (render layout c) := by
  induction h with
  | value flat => exact absurd flat hnot
  | terminator stops =>
    rw [isTerminator_of_isExpression hexpression] at stops
    cases stops
  | list => cases hexpression
  | @nest condition ifTrue ifFalse _ _ first second =>
    by_cases hternary : isTernary ifTrue (some ifFalse) true = true
    · obtain ⟨htrue, hfalse⟩ : ifTrue.isExpression = true ∧ ifFalse.isExpression = true := by
        simpa [isTernary] using hternary
      have harms : ¬ifTrue.Flat ∨ ¬ifFalse.Flat := by
        by_contra hboth
        rw [not_or, not_not, not_not] at hboth
        exact hnot (flat_nest (hconditions _ _ _ (.self _)) hboth.1 hboth.2)
      rcases harms with harm | harm
      · have hscope := first htrue harm fun _ _ _ htail => hconditions _ _ _ (.first htail)
        refine Gives.trivial.bind fun _ _ => hscope.bind fun _ ht => ?_
        refine Gives.trivial.bind fun _ _ => ?_
        rw [if_pos hternary]
        exact .pure (holdsScope_ternaryText (.inl (holdsScope_asOperand ht)))
      · have hscope := second hfalse harm fun _ _ _ htail => hconditions _ _ _ (.second htail)
        refine Gives.trivial.bind fun _ _ => Gives.trivial.bind fun _ _ => ?_
        refine hscope.bind fun _ he => ?_
        rw [if_pos hternary]
        exact .pure (holdsScope_ternaryText (.inr (holdsScope_asOperand he)))
    -- An arm that is a list or a terminator makes the conditional a scope itself.
    · refine Gives.trivial.bind fun _ _ => Gives.trivial.bind fun _ _ => ?_
      refine Gives.trivial.bind fun _ _ => ?_
      rw [if_neg hternary]
      exact .pure (((holdsScope_if _ _).append_right _).append_right _)

/-- A node printed with a scope is returned with it. -/
theorem Gives.ret (h : Gives (fun r => HoldsScope r.text) (render layout c)) :
    Gives (fun r => HoldsScope r.text) (render layout (.ret (some c))) :=
  h.bind fun _ hr => .pure (hr.append_left _)

/-- A conditional with a value at the end of a function, with arms that end in expressions, in such
conditionals again or in terminators, is printed in its place with a return for every value exactly
if no ternary in it holds a statement. Then no scope stands inside a return, unless by a name. If
one of its ternaries does hold a statement, there is a scope inside a return. -/
theorem withReturn_leaves (condition : Code) (htrue : Arm t) (hfalse : Arm e)
    (statements : List (Code × Bool)) :
    let nest := Code.ite condition t (some e) true
    ∃ printed, withReturn true (statements ++ [(nest, true)]) =
        statements.map Prod.fst ++ [printed] ∧
      (ReturnsEach Flat nest printed ↔ nest.FlatTernaries) ∧
      (nest.FlatTernaries → ReturnsEach (fun v => v.Legible → v.Unbraced) nest printed) ∧
      ((∀ condition t e, Tail nest (.ite condition t (some e) true) → condition.Flat) →
        ReturnsEach Unbraced nest printed → nest.FlatTernaries) := by
  intro nest
  have hnest : Arm nest := .nest htrue hfalse
  have hsame : nest.returning false = nest.returning true := by
    rw [returning_nest, returning_nest]
  refine ⟨nest.returning true, by rw [withReturn_last, hsame], ⟨?_, hnest.returnsEach⟩, ?_, ?_⟩
  · exact hnest.flatTernaries fun _ _ _ _ _ hflat => hflat
  · exact fun hflat => (hnest.returnsEach hflat).mono fun _ hv hlegible => hv.unbraced hlegible
  · intro hconditions
    refine hnest.flatTernaries fun condition t e htail harm hunbraced => ?_
    by_contra hnot
    have hscope := harm.braced rfl hnot
      (fun _ _ _ htail' => hconditions _ _ _ (htail.trans htail')) {}
    exact absurd (hscope.ret []) (hunbraced {} [])

/-- A call in one arm: both values are returned, and no scope stands inside a return. -/
theorem withReturn_leaves_call :
    let call : Code := .call "g" []
    let value (n : BitVec 32) : Code := .const (.i32 n) none
    let nest : Code := .ite (.param 0) (.block none [call, value 1]) (some (value 2)) true
    let printed : Code := .ite (.param 0) (.block none [call, .ret (some (value 1))])
      (some (.ret (some (value 2)))) false
    withReturn true [(nest, true)] = [printed] ∧ nest.FlatTernaries ∧
      ReturnsEach (fun v => v.Legible → v.Unbraced) nest printed := by
  intro call value nest printed
  have hvalue (n : BitVec 32) : (value n).Flat := .node rfl (List.forall_mem_nil _)
  have hlist : Arm (.block none ([call] ++ [value 1])) :=
    .list (by rintro nodes ⟨⟩) (.value (hvalue 1))
  have hprinted : withReturn true [(nest, true)] = [printed] := rfl
  obtain ⟨_, hwritten, heach, hunbraced, -⟩ :=
    withReturn_leaves (.param 0) hlist (.value (hvalue 2)) []
  cases (hprinted.symm.trans hwritten : [printed] = _)
  have hlast : ReturnsEach Flat (.block none ([call] ++ [value 1]))
      (.block none ([call] ++ [.ret (some (value 1))])) := .list (.value (hvalue 1))
  have hreturns : ReturnsEach Flat nest printed := .nest hlast (.value (hvalue 2))
  have hflat := heach.1 hreturns
  exact ⟨hprinted, hflat, hunbraced hflat⟩

end

end Code

namespace Program

/-- A conditional in an arm of another one: the inner one makes a call before one of its values. -/
def nested : FunctionCode where
  type := 0
  locals := []
  -- local.get 0; if i32 (local.get 0; if i32 (call 0; i32.const 1) else (i32.const 2) end)
  -- else (i32.const 3) end; end
  body := [0x20, 0x00, 0x04, 0x7f, 0x20, 0x00, 0x04, 0x7f, 0x10, 0x00, 0x41, 0x01, 0x05, 0x41, 0x02,
    0x0b, 0x05, 0x41, 0x03, 0x0b, 0x0b]

/-- The outer conditional is returned as a whole, with the inner one as a scope among its
operands. -/
theorem expandBody_returnsScope :
    let p : Program := ⟨[], [], [], [], [⟨"work", 0⟩]⟩
    let f (body : Expr) : Function := ⟨⟨1⟩, [.i32], .i32, .defined [] body, none⟩
    let value (n : BitVec 32) : Code := .const (.i32 n) none
    let list : Code := .block none [.call "work" [], value 1]
    let inner : Code := .ite (.param 0) list (some (value 2)) true
    let nest : Code := .ite (.param 0) inner (some (value 3)) true
    Code.Arm inner ∧ Code.Arm (value 3) ∧
    ∃ body, expandBody ⟨[], [⟨[], []⟩], [⟨0⟩], []⟩ nested ⟨[.i32], .i32⟩ = .ok ([], body) ∧
      Direct.statements p (f body) = .ok (Code.withReturn true [(nest, true)]) ∧
      (Framed.statements ⟨p, {}, f body, none⟩).1 = .ok (Code.withReturn true [(nest, true)]) ∧
      (∀ printed, Code.withReturn true [(nest, true)] = [printed] →
        ¬Code.ReturnsEach Code.Flat nest printed) ∧
      Code.statementTexts {} (Code.withReturn true [(nest, true)]) =
        ["return param0 ? (if (param0) \x7b\n  work();\n  0x1;\n\x7d else " ++
          "\x7b\n  0x2;\n\x7d) : 0x3;"] := by
  intro p f value list inner nest
  have hvalue (n : BitVec 32) : (value n).Flat := .node rfl (List.forall_mem_nil _)
  have hlist : Code.Arm (.block none ([.call "work" []] ++ [value 1])) :=
    .list (by rintro nodes ⟨⟩) (.value (hvalue 1))
  refine ⟨.nest hlist (.value (hvalue 2)), .value (hvalue 3), ?_⟩
  let body : Expr := .ite (.localGet 0 .i32) (.ite (.localGet 0 .i32)
    (.block none [.call ⟨0⟩ [] .void, .const (.i32 1)] .i32) (some (.const (.i32 2))) .i32)
    (some (.const (.i32 3))) .i32
  have hlocals : nested.locals.mapM Ty.ofValType = .ok [] := rfl
  have hops : Binary.bodyOperators? nested.body = some [.localGet 0, .ifThen (.value .i32),
      .localGet 0, .ifThen (.value .i32), .call 0, .const (.i32 1), .elseArm, .const (.i32 2),
      .finish, .elseArm, .const (.i32 3), .finish, .finish] := by decide +kernel
  have hbody : expandBody ⟨[], [⟨[], []⟩], [⟨0⟩], []⟩ nested ⟨[.i32], .i32⟩ = .ok ([], body) := by
    rw [expandBody_eq hlocals hops, Expr.ofOperators]
    simp only [Builder.rebuildAll]
    rfl
  refine ⟨body, hbody, rfl, rfl, ?_, by decide +kernel⟩
  rintro printed ⟨⟩ hreturns
  have hflat : nest.Flat := hreturns.returned
  have hinner : inner.Flat := hflat.child (.tail _ (.head _))
  have hstatement := (hinner.child (.tail _ (.head _)) : list.Flat).own
  cases hstatement

end Program

end WasmLift
