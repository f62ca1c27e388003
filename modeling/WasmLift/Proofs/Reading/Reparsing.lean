import WasmLift.Proofs.Reading.Expressions

/-!
# Printed expressions read back

The text of an expression is read as the expression nests exactly if no minus sign in it stands in
front of a negative number and no assignment is the target of another (`Code.render_reparses`).
-/

namespace WasmLift

namespace Code

open C

variable {layout : FrameLayout}

/-- The operand of a minus sign is no negative number, and the target of an assignment is no
assignment. -/
def KeepsApart : Code → Prop
  | .unary op value => ¬(Spelling.unaryForm op = .prefixed "-" ∧ value.isNegative = true)
  | .assign target _ => ∀ t v, target ≠ .assign t v
  | _ => True

theorem trees_eq_map (j : Joining) (nodes : List Code) :
    trees j layout nodes = nodes.map (tree j layout) := by
  induction nodes with
  | nil => rfl
  | cons node rest ih => rw [trees, ih, List.map_cons]

theorem derefTree_inj {a b : Tree} {arg : MemArg} {ty : Ty} :
    derefTree a false arg ty = derefTree b false arg ty ↔ a = b := by
  unfold derefTree
  split <;> simp

theorem foldr_cast_inj {types : List String} {a b : Tree} :
    types.foldr Tree.cast a = types.foldr Tree.cast b ↔ a = b := by
  induction types with
  | nil => rfl
  | cons ty types ih => simp [ih]

/-- Only an assignment is read as one. -/
theorem merged_ne_assign {node : Code} (h : ∀ target value, node ≠ .assign target value)
    (l r : Tree) : node.tree .merged layout ≠ .infixed "=" l r := by
  cases node with
  | assign target value => exact absurd rfl (h target value)
  | const value => exact Literal.tree_plain value "=" l r
  | slot place =>
    rw [tree, slotTree]
    split <;> exact Tree.noConfusion
  | stackBase =>
    rw [tree, stackBaseTree]
    split <;> exact Tree.noConfusion
  | stackAddress offset =>
    rw [tree, stackAddressTree]
    split <;> simp
  | unary op value =>
    rw [tree]
    cases hform : Spelling.unaryForm op with
    | prefixed symbol => exact signed_merged_plain _ _ _ l r
    | call => exact Tree.noConfusion
    | cast types =>
      cases types with
      | nil => exact absurd rfl (Spelling.unaryForm_cast hform).1
      | cons => exact Tree.noConfusion
  | binary op left right =>
    have hsymbol := Spelling.symbol_infixes op
    rw [tree]
    cases hform : Spelling.binaryForm op with
    | call => exact Tree.noConfusion
    | infixed symbol | unsigned symbol =>
      rw [hform] at hsymbol
      intro heq
      cases heq
      exact absurd (hsymbol "=" rfl) (by decide)
  | _ => exact Tree.noConfusion

/-- The target of the first one of successive assignments is no assignment. -/
theorem merged_target {node : Code} {l r : Tree} (h : node.tree .merged layout = .infixed "=" l r)
    (l' r' : Tree) : l ≠ .infixed "=" l' r' := by
  by_cases hassign : ∃ target value, node = .assign target value
  · obtain ⟨target, value, rfl⟩ := hassign
    have hgraft : (target.tree .merged layout).graft (value.tree .merged layout) =
        .infixed "=" l r := h
    by_cases htarget : ∃ a b, target.tree .merged layout = .infixed "=" a b
    · obtain ⟨a, b, hab⟩ := htarget
      rw [hab] at hgraft
      cases hgraft
      exact merged_target hab l' r'
    · rw [Tree.graft_plain fun a b hab => htarget ⟨a, b, hab⟩] at hgraft
      cases hgraft
      exact fun hab => htarget ⟨l', r', hab⟩
  · exact absurd h (merged_ne_assign (fun target value heq => hassign ⟨target, value, heq⟩) l r)
termination_by sizeOf node

theorem merged_assign_iff {target value : Code} {a b : Tree}
    (ha : ∀ t v, target = .assign t v → ∃ l r, a = .infixed "=" l r) :
    (Code.assign target value).tree .merged layout = .infixed "=" a b ↔
      (∀ t v, target ≠ .assign t v) ∧ target.tree .merged layout = a ∧
        value.tree .merged layout = b := by
  constructor
  · intro heq
    have hplain : ∀ t v, target ≠ .assign t v := by
      intro t v htarget
      obtain ⟨l, r, rfl⟩ := ha t v htarget
      exact merged_target heq l r rfl
    have hgraft : (Code.assign target value).tree .merged layout =
        .infixed "=" (target.tree .merged layout) (value.tree .merged layout) :=
      Tree.graft_plain (merged_ne_assign hplain) _
    rw [hgraft] at heq
    cases heq
    exact ⟨hplain, rfl, rfl⟩
  · rintro ⟨hplain, rfl, rfl⟩
    exact Tree.graft_plain (merged_ne_assign hplain) _

theorem merged_signed_iff {op : String} {node : Code} {t t' : Tree} :
    Joining.merged.signed op node t = .prefixed op t' ↔
      ¬(op = "-" ∧ node.isNegative = true) ∧ t = t' := by
  unfold Joining.merged isNegative
  dsimp only
  cases node.literal? with
  | none => simp
  | some l =>
    by_cases h : op = "-" ∧ l.negative = true
    · simp [h]
    · simp [h]

theorem merged_eq_nested_iff {node : Code} (h : node.Every IsReadable) :
    node.tree .merged layout = node.tree .nested layout ↔ node.Every KeepsApart := by
  induction h with
  | @node node own children ih =>
  rw [every_iff]
  cases node with
  | param | localVar | globalVar | slot | stackBase | stackAddress | stackPointer | const =>
    simp [tree, Code.children, KeepsApart]
  | deref address arg ty =>
    have haddress := ih address (.head _)
    simp only [tree, Code.children, KeepsApart, List.forall_mem_singleton, true_and, ← haddress]
    cases hzero : address.isZero with
    | false => exact derefTree_inj
    | true =>
      cases address <;> first | cases hzero | simp [tree]
  | assign target value =>
    have htarget := ih target (.head _)
    have hvalue := ih value (.tail _ (.head _))
    simp only [Code.children, KeepsApart, List.forall_mem_cons, List.not_mem_nil, false_imp_iff,
      implies_true, and_true, ← htarget, ← hvalue]
    exact merged_assign_iff fun t v heq => heq ▸ ⟨_, _, rfl⟩
  | call name args =>
    have hargs : (∀ c ∈ args, c.tree .merged layout = c.tree .nested layout) ↔
        ∀ c ∈ args, c.Every KeepsApart :=
      forall₂_congr fun c hc => ih c hc
    simpa [tree, Code.children, KeepsApart, trees_eq_map] using hargs
  | callIndirect target args =>
    have hargs : (∀ c ∈ args, c.tree .merged layout = c.tree .nested layout) ↔
        ∀ c ∈ args, c.Every KeepsApart :=
      forall₂_congr fun c hc => ih c (.tail _ hc)
    simp [tree, Code.children, KeepsApart, trees_eq_map, ih target (.head _), hargs]
  | unary op value =>
    have hvalue := ih value (.head _)
    have hsigned (symbol : String) :
        Joining.merged.signed symbol value (value.tree .merged layout) =
            Joining.nested.signed symbol value (value.tree .nested layout) ↔
          ¬(Spelling.UnaryForm.prefixed symbol = .prefixed "-" ∧ value.isNegative = true) ∧
            value.tree .merged layout = value.tree .nested layout := by
      rw [Spelling.UnaryForm.prefixed.injEq]
      exact merged_signed_iff
    simp only [tree, Code.children, KeepsApart, List.forall_mem_singleton, ← hvalue]
    cases hform : Spelling.unaryForm op with
    | prefixed symbol => exact hsigned symbol
    | call name => simp
    | cast types => simp [foldr_cast_inj]
  | binary op left right =>
    have hleft := ih left (.head _)
    have hright := ih right (.tail _ (.head _))
    simp only [tree, Code.children, KeepsApart, List.forall_mem_cons, ← hleft, ← hright]
    cases hform : Spelling.binaryForm op <;> simp
  | select condition ifTrue ifFalse =>
    simp [tree, Code.children, KeepsApart, ih condition (.head _), ih ifTrue (.tail _ (.head _)),
      ih ifFalse (.tail _ (.tail _ (.head _)))]
  | _ => cases own

/-- The text of an expression is read as the expression nests, exactly if no minus sign in it stands
in front of a negative number and no assignment is the target of another. -/
theorem render_reparses {node : Code} (h : node.Every IsReadable) (uses : LabelUses) :
    parse? (tokens ((render layout node).run uses).1.text) = some (node.tree .nested layout) ↔
      node.Every KeepsApart := by
  rw [parse_render h, Option.some_inj, merged_eq_nested_iff h]

/-- A difference with a negative number that bears a comment, times a local. -/
def scaled : Code :=
  .binary (.int .w32 .mul)
    (.binary (.int .w32 .sub) (.param 0) (.const (.i32 (-1)) (some "*"))) (.localVar 1)

theorem scaled_every {Q : Code → Prop}
    (hnumber : Q (.const (.i32 (-1)) (some "*"))) (hparam : Q (.param 0)) (hlocal : Q (.localVar 1))
    (hbinary : ∀ op left right, Q (.binary op left right)) : scaled.Every Q := by
  have hdifference :
      Every Q (.binary (.int .w32 .sub) (.param 0) (.const (.i32 (-1)) (some "*"))) :=
    .node (hbinary _ _ _) (List.forall_mem_cons.2 ⟨.node hparam (List.forall_mem_nil _),
      List.forall_mem_singleton.2 (.node hnumber (List.forall_mem_nil _))⟩)
  exact .node (hbinary _ _ _) (List.forall_mem_cons.2 ⟨hdifference,
    List.forall_mem_singleton.2 (.node hlocal (List.forall_mem_nil _))⟩)

theorem render_reparses_scaled : scaled.Every IsReadable ∧ scaled.Every KeepsApart ∧
    ((render ⟨[]⟩ scaled).run []).1.text = "(param0 - -0x1 /* \"*\" */) * local1" ∧
    parse? (tokens ((render ⟨[]⟩ scaled).run []).1.text) = some (scaled.tree .nested ⟨[]⟩) := by
  have hcomment : ∀ t ∈ some "*", StaysInside t := by
    simp [StaysInside]
    decide
  have hreadable : scaled.Every IsReadable :=
    scaled_every hcomment trivial trivial fun _ _ _ => trivial
  have hapart : scaled.Every KeepsApart :=
    scaled_every trivial trivial trivial fun _ _ _ => trivial
  exact ⟨hreadable, hapart, by decide +kernel, (render_reparses hreadable []).2 hapart⟩

/-- A negative number behind a minus sign. -/
def negated : Code :=
  .unary (.float .w64 .neg) (.const (.f64 0xBFF8000000000000) none)

/-- The two minus signs of a negated negative number are read as one operator. -/
theorem negated_merges : negated.Every IsReadable ∧
    ((render ⟨[]⟩ negated).run []).1.text = "--1.5" ∧
    parse? (tokens "--1.5") = some (.prefixed "--" (.number "1.5")) ∧
    negated.tree .nested ⟨[]⟩ = .prefixed "-" (.prefixed "-" (.number "1.5")) ∧
    parse? (tokens "--1.5") ≠ some (negated.tree .nested ⟨[]⟩) := by
  have hreadable : negated.Every IsReadable :=
    .node trivial (List.forall_mem_singleton.2
      (.node (fun _ h => by cases h) (List.forall_mem_nil _)))
  have hread : parse? (tokens "--1.5") = some (.prefixed "--" (.number "1.5")) := rfl
  have hword : Decimal.Format.double.unpack (0xBFF8000000000000 : BitVec 64).toNat =
      ⟨true, .finite 6755399441055744 (-52) false⟩ := by
    decide +kernel
  have hdigits : Spelling.float ⟨false, .finite 6755399441055744 (-52) false⟩ = "1.5" := by
    decide +kernel
  have hliteral : Literal.ofValue (.f64 0xBFF8000000000000) = ⟨true, .number "1.5"⟩ := by
    rw [Literal.ofValue, hword]
    exact congrArg (fun text => Literal.mk true (.number text)) hdigits
  have htree : negated.tree .nested ⟨[]⟩ = .prefixed "-" (.prefixed "-" (.number "1.5")) := by
    rw [negated, tree, tree, hliteral]
    rfl
  exact ⟨hreadable, by decide +kernel, hread, htree, by simp [hread, htree]⟩

/-- Successive assignments are taken from the right. -/
example : parse? (tokens ((render ⟨[]⟩
    (.assign (.assign (.param 0) (.param 1)) (.param 2))).run []).1.text) =
    some (.infixed "=" (.name "param0") (.infixed "=" (.name "param1") (.name "param2"))) := by
  rfl

end Code

end WasmLift
