import WasmLift.Proofs.Expansion.Moves

/-!
# Operators as moves

A live operator that is accepted does one of a few things (`Builder.Translates`). An operator of
values and effects takes its operands and becomes one node made of them (`Operator.Writes`), a jump
marks the labels it names and becomes a node too (`Operator.Jumps`), and the others open a
construct, pass to the second arm of an `if`, or close a construct. The operators are told apart
here, and nowhere else.

So whatever the operators, those that are accepted are rebuilt by moves (`Builder.rebuild_moves`),
and except for control the only node that these make is that of a live operator.
-/

namespace WasmLift

/-- The node only directs control: it neither gives a value of its own nor has an effect. -/
def Expr.isControl : Expr → Bool
  | .ret _ | .nop | .unreachable | .block _ _ _ | .ite _ _ _ _ | .loop _ _ _ | .br _ _ _
  | .switch _ _ _ _ => true
  | _ => false

namespace Operator

/-- The operator only directs control: it neither gives a value nor has an effect. -/
def isControl : Operator → Bool
  | .nop | .unreachable | .block _ | .loop _ | .ifThen _ | .elseArm | .finish | .br _ | .brIf _
  | .brTable _ _ | .ret => true
  | _ => false

/-- The function that an operator calls by index. -/
def callee? : Operator → Option Nat
  | .call function => some function
  | _ => none

/-- The local that an operator names. -/
def ownLocal? : Operator → Option Nat
  | .localGet index | .localSet index | .localTee index => some index
  | _ => none

/-- An operator of values and effects is rebuilt as the node, whatever the operands. -/
inductive Writes (scope : Scope) : Operator → Expr → Prop where
  | const (value : Value) : Writes scope (.const value) (.const value)
  | localGet (index : Nat) (ty : Ty) : Writes scope (.localGet index) (.localGet index ty)
  | localSet (index : Nat) (value : Expr) :
      Writes scope (.localSet index) (.localSet index value false .void)
  | localTee (index : Nat) (value : Expr) (ty : Ty) :
      Writes scope (.localTee index) (.localSet index value true ty)
  | globalGet (index : Nat) (ty : Ty) : Writes scope (.globalGet index) (.globalGet index ty)
  | globalSet (index : Nat) (value : Expr) :
      Writes scope (.globalSet index) (.globalSet index value)
  | unary (op : UnOp) (value : Expr) : Writes scope (.unary op) (.unary op value)
  | binary (op : BinOp) (left right : Expr) : Writes scope (.binary op) (.binary op left right)
  | load (shape : AccessShape) (operand : MemOperand) (address : Expr) :
      Writes scope (.load shape operand)
        (.load address (Builder.memArg shape operand) shape.ty)
  | store (shape : AccessShape) (operand : MemOperand) (address value : Expr) :
      Writes scope (.store shape operand) (.store address value (Builder.memArg shape operand))
  | memorySize : Writes scope (.memorySize 0) .memorySize
  | memoryGrow (delta : Expr) : Writes scope (.memoryGrow 0) (.memoryGrow delta)
  | memoryCopy (target source length : Expr) :
      Writes scope (.memoryCopy 0 0) (.memoryCopy target source length)
  | memoryFill (target value length : Expr) :
      Writes scope (.memoryFill 0) (.memoryFill target value length)
  | call {function : Nat} {type : FuncType} {signature : Signature} {target : NameId}
      {args : List Expr} (known : scope.funcTypes[function]? = some type)
      (typed : Signature.ofFuncType type = .ok signature)
      (named : scope.funcNames[function]? = some target)
      (count : args.length = signature.params.length) :
      Writes scope (.call function) (.call target args signature.result)
  | callIndirect {index : Nat} {type : FuncType} {signature : Signature} {target : Expr}
      {args : List Expr} (known : scope.types[index]? = some type)
      (typed : Signature.ofFuncType type = .ok signature)
      (count : args.length = signature.params.length) :
      Writes scope (.callIndirect index 0) (.callIndirect target args signature.result)
  | drop (value : Expr) : Writes scope .drop (.drop value)
  | select (condition ifTrue ifFalse : Expr) :
      Writes scope .select (.select condition ifTrue ifFalse ifTrue.ty)
  | typedSelect (type : ValType) (condition ifTrue ifFalse : Expr) :
      Writes scope (.typedSelect type) (.select condition ifTrue ifFalse ifTrue.ty)

/-- A jump is rebuilt as the node where `height` constructs are open, and names the constructs at
the depths. A branch to the outermost one is a return and names none. -/
inductive Jumps (height : Nat) : Operator → List Nat → Expr → Prop where
  | unreachable : Jumps height .unreachable [] .unreachable
  | ret (value : Option Expr) : Jumps height .ret [] (.ret value)
  | leave (depth : Nat) (value : Option Expr) (outermost : height = depth + 1) :
      Jumps height (.br depth) [] (.ret value)
  | br (depth : Nat) (label : Label) (value : Option Expr) :
      Jumps height (.br depth) [depth] (.br label none value)
  | brIf (depth : Nat) (label : Label) (condition : Expr) (value : Option Expr) :
      Jumps height (.brIf depth) [depth] (.br label (some condition) value)
  | brTable (depths : List Nat) (fallback : Nat) (labels : List Label) (label : Label)
      (condition : Expr) (value : Option Expr) :
      Jumps height (.brTable depths fallback) (depths ++ [fallback])
        (.switch labels (some label) condition value)

section
variable {op : Operator} {e : Expr}

/-- An operator of values and effects becomes no construct. -/
theorem Writes.isSimple {scope : Scope} (h : op.Writes scope e) : e.isSimple = true := by
  cases h <;> rfl

/-- The node names the local that its operator does. -/
theorem Writes.ownLocal? {scope : Scope} (h : op.Writes scope e) :
    e.ownLocal? = op.ownLocal? := by
  cases h <;> rfl

/-- Neither the operator nor its node directs control. -/
theorem Writes.isControl {scope : Scope} (h : op.Writes scope e) :
    op.isControl = false ∧ e.isControl = false := by
  cases h <;> exact ⟨rfl, rfl⟩

/-- The node calls the function whose name belongs to the index in its operator. -/
theorem Writes.callee? {scope : Scope} (h : op.Writes scope e) :
    e.callee?.map some = op.callee?.map (scope.funcNames[·]?) := by
  cases h with
  | call _ _ named _ => simp [Expr.callee?, Operator.callee?, named]
  | _ => rfl

/-- The node of an operator of values and effects takes no branch. -/
theorem Writes.branchTargets {scope : Scope} (h : op.Writes scope e) : e.branchTargets = [] := by
  cases h <;> rfl

/-- A jump becomes no construct. -/
theorem Jumps.isSimple {height : Nat} {depths : List Nat} (h : op.Jumps height depths e) :
    e.isSimple = true := by
  cases h <;> rfl

/-- Both a jump and its node direct control. -/
theorem Jumps.isControl {height : Nat} {depths : List Nat} (h : op.Jumps height depths e) :
    op.isControl = true ∧ e.isControl = true := by
  cases h <;> exact ⟨rfl, rfl⟩

/-- The node of a jump names no local. -/
theorem Jumps.ownLocal? {height : Nat} {depths : List Nat} (h : op.Jumps height depths e) :
    e.ownLocal? = none := by
  cases h <;> rfl

end

end Operator

namespace Builder

/-- Values are taken from the innermost frame one after the other; the last comes first. -/
inductive Takes : Builder → List Expr → Builder → Prop where
  | none (b : Builder) : Takes b [] b
  | more {b c d : Builder} {vs : List Expr} {v : Expr} {consumer : String} (before : Takes b vs c)
      (last : takeValue consumer c = .ok (v, d)) : Takes b (v :: vs) d

/-- What a live operator does to the state. -/
inductive Translates (scope : Scope) (b : Builder) : Operator → Builder → Prop where
  | nop : Translates scope b .nop b
  /-- A node is made of the values that were taken. -/
  | write {op : Operator} {b' c : Builder} {e : Expr} (writes : op.Writes scope e)
      (own : ∀ i, op.ownLocal? = some i → i < b.locals.length) (takes : Takes b e.children c)
      (pushed : push e c = .ok ((), b')) : Translates scope b op b'
  /-- A jump is made of the values it carries, after the labels it names were marked. -/
  | jump {op : Operator} {b' c : Builder} {e : Expr} {depths : List Nat}
      (jumps : op.Jumps b.frames.length depths e)
      (targets : e.branchTargets.map some = depths.map b.labelAt?) (takes : Takes b e.children c)
      (pushed : push e (c.mark depths) = .ok ((), b')) : Translates scope b op b'
  /-- A conditional branch to the outermost construct that carries no value. -/
  | leaveIf {depth : Nat} {b' c : Builder} {condition : Expr}
      (outermost : b.frames.length = depth + 1) (takes : Takes b [condition] c)
      (pushed : push (.ite condition (.ret none) none .void) c = .ok ((), b')) :
      Translates scope b (.brIf depth) b'
  | block {type : BlockType} {result : Ty} :
      Translates scope b (.block type) (b.opened .block result)
  | loop {type : BlockType} {result : Ty} : Translates scope b (.loop type) (b.opened .loop result)
  | ifThen {type : BlockType} {result : Ty} {c : Builder} {condition : Expr}
      (takes : Takes b [condition] c) :
      Translates scope b (.ifThen type) (c.opened (.ifThen condition) result)
  | elseArm {b' : Builder} (passed : beginElse b = .ok ((), b')) : Translates scope b .elseArm b'
  | finish {b' : Builder} (closed : close b = .ok ((), b')) : Translates scope b .finish b'

/-- What a dead operator does to the state. -/
inductive PassesOver (b : Builder) : Operator → Builder → Prop where
  | block {type : BlockType} : PassesOver b (.block type) b.deeper
  | loop {type : BlockType} : PassesOver b (.loop type) b.deeper
  | ifThen {type : BlockType} : PassesOver b (.ifThen type) b.deeper
  | elseInside (inside : b.deadConstructs ≠ 0) : PassesOver b .elseArm b
  | finishInside (inside : b.deadConstructs ≠ 0) :
      PassesOver b .finish { b with deadConstructs := b.deadConstructs - 1 }
  /-- The dead stretch is the rest of an arm. -/
  | elseArm {b' : Builder} (closes : b.deadConstructs = 0)
      (passed : beginElse b = .ok ((), b')) : PassesOver b .elseArm b'
  /-- The dead stretch is the rest of a construct. -/
  | finish {b' : Builder} (closes : b.deadConstructs = 0) (closed : close b = .ok ((), b')) :
      PassesOver b .finish b'
  | plain {op : Operator} (plain : op.isPlain = true) : PassesOver b op b

section
variable {α : Type} {b b' c d : Builder} {scope : Scope} {op : Operator}

/-! ## Taking values -/

/-- Values may be taken in two goes. -/
theorem Takes.trans {vs vs' : List Expr} (h : Takes b vs c) (h' : Takes c vs' d) :
    Takes b (vs' ++ vs) d := by
  induction h' with
  | none => exact h
  | more _ last ih => exact .more ih last

/-- One value is taken. -/
theorem takeValue_takes {consumer : String} {v : Expr} (h : takeValue consumer b = .ok (v, c)) :
    Takes b [v] c :=
  .more (.none b) h

/-- As many values are taken as are asked for. -/
theorem takeValues_takes {consumer : String} {n : Nat} {taken vs : List Expr}
    (hb : Takes b taken c) (h : takeValues consumer n taken c = .ok (vs, d)) :
    Takes b vs d ∧ vs.length = n + taken.length := by
  induction n generalizing c taken with
  | zero =>
    obtain ⟨rfl, rfl⟩ := pure_ok h
    exact ⟨hb, (Nat.zero_add _).symm⟩
  | succ n ih =>
    obtain ⟨v, c₁, hv, hrest⟩ := seq_ok.1 h
    obtain ⟨htakes, hlength⟩ := ih (hb.more hv) hrest
    rw [List.length_cons] at hlength
    exact ⟨htakes, by omega⟩

/-- The value that a branch carries is taken, if it carries one. -/
theorem takeCarried_takes {consumer : String} {ty : Ty} {v : Option Expr}
    (h : takeCarried ty consumer b = .ok (v, c)) : Takes b v.toList c := by
  rw [takeCarried] at h
  split at h
  · obtain ⟨rfl, rfl⟩ := pure_ok h
    exact .none _
  · obtain ⟨v, c₁, hv, hpure⟩ := seq_ok.1 h
    obtain ⟨rfl, rfl⟩ := pure_ok hpure
    exact takeValue_takes hv

/-- Taking a value leaves the frames as they are, except for the nodes of the innermost one. -/
theorem takeValue_frames {consumer : String} {v : Expr} (h : takeValue consumer b = .ok (v, c)) :
    ∃ f outer emitted, b.frames = f :: outer ∧
      c.frames = { f with emitted := emitted } :: outer := by
  obtain ⟨f, outer, later, value, earlier, hframes, -, htaken⟩ := takeValue_ok h
  refine ⟨f, outer, ?_⟩
  unfold taken at htaken
  split at htaken <;> (cases htaken; exact ⟨_, hframes, rfl⟩)

/-- What does not depend on the nodes of a frame is the same after values were taken. -/
theorem Takes.map_frames {vs : List Expr} (h : Takes b vs c) {g : Frame → α}
    (hg : ∀ f emitted, g { f with emitted := emitted } = g f) :
    c.frames.map g = b.frames.map g := by
  induction h with
  | none => rfl
  | more _ last ih =>
    obtain ⟨f, outer, emitted, hframes, hframes'⟩ := takeValue_frames last
    rw [← ih, hframes, hframes', List.map_cons, List.map_cons, hg]

/-- To take values changes no label. -/
theorem Takes.labelAt? {vs : List Expr} (h : Takes b vs c) (depth : Nat) :
    c.labelAt? depth = b.labelAt? depth :=
  labelAt?_eq (h.map_frames fun _ _ => rfl) depth

/-- To take values opens and closes no construct. -/
theorem Takes.height {vs : List Expr} (h : Takes b vs c) : c.frames.length = b.frames.length := by
  simpa using congrArg List.length (h.map_frames (g := Frame.label) fun _ _ => rfl)

/-- To take values makes nothing dead. -/
theorem Takes.isDead {vs : List Expr} (h : Takes b vs c) : c.isDead = b.isDead := by
  have hdead : ∀ b : Builder, b.isDead = (b.frames.map Frame.unreachable).head?.getD false := by
    intro b
    unfold Builder.isDead
    cases b.frames <;> rfl
  rw [hdead, hdead, h.map_frames fun _ _ => rfl]

/-- To take values does not finish the body. -/
theorem Takes.body {vs : List Expr} (h : Takes b vs c) : c.body = b.body := by
  induction h with
  | none => rfl
  | more _ last ih => exact (takeValue_body last).trans ih

/-- Values that are taken still stand where they did, or in scratch locals. -/
theorem Takes.moves {vs : List Expr} (h : Takes b vs c) : Moves b [] (c.hold vs) := by
  induction h with
  | none => exact hold_nil _ ▸ .refl
  | more _ last ih => exact ih.trans (takeValue_moves last _)

/-! ## Reading the surroundings -/

/-- What looks at the surroundings only leaves the state alone. -/
theorem lift_ok {x : Except Cause α} {a : α} (h : (liftM x : Build α) b = .ok (a, b')) :
    x = .ok a ∧ b' = b := by
  cases x with
  | error e => cases h
  | ok a =>
    cases h
    exact ⟨rfl, rfl⟩

/-- The type of a local is had if the local is known. -/
theorem localTy_ok {index : Nat} {ty : Ty} (h : localTy index b = .ok (ty, b')) :
    b' = b ∧ index < b.locals.length := by
  obtain ⟨_, _, ⟨⟩, hrest⟩ := seq_ok.1 h
  cases hty : b.locals[index]? with
  | none =>
    rw [hty] at hrest
    cases hrest
  | some ty =>
    rw [hty] at hrest
    exact ⟨(pure_ok hrest).2, (List.getElem?_eq_some_iff.1 hty).1⟩

/-- The type of a global is had without a change. -/
theorem globalTy_ok {index : Nat} {ty : Ty} (h : globalTy scope index b = .ok (ty, b')) :
    b' = b := by
  unfold globalTy at h
  cases hty : scope.globalTypes[index]? <;> rw [hty] at h
  · cases h
  · exact (pure_ok h).2

/-- The type of a construct is had without a change. -/
theorem blockTy_ok {type : BlockType} {ty : Ty} (h : blockTy scope type b = .ok (ty, b')) :
    b' = b := by
  cases type with
  | empty => exact (pure_ok h).2
  | value type => exact (lift_ok h).2
  | declared index =>
    rw [blockTy] at h
    cases htype : scope.types[index]? with
    | none =>
      rw [htype] at h
      cases h
    | some type =>
      rw [htype] at h
      dsimp only at h
      split at h
      · cases h
      · obtain ⟨signature, c, hsignature, hpure⟩ := seq_ok.1 h
        exact (pure_ok hpure).2.trans (lift_ok hsignature).2

/-! ## Jumps -/

/-- Whether a depth is that of the outermost construct is found out without a change. -/
theorem isOutermost_ok {depth : Nat} {outermost : Bool}
    (h : isOutermost depth b = .ok (outermost, b')) :
    b' = b ∧ (outermost = true → b.frames.length = depth + 1) := by
  cases h
  exact ⟨rfl, fun houter => by simpa using houter⟩

/-- A branch that is accepted becomes a jump, or a return if it leaves the function. -/
theorem branch_translates {depth : Nat} (h : branch depth b = .ok ((), b')) :
    Translates scope b (.br depth) b' := by
  obtain ⟨f, c, hf, hcarry⟩ := seq_ok.1 h
  obtain ⟨rfl, hlabel⟩ := frameAt_ok hf
  obtain ⟨value, c₁, hvalue, houtermost⟩ := seq_ok.1 hcarry
  obtain ⟨outermost, c₂, houter, hjump⟩ := seq_ok.1 houtermost
  obtain ⟨rfl, houter⟩ := isOutermost_ok houter
  have htaken := takeCarried_takes hvalue
  split at hjump
  next hreturn =>
    have hheight := htaken.height.symm.trans (houter hreturn)
    exact .jump (.leave depth value hheight) rfl htaken hjump
  next =>
    obtain ⟨_, c₃, hmark, hpush⟩ := seq_ok.1 hjump
    obtain rfl := markUsed_ok hmark
    refine .jump (.br depth f.label value) ?_ ?_ hpush
    · simp [Expr.branchTargets, hlabel]
    · simpa [Expr.children] using htaken

/-- A conditional branch that is accepted becomes a jump, or a conditional return. -/
theorem branchIf_translates {depth : Nat} (h : branchIf depth b = .ok ((), b')) :
    Translates scope b (.brIf depth) b' := by
  obtain ⟨f, c, hf, htake⟩ := seq_ok.1 h
  obtain ⟨rfl, hlabel⟩ := frameAt_ok hf
  obtain ⟨condition, c₁, hcondition, hcarry⟩ := seq_ok.1 htake
  obtain ⟨value, c₂, hvalue, houtermost⟩ := seq_ok.1 hcarry
  obtain ⟨outermost, c₃, houter, hjump⟩ := seq_ok.1 houtermost
  obtain ⟨rfl, houter⟩ := isOutermost_ok houter
  have htaken := (takeValue_takes hcondition).trans (takeCarried_takes hvalue)
  split at hjump
  next hreturn =>
    obtain ⟨hall, hnone⟩ := Bool.and_eq_true_iff.1 hreturn
    obtain rfl : value = none := by simpa using hnone
    exact .leaveIf (htaken.height.symm.trans (houter hall)) htaken hjump
  next =>
    obtain ⟨_, c₃, hmark, hpush⟩ := seq_ok.1 hjump
    obtain rfl := markUsed_ok hmark
    refine .jump (.brIf depth f.label condition value) ?_ ?_ hpush
    · simp [Expr.branchTargets, hlabel]
    · simpa [Expr.children] using htaken

/-- A branch table that is accepted becomes a jump that names all its constructs. -/
theorem branchTable_translates {depths : List Nat} {fallback : Nat}
    (h : branchTable depths fallback b = .ok ((), b')) :
    Translates scope b (.brTable depths fallback) b' := by
  obtain ⟨condition, c, hcondition, htargets⟩ := seq_ok.1 h
  obtain ⟨labels, c₁, hlabels, hframe⟩ := seq_ok.1 htargets
  obtain ⟨rfl, hnames⟩ := targetLabels_ok hlabels
  obtain ⟨f, c₂, hf, hmark⟩ := seq_ok.1 hframe
  obtain ⟨rfl, hlabel⟩ := frameAt_ok hf
  obtain ⟨_, c₃, hmarked, hcarry⟩ := seq_ok.1 hmark
  obtain rfl := markUsed_ok hmarked
  obtain ⟨value, c₄, hvalue, hpush⟩ := seq_ok.1 hcarry
  -- The value is taken after the labels are marked, and might as well be taken before.
  rw [mark_mark] at hvalue
  obtain ⟨d, htake, rfl, -⟩ := takeCarried_mark hvalue
  have hfirst := takeValue_takes hcondition
  have htaken := hfirst.trans (takeCarried_takes htake)
  rw [labelAt?_mark, hfirst.labelAt?] at hlabel
  refine .jump (.brTable depths fallback labels f.label condition value) ?_ htaken hpush
  simp [Expr.branchTargets, hnames, hlabel, hfirst.labelAt?]

/-! ## Calls and choices -/

/-- A node of an operator that names no local. -/
theorem Translates.ofTakes {e : Expr} (writes : op.Writes scope e) (hnone : op.ownLocal? = none)
    (takes : Takes b e.children c) (pushed : push e c = .ok ((), b')) :
    Translates scope b op b' := by
  refine .write writes (fun i hi => ?_) takes pushed
  rw [hnone] at hi
  cases hi

/-- A call that is accepted becomes a node of its operands. -/
theorem callFunction_translates {function : Nat}
    (h : callFunction scope function b = .ok ((), b')) :
    Translates scope b (.call function) b' := by
  unfold callFunction at h
  cases htype : scope.funcTypes[function]? with
  | none =>
    rw [htype] at h
    cases h
  | some type =>
    cases hname : scope.funcNames[function]? with
    | none =>
      rw [htype, hname] at h
      cases h
    | some target =>
      rw [htype, hname] at h
      obtain ⟨signature, c, hsignature, htake⟩ := seq_ok.1 h
      obtain ⟨htyped, rfl⟩ := lift_ok hsignature
      obtain ⟨args, c₁, hargs, hpush⟩ := seq_ok.1 htake
      obtain ⟨htakes, hcount⟩ := takeValues_takes (.none _) hargs
      exact .ofTakes (.call htype htyped hname hcount) rfl htakes hpush

/-- A call through the table that is accepted becomes a node of its operands, the index among them.
-/
theorem callTable_translates {type table : Nat} (h : callTable scope type table b = .ok ((), b')) :
    Translates scope b (.callIndirect type table) b' := by
  unfold callTable at h
  split at h
  · cases h
  next htable =>
    obtain rfl : table = 0 := by simpa using htable
    cases htype : scope.types[type]? with
    | none =>
      rw [htype] at h
      cases h
    | some functionType =>
      rw [htype] at h
      obtain ⟨signature, c, hsignature, htarget⟩ := seq_ok.1 h
      obtain ⟨htyped, rfl⟩ := lift_ok hsignature
      obtain ⟨target, c₁, htarget, hargs⟩ := seq_ok.1 htarget
      obtain ⟨args, c₂, hargs, hpush⟩ := seq_ok.1 hargs
      obtain ⟨htakes, hcount⟩ := takeValues_takes (.none _) hargs
      have htaken := (takeValue_takes htarget).trans htakes
      exact .ofTakes (.callIndirect htype htyped hcount) rfl htaken hpush

/-- A choice that is accepted becomes a node of its condition and two values. -/
theorem choose_translates (h : choose b = .ok ((), b'))
    (writes : ∀ condition ifTrue ifFalse,
      op.Writes scope (.select condition ifTrue ifFalse ifTrue.ty))
    (hnone : op.ownLocal? = none) : Translates scope b op b' := by
  obtain ⟨condition, c₁, hcondition, h₁⟩ := seq_ok.1 h
  obtain ⟨ifFalse, c₂, hfalse, h₂⟩ := seq_ok.1 h₁
  obtain ⟨ifTrue, c₃, htrue, hpush⟩ := seq_ok.1 h₂
  exact .ofTakes (writes condition ifTrue ifFalse) hnone
    (((takeValue_takes hcondition).more hfalse).more htrue) hpush

/-! ## All operators -/

/-- A live operator that is accepted does what its case says. -/
theorem rebuildLive_translates (h : rebuildLive scope op b = .ok ((), b')) :
    Translates scope b op b' := by
  cases op with
  | const value => exact .ofTakes (.const value) rfl (.none b) h
  | localGet index =>
    obtain ⟨ty, c, hty, hpush⟩ := seq_ok.1 h
    obtain ⟨rfl, hindex⟩ := localTy_ok hty
    exact .write (.localGet index ty) (by rintro _ ⟨⟩; exact hindex) (.none _) hpush
  | localSet index =>
    obtain ⟨ty, c, hty, htake⟩ := seq_ok.1 h
    obtain ⟨rfl, hindex⟩ := localTy_ok hty
    obtain ⟨v, c₁, hv, hpush⟩ := seq_ok.1 htake
    exact .write (.localSet index v) (by rintro _ ⟨⟩; exact hindex) (takeValue_takes hv) hpush
  | localTee index =>
    obtain ⟨ty, c, hty, htake⟩ := seq_ok.1 h
    obtain ⟨rfl, hindex⟩ := localTy_ok hty
    obtain ⟨v, c₁, hv, hpush⟩ := seq_ok.1 htake
    exact .write (.localTee index v ty) (by rintro _ ⟨⟩; exact hindex) (takeValue_takes hv) hpush
  | globalGet index =>
    obtain ⟨ty, c, hty, hpush⟩ := seq_ok.1 h
    obtain rfl := globalTy_ok hty
    exact .ofTakes (.globalGet index ty) rfl (.none _) hpush
  | globalSet index =>
    obtain ⟨ty, c, hty, htake⟩ := seq_ok.1 h
    obtain rfl := globalTy_ok hty
    obtain ⟨v, c₁, hv, hpush⟩ := seq_ok.1 htake
    exact .ofTakes (.globalSet index v) rfl (takeValue_takes hv) hpush
  | unary op =>
    obtain ⟨v, c, hv, hpush⟩ := seq_ok.1 h
    exact .ofTakes (.unary op v) rfl (takeValue_takes hv) hpush
  | binary op =>
    obtain ⟨right, c₁, hright, htake⟩ := seq_ok.1 h
    obtain ⟨left, c₂, hleft, hpush⟩ := seq_ok.1 htake
    exact .ofTakes (.binary op left right) rfl ((takeValue_takes hright).more hleft) hpush
  | load shape operand =>
    obtain ⟨address, c, haddress, hpush⟩ := seq_ok.1 h
    exact .ofTakes (.load shape operand address) rfl (takeValue_takes haddress) hpush
  | store shape operand =>
    obtain ⟨value, c₁, hvalue, htake⟩ := seq_ok.1 h
    obtain ⟨address, c₂, haddress, hpush⟩ := seq_ok.1 htake
    exact .ofTakes (.store shape operand address value) rfl
      ((takeValue_takes hvalue).more haddress) hpush
  | memorySize memory =>
    cases memory with
    | succ memory => cases h
    | zero => exact .ofTakes .memorySize rfl (.none b) h
  | memoryGrow memory =>
    cases memory with
    | succ memory => cases h
    | zero =>
      obtain ⟨v, c, hv, hpush⟩ := seq_ok.1 h
      exact .ofTakes (.memoryGrow v) rfl (takeValue_takes hv) hpush
  | memoryCopy target source =>
    cases target with
    | succ target => cases h
    | zero =>
      cases source with
      | succ source => cases h
      | zero =>
        obtain ⟨length, c₁, hlength, h₁⟩ := seq_ok.1 h
        obtain ⟨source, c₂, hsource, h₂⟩ := seq_ok.1 h₁
        obtain ⟨target, c₃, htarget, hpush⟩ := seq_ok.1 h₂
        exact .ofTakes (.memoryCopy target source length) rfl
          (((takeValue_takes hlength).more hsource).more htarget) hpush
  | memoryFill memory =>
    cases memory with
    | succ memory => cases h
    | zero =>
      obtain ⟨length, c₁, hlength, h₁⟩ := seq_ok.1 h
      obtain ⟨value, c₂, hvalue, h₂⟩ := seq_ok.1 h₁
      obtain ⟨target, c₃, htarget, hpush⟩ := seq_ok.1 h₂
      exact .ofTakes (.memoryFill target value length) rfl
        (((takeValue_takes hlength).more hvalue).more htarget) hpush
  | nop =>
    obtain ⟨-, rfl⟩ := pure_ok h
    exact .nop
  | unreachable => exact .jump .unreachable rfl (.none b) h
  | block type =>
    obtain ⟨ty, c, hty, hopen⟩ := seq_ok.1 h
    obtain rfl := blockTy_ok hty
    obtain rfl := modify_ok hopen
    exact .block
  | loop type =>
    obtain ⟨ty, c, hty, hopen⟩ := seq_ok.1 h
    obtain rfl := blockTy_ok hty
    obtain rfl := modify_ok hopen
    exact .loop
  | ifThen type =>
    obtain ⟨ty, c, hty, htake⟩ := seq_ok.1 h
    obtain rfl := blockTy_ok hty
    obtain ⟨condition, c₁, hcondition, hopen⟩ := seq_ok.1 htake
    obtain rfl := modify_ok hopen
    exact .ifThen (takeValue_takes hcondition)
  | elseArm => exact .elseArm h
  | finish => exact .finish h
  | br depth => exact branch_translates h
  | brIf depth => exact branchIf_translates h
  | brTable depths fallback => exact branchTable_translates h
  | ret =>
    obtain ⟨ty, _, ⟨⟩, hcarry⟩ := seq_ok.1 h
    obtain ⟨value, c, hvalue, hpush⟩ := seq_ok.1 hcarry
    exact .jump (.ret value) rfl (takeCarried_takes hvalue) hpush
  | call function => exact callFunction_translates h
  | callIndirect type table => exact callTable_translates h
  | drop =>
    obtain ⟨v, c, hv, hpush⟩ := seq_ok.1 h
    exact .ofTakes (.drop v) rfl (takeValue_takes hv) hpush
  | select => exact choose_translates h .select rfl
  | typedSelect type => exact choose_translates h (.typedSelect type) rfl
  | refFunc | other => cases h

/-! ## Operators as moves -/

/-- Locals are only added. -/
theorem Moves.locals_grow {es : List Expr} (h : Moves b es b') : b.locals <+: b'.locals := by
  induction h with
  | refl => exact List.prefix_refl _
  | step move _ ih =>
    refine List.IsPrefix.trans ?_ ih
    cases move with
    | spill => exact List.prefix_append _ _
    | _ => exact List.prefix_refl _

/-- Moves forget no local. -/
theorem Moves.locals_le {es : List Expr} (h : Moves b es b') :
    b.locals.length ≤ b'.locals.length :=
  h.locals_grow.length_le

/-- An `if` is opened with the condition in hand. -/
theorem openIf_moves {condition : Expr} {result : Ty} (h : Takes b [condition] c) :
    Moves b [] (c.opened (.ifThen condition) result) := by
  obtain ⟨f, outer, hframes⟩ : ∃ f outer, c.frames = f :: outer := by
    cases h with
    | more _ last =>
      obtain ⟨f, outer, emitted, -, hframes⟩ := takeValue_frames last
      exact ⟨_, outer, hframes⟩
  have henter := @Move.enterIf (c.hold [condition]) _ outer condition _ result
    (hold_frames hframes [condition]) rfl
  have hmoves := h.moves.trans henter.moves
  simpa [hold, hframes, opened] using hmoves

/-- A conditional return is made in two steps, the return first. -/
theorem leaveIf_moves {condition : Expr} (h : Takes b [condition] c)
    (hpush : push (.ite condition (.ret none) none .void) c = .ok ((), b')) :
    Moves b [.ret none, .ite condition (.ret none) none .void] b' := by
  obtain ⟨f, outer, hframes, -⟩ := modifyTop_ok hpush
  have hret := @Move.make (c.hold [condition]) _ outer (.ret none) _ [] f.unreachable
    (hold_frames hframes _) rfl rfl (by simp [Expr.ownLocal?]) rfl
  have hite := push_moves hpush rfl (by simp [Expr.ownLocal?]) rfl
  refine h.moves.trans (@Moves.trans _ _ _ [_] [_] hret.moves ?_)
  simpa [hold, hframes, Frame.marked, Expr.children] using hite

/-- The nodes that are made of operators, control apart. -/
def Wrote (scope : Scope) (ops : List Operator) (es : List Expr) : Prop :=
  List.Forall₂ (Operator.Writes scope) (ops.filter (!·.isControl)) (es.filter (!·.isControl))

/-- A control operator makes no node other than of control. -/
theorem wrote_of_isControl {es : List Expr} (hop : op.isControl = true)
    (hes : ∀ e ∈ es, e.isControl = true) : Wrote scope [op] es := by
  have hnone : es.filter (!·.isControl) = [] := by simpa using hes
  simp [Wrote, hop, hnone]

/-- If all operators are control, so are the nodes. -/
theorem Wrote.isControl {ops : List Operator} {es : List Expr} (h : Wrote scope ops es)
    (hops : ∀ op ∈ ops, op.isControl = true) : ∀ e ∈ es, e.isControl = true := by
  have hnone : ops.filter (!·.isControl) = [] := by simpa using hops
  rw [Wrote, hnone, List.forall₂_nil_left_iff] at h
  simpa using h

/-- A node that is no control is made of one of the operators. -/
theorem Wrote.writes {ops : List Operator} {es : List Expr} (h : Wrote scope ops es) {e : Expr}
    (he : e ∈ es) (hnode : e.isControl = false) : ∃ op ∈ ops, op.Writes scope e := by
  have hmem : e ∈ es.filter (!·.isControl) := by simp [he, hnode]
  have hwritten : ∀ op ∈ ops.filter (!·.isControl), op ∈ ops := fun _ => List.mem_of_mem_filter
  unfold Wrote at h
  generalize ops.filter (!·.isControl) = written at h hwritten
  generalize es.filter (!·.isControl) = nodes at h hmem
  induction h with
  | nil => cases hmem
  | cons hwrites _ ih =>
    obtain ⟨hop, hrest⟩ := List.forall_mem_cons.1 hwritten
    rcases List.mem_cons.1 hmem with rfl | hmem
    · exact ⟨_, hop, hwrites⟩
    · exact ih hrest hmem

/-- A local that a node names is named by its operator. -/
theorem Wrote.ownLocal? {ops : List Operator} {es : List Expr} (h : Wrote scope ops es) {e : Expr}
    (he : e ∈ es) {i : Nat} (hi : e.ownLocal? = some i) : ∃ op ∈ ops, op.ownLocal? = some i := by
  have hnode : e.isControl = false := by
    cases e with
    | localGet | localSet => rfl
    | _ => cases hi
  obtain ⟨op, hop, hwrites⟩ := h.writes he hnode
  exact ⟨op, hop, hwrites.ownLocal? ▸ hi⟩

/-- What two stretches of operators are rebuilt as is put one after the other. -/
theorem Wrote.append {ops ops' : List Operator} {es es' : List Expr} (h : Wrote scope ops es)
    (h' : Wrote scope ops' es') : Wrote scope (ops ++ ops') (es ++ es') := by
  rw [Wrote, List.filter_append, List.filter_append]
  exact List.rel_append h h'

/-- A live operator is rebuilt by moves. -/
theorem Translates.moves (h : Translates scope b op b') :
    ∃ es, Moves b es b' ∧ Wrote scope [op] es := by
  have silent (hmoves : Moves b [] b') (hop : op.isControl = true) :
      ∃ es, Moves b es b' ∧ Wrote scope [op] es :=
    ⟨[], hmoves, wrote_of_isControl hop (List.forall_mem_nil _)⟩
  cases h with
  | nop => exact silent .refl rfl
  | @write _ _ c e writes own takes pushed =>
    have htaken := takes.moves
    refine ⟨[e], htaken.trans (push_moves pushed (Expr.label?_of_isSimple writes.isSimple) ?_
      writes.branchTargets), ?_⟩
    · intro i hi
      exact Nat.lt_of_lt_of_le (own i (writes.ownLocal? ▸ hi)) htaken.locals_le
    · simp [Wrote, writes.isControl, writes]
  | @jump _ _ c e depths jumps targets takes pushed =>
    refine ⟨[e], takes.moves.trans (pushJump_moves pushed
      (Expr.label?_of_isSimple jumps.isSimple) ?_ ?_), ?_⟩
    · intro i hi
      rw [jumps.ownLocal?] at hi
      cases hi
    · exact targets.trans (List.map_congr_left fun d _ => (takes.labelAt? d).symm)
    · exact wrote_of_isControl jumps.isControl.1 (by simp [jumps.isControl])
  | leaveIf _ takes pushed =>
    exact ⟨_, leaveIf_moves takes pushed, wrote_of_isControl rfl (by simp [Expr.isControl])⟩
  | block => exact silent (Move.enter (.inl rfl)).moves rfl
  | loop => exact silent (Move.enter (.inr rfl)).moves rfl
  | ifThen takes => exact silent (openIf_moves takes) rfl
  | elseArm passed => exact silent (beginElse_moves passed) rfl
  | finish closed => exact silent (close_moves closed) rfl

/-- Except for control, an operator does not finish the body. -/
theorem Translates.body_eq (h : Translates scope b op b') (hop : op.isControl = false) :
    b'.body = b.body := by
  cases h with
  | write _ _ takes pushed =>
    obtain ⟨f, outer, -, rfl⟩ := modifyTop_ok pushed
    exact takes.body
  | jump jumps =>
    rw [jumps.isControl.1] at hop
    cases hop
  | _ => cases hop

/-- A dead operator is passed over, or closes the dead stretch. -/
theorem rebuildDead_passesOver (dead : b.isDead = true) (h : rebuild scope op b = .ok ((), b')) :
    PassesOver b op b' := by
  rw [rebuild_dead dead] at h
  obtain ⟨closes, c, hpass, hlive⟩ := seq_ok.1 h
  obtain ⟨_, _, ⟨⟩, hrest⟩ := seq_ok.1 hpass
  cases op with
  | block | loop | ifThen =>
    obtain ⟨_, c, hmodify, hpure⟩ := seq_ok.1 hrest
    obtain rfl := modify_ok hmodify
    obtain ⟨rfl, rfl⟩ := pure_ok hpure
    obtain ⟨-, rfl⟩ := pure_ok hlive
    constructor
  | finish =>
    dsimp only at hrest
    split at hrest
    · next closes =>
      obtain ⟨rfl, rfl⟩ := pure_ok hrest
      exact .finish closes hlive
    · next inside =>
      obtain ⟨_, c, hmodify, hpure⟩ := seq_ok.1 hrest
      obtain rfl := modify_ok hmodify
      obtain ⟨rfl, rfl⟩ := pure_ok hpure
      obtain ⟨-, rfl⟩ := pure_ok hlive
      exact .finishInside inside
  | elseArm =>
    obtain ⟨rfl, rfl⟩ := pure_ok hrest
    split at hlive
    · next closes => exact .elseArm (beq_iff_eq.1 closes) hlive
    · next inside =>
      obtain ⟨-, rfl⟩ := pure_ok hlive
      exact .elseInside fun hzero => inside (beq_iff_eq.2 hzero)
  | _ =>
    obtain ⟨rfl, rfl⟩ := pure_ok hrest
    obtain ⟨-, rfl⟩ := pure_ok hlive
    exact .plain rfl

/-- A dead operator makes no node. -/
theorem PassesOver.moves (h : PassesOver b op b') : Moves b [] b' := by
  cases h with
  | block | loop | ifThen | finishInside => exact Move.skip.moves
  | elseInside | plain => exact .refl
  | elseArm _ passed => exact beginElse_moves passed
  | finish _ closed => exact close_moves closed

/-- An operator is rebuilt by moves, which make its node if it is a live one. -/
theorem rebuild_moves (h : rebuild scope op b = .ok ((), b')) :
    ∃ es, Moves b es b' ∧ Wrote scope (if b.isDead then [] else [op]) es := by
  cases hdead : b.isDead with
  | false =>
    rw [rebuild_live hdead] at h
    exact (rebuildLive_translates h).moves
  | true => exact ⟨[], (rebuildDead_passesOver hdead h).moves, .nil⟩

/-- A run of operators is rebuilt by moves, which make nodes with the locals that the operators
name. -/
theorem rebuildAll_moves {ops : List Operator} (h : rebuildAll scope ops b = .ok ((), b')) :
    ∃ es, Moves b es b' ∧
      ∀ e ∈ es, ∀ i, e.ownLocal? = some i → ∃ op ∈ ops, op.ownLocal? = some i := by
  induction ops generalizing b with
  | nil =>
    obtain ⟨-, rfl⟩ := pure_ok h
    exact ⟨[], .refl, List.forall_mem_nil _⟩
  | cons op rest ih =>
    obtain ⟨_, c, hop, hrest⟩ := seq_ok.1 h
    obtain ⟨es, hmoves, hwrote⟩ := rebuild_moves hop
    obtain ⟨es', hmoves', hnamed'⟩ := ih hrest
    refine ⟨es ++ es', hmoves.trans hmoves', List.forall_mem_append.2 ⟨fun e he i hi => ?_, ?_⟩⟩
    · obtain ⟨op', hop', hlocal⟩ := hwrote.ownLocal? he hi
      refine ⟨op', ?_, hlocal⟩
      split at hop'
      · cases hop'
      · exact List.mem_singleton.1 hop' ▸ .head _
    · intro e he i hi
      obtain ⟨op', hop', hlocal⟩ := hnamed' e he i hi
      exact ⟨op', .tail _ hop', hlocal⟩

end

end Builder

namespace Expr

variable {scope : Scope} {params locals ls : List Ty} {result : Ty} {ops : List Operator}
  {body : Expr}

/-- The end of a reconstruction that was accepted. -/
theorem ofOperators_ok (h : ofOperators scope params locals result ops = .ok (ls, body)) :
    ∃ b, Builder.rebuildAll scope ops (.start (params ++ locals) result) = .ok ((), b) ∧
      b.body = some body ∧ ls = b.locals.drop params.length := by
  obtain ⟨⟨_, b⟩, hrun, hrest⟩ := bind_eq_ok.1 h
  cases hbody : b.body with
  | none =>
    simp only [hbody] at hrest
    cases hrest
  | some e =>
    simp only [hbody] at hrest
    cases hrest
    exact ⟨b, hrun, hbody, rfl⟩

end Expr

end WasmLift
