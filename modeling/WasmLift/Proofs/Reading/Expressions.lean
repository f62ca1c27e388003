import WasmLift.Proofs.Listing.Lines
import WasmLift.Proofs.Reading.Accesses

/-!
# Expressions as C reads them

An expression is printed with parentheses around every operand that is not a single term, so C reads
in the text what the expression applies to what (`Code.parse_render`). There are two exceptions: the
operand of a minus sign is not in parentheses when it is a negative number, and C takes the two
minus signs as one operator; and the target of an assignment never is, so C takes successive
assignments from the right.
-/

namespace WasmLift

namespace Code

open C

variable {layout : FrameLayout}

/-! ## What is applied to what -/

/-- How a sign is put together with what follows it, and an assignment with its target. -/
structure Joining where
  /-- A sign in front of the node that has the tree. -/
  signed : String → Code → Tree → Tree
  assigned : Tree → Tree → Tree

/-- The number that the node is. -/
def literal? : Code → Option Literal
  | .const value _ => some (.ofValue value)
  | _ => none

/-- The node is printed as a number with a minus sign. -/
def isNegative (node : Code) : Bool :=
  (node.literal?.map Literal.negative).getD false

/-- The node is printed as `0x0`. -/
def isZero : Code → Bool
  | .const (.i32 word) none => word == 0
  | .const (.i64 word) none => word == 0
  | _ => false

/-- A sign applies to its operand, and an assignment to its target. -/
def Joining.nested : Joining :=
  ⟨fun op _ t => .prefixed op t, .infixed "="⟩

/-- Two minus signs are one operator, and successive assignments are taken from the right. -/
def Joining.merged : Joining where
  signed op node t :=
    match node.literal? with
    | some l => if op = "-" ∧ l.negative then .prefixed "--" l.magnitude else .prefixed op t
    | none => .prefixed op t
  assigned := Tree.graft

mutual

/-- What an expression applies to what. -/
def tree (j : Joining) (layout : FrameLayout) : Code → Tree
  | .param index => .name (Spelling.paramName index)
  | .localVar index => .name (Spelling.localName index)
  | .globalVar name => .name name
  | .slot place => slotTree place
  | .stackBase => stackBaseTree layout
  | .stackAddress offset => stackAddressTree layout offset
  | .stackPointer => .name "__stack_pointer"
  | .deref address arg ty => derefTree (tree j layout address) address.isZero arg ty
  | .assign target value => j.assigned (tree j layout target) (tree j layout value)
  | .call name args => .call (.name name) (trees j layout args)
  | .callIndirect target args =>
    .call (.index (.name "__function_table") (tree j layout target)) (trees j layout args)
  | .const value _ => (Literal.ofValue value).tree
  | .unary op value =>
    match Spelling.unaryForm op with
    | .prefixed symbol => j.signed symbol value (tree j layout value)
    | .call name => .call (.name name) [tree j layout value]
    | .cast types => types.foldr .cast (tree j layout value)
  | .binary op left right =>
    match Spelling.binaryForm op with
    | .infixed symbol => .infixed symbol (tree j layout left) (tree j layout right)
    | .unsigned symbol =>
      let type := Spelling.unsignedOperand op
      .infixed symbol (.cast type (tree j layout left)) (.cast type (tree j layout right))
    | .call name => .call (.name name) [tree j layout left, tree j layout right]
  | .select condition ifTrue ifFalse =>
    .conditional (tree j layout condition) (tree j layout ifTrue) (tree j layout ifFalse)
  -- Statements are no expressions; nothing is claimed of what they are read as.
  | _ => .name ""
termination_by structural node => node

/-- What the arguments of a call apply to what. -/
def trees (j : Joining) (layout : FrameLayout) : List Code → List Tree
  | [] => []
  | node :: rest => tree j layout node :: trees j layout rest
termination_by structural nodes => nodes

end

/-- The node is a variable, a number, an operator, a call, an access or an assignment. The names and
texts in it are such as C takes: names are identifiers, and no text ends the comment around it. -/
def IsReadable : Code → Prop
  | .globalVar name | .call name _ => IsIdentifier name
  | .const _ text => ∀ t ∈ text, StaysInside t
  | .param _ | .localVar _ | .slot _ | .stackBase | .stackAddress _ | .stackPointer
  | .deref _ _ _ | .assign _ _ | .callIndirect _ _ | .unary _ _ | .binary _ _ _
  | .select _ _ _ => True
  | _ => False

/-- How the text of a node is read: anywhere inside brackets, and by itself if it is one term. Only
a negative number begins with a minus sign, with which another one in front of it is one operator,
and only zero is printed as `0x0`. -/
structure Reads (layout : FrameLayout) (node : Code) (text : String) : Prop where
  enclosed : Printed Enclosed text (node.tree .merged layout)
  operand : node.isCompound layout = false → Printed Operand text (node.tree .merged layout)
  detached : node.isCompound layout = false → node.isNegative = false → Detached text
  negative : ∀ l ∈ node.literal?, l.negative = true →
    text.toList.head? = some '-' ∧ Printed Operand ("-" ++ text) (.prefixed "--" l.magnitude)
  zero : node.isCompound layout = false → (text = "0x0" ↔ node.isZero = true)

/-- The tree is neither a number nor an operator between two operands. -/
def IsBare : Tree → Prop
  | .number _ | .infixed _ _ _ => False
  | _ => True

/-- What is no literal is not zero. -/
theorem isZero_literal {node : Code} (h : node.literal? = none) : node.isZero = false := by
  cases node <;> first | rfl | cases h

namespace Reads

variable {node : Code} {text : String}

/-- A single term that is no literal reads as its tree. -/
theorem ofTerm (h : Term text (node.tree .merged layout)) (hliteral : node.literal? = none)
    (hbare : IsBare (node.tree .merged layout)) : node.Reads layout text where
  enclosed := by
    refine h.1.enclosed fun l r heq => ?_
    rw [heq] at hbare
    exact hbare
  operand _ := h.1
  detached _ _ := h.2
  negative l hl := by simp [hliteral] at hl
  zero _ := by
    -- The text `0x0` is read as a number, and the tree is none.
    have hne : text ≠ "0x0" := by
      rintro rfl
      obtain ⟨ts, hspells, hoperand⟩ := h.1
      have hparse := hoperand.parse_eq
      rw [← hspells.tokens_eq] at hparse
      have hnumber : parse? (tokens "0x0") = some (.number "0x0") := rfl
      rw [hnumber] at hparse
      rw [← Option.some.inj hparse] at hbare
      exact hbare
    simp [hne, isZero_literal hliteral]

/-- A compound node reads as its tree between parentheses. -/
theorem ofCompound (hcompound : node.isCompound layout = true) (hliteral : node.literal? = none)
    (h : Printed Enclosed text (node.tree .merged layout)) : node.Reads layout text :=
  ⟨h, by simp [hcompound], by simp [hcompound], by simp [hliteral], by simp [hcompound]⟩

/-- As an operand a node reads as its tree. -/
theorem asOperand (h : node.Reads layout text) :
    Printed Operand (node.asOperand layout text) (node.tree .merged layout) := by
  unfold Code.asOperand
  split
  · exact h.enclosed.group.operand
  · next hcompound => exact h.operand (by simpa using hcompound)

/-- Unless it is a negative number, an operand may follow a minus sign. -/
theorem asOperand_detached (h : node.Reads layout text) (hnegative : node.isNegative = false) :
    Detached (node.asOperand layout text) := by
  unfold Code.asOperand
  split
  · exact h.enclosed.group_term.2
  · next hcompound => exact h.detached (by simpa using hcompound) hnegative

/-- An operand is printed as zero just if it is zero. -/
theorem asOperand_zero (h : node.Reads layout text) :
    node.asOperand layout text = "0x0" ↔ node.isZero = true := by
  unfold Code.asOperand
  split
  · next hcompound =>
    have hzero : node.isZero = false := by
      cases node <;> first | rfl | cases hcompound
    have hparen : "(" ++ text ++ ")" ≠ "0x0" := by
      intro heq
      have hlist := congrArg String.toList heq
      simp at hlist
    rw [hzero]
    exact iff_of_false hparen (by simp)
  · next hcompound => exact h.zero (by simpa using hcompound)

end Reads

/-- A constant reads as its literal. -/
theorem reads_number (value : Value) :
    (Code.const value none).Reads layout (Spelling.number value) where
  enclosed := (Literal.shown_value value).operand.enclosed (Literal.tree_plain value "=")
  operand _ := (Literal.shown_value value).operand
  detached _ hnegative := by
    obtain ⟨c, hhead, hc⟩ := (Literal.shown_value value).first hnegative
    exact detached_word hhead hc
  negative l hl hnegative := by
    cases hl
    have hshown := Literal.shown_value value
    exact ⟨hshown.first_negative hnegative, hshown.minus hnegative⟩
  zero _ := by
    constructor
    · intro hzero
      rcases number_eq_zero hzero with rfl | rfl <;> rfl
    · intro hzero
      cases value with
      | i32 word | i64 word =>
        rw [beq_iff_eq.1 hzero]
        decide
      | f32 | f64 => cases hzero

/-- A comment behind a number changes nothing but that zero is not printed by itself. -/
theorem reads_comment {value : Value} {comment : String} (h : StaysInside comment) :
    (Code.const value (some comment)).Reads layout
      (Spelling.number value ++ " /* \"" ++ comment ++ "\" */") where
  enclosed :=
    ((Literal.shown_value value).operand.comment h).enclosed (Literal.tree_plain value "=")
  operand _ := ((Literal.shown_value value).operand).comment h
  detached _ hnegative := by
    obtain ⟨c, hhead, hc⟩ := (Literal.shown_value value).first hnegative
    exact detached_word (by simp [List.head?_append, hhead]) hc
  negative l hl hnegative := by
    cases hl
    have hshown := Literal.shown_value value
    have hminus := (hshown.minus hnegative).comment h
    simp only [String.append_assoc] at hminus ⊢
    exact ⟨by simp [List.head?_append, hshown.first_negative hnegative], hminus⟩
  zero _ := by
    have hne : Spelling.number value ++ " /* \"" ++ comment ++ "\" */" ≠ "0x0" := by
      intro heq
      have hslash : '/' ∈ (Spelling.number value ++ " /* \"" ++ comment ++ "\" */").toList := by
        simp
      rw [heq] at hslash
      revert hslash
      decide
    have hzero : (Code.const value (some comment)).isZero = false := by
      cases value <;> rfl
    simp [hne, hzero]

/-- A sign in front of an operand that it does not run into. -/
theorem printed_sign {symbol text : String} {t : Tree} (hsymbol : symbol = "!" ∨ symbol = "-")
    (h : Printed Operand text t) (hdetached : Detached text) :
    Printed Operand (symbol ++ text) (.prefixed symbol t) := by
  obtain ⟨c, hhead, hminus, hnot⟩ := hdetached
  rcases hsymbol with rfl | rfl
  · exact h.prefixed (by decide) (fun _ => rfl) hhead hnot
  · exact h.prefixed (by decide) (fun _ => rfl) hhead hminus

/-- A sign in front of an operand is an operator of its own, if not both are minus signs. -/
theorem signed_merged {op : String} {node : Code}
    (h : ∀ l ∈ node.literal?, ¬(op = "-" ∧ l.negative = true)) (t : Tree) :
    Joining.merged.signed op node t = .prefixed op t := by
  unfold Joining.merged
  dsimp only
  cases hliteral : node.literal? with
  | none => rfl
  | some l => exact if_neg (h l hliteral)

/-- A minus sign in front of a negative number is one operator with the sign of it. -/
theorem signed_merged_minus {node : Code} {l : Literal} (hl : node.literal? = some l)
    (hnegative : l.negative = true) (t : Tree) :
    Joining.merged.signed "-" node t = .prefixed "--" l.magnitude := by
  simp [Joining.merged, hl, hnegative]

/-- A signed operand is no assignment. -/
theorem signed_merged_plain (op : String) (node : Code) (t l r : Tree) :
    Joining.merged.signed op node t ≠ .infixed "=" l r := by
  unfold Joining.merged
  dsimp only
  repeat' split
  all_goals exact Tree.noConfusion

/-- A sign and an operand read as what C makes of the two. -/
theorem reads_signed {symbol : String} (hsymbol : symbol = "!" ∨ symbol = "-") {value : Code}
    {text : String} (h : value.Reads layout text) :
    Printed Operand (symbol ++ value.asOperand layout text)
      (Joining.merged.signed symbol value (value.tree .merged layout)) := by
  cases hnegative : value.isNegative with
  | false =>
    have hplain := printed_sign hsymbol h.asOperand (h.asOperand_detached hnegative)
    rwa [← signed_merged fun l hl hminus => ?_] at hplain
    simp [isNegative, Option.mem_def.1 hl, hminus.2] at hnegative
  | true =>
    cases hliteral : value.literal? with
    | none => simp [isNegative, hliteral] at hnegative
    | some l =>
    have hminus : l.negative = true := by simpa [isNegative, hliteral] using hnegative
    obtain ⟨hhead, hjoined⟩ := h.negative l hliteral hminus
    -- A number never stands in parentheses, so its own minus sign follows at once.
    have hcompound : value.isCompound layout = false := by
      cases value <;> first | rfl | cases hliteral
    have hsame : value.asOperand layout text = text := by
      simp [Code.asOperand, hcompound]
    rw [hsame]
    rcases hsymbol with rfl | rfl
    · rw [signed_merged (by simp)]
      exact (h.operand hcompound).prefixed (by decide) (fun _ => rfl) hhead (by decide)
    · rw [signed_merged_minus hliteral hminus]
      exact hjoined

/-- A unary operation reads as its tree if its operand does. -/
theorem reads_unary {op : UnOp} {value : Code} {text : String} (h : value.Reads layout text) :
    (Code.unary op value).Reads layout
      (Spelling.applyUnary op (if isUnaryCall op then text else value.asOperand layout text)) := by
  rw [Spelling.applyUnary]
  cases hform : Spelling.unaryForm op with
  | prefixed symbol =>
    have hcompound : (Code.unary op value).isCompound layout = true := by
      simp [isCompound, isUnaryCall, hform]
    have hcall : isUnaryCall op = false := by simp [isUnaryCall, hform]
    have htree : (Code.unary op value).tree .merged layout =
        Joining.merged.signed symbol value (value.tree .merged layout) := by simp [tree, hform]
    have hsigned := reads_signed (Spelling.unaryForm_prefixed hform) h
    refine .ofCompound hcompound rfl ?_
    rw [htree, hcall]
    exact hsigned.enclosed (signed_merged_plain _ _ _)
  | call name =>
    have hcall : isUnaryCall op = true := by simp [isUnaryCall, hform]
    have htree : (Code.unary op value).tree .merged layout =
        .call (.name name) [value.tree .merged layout] := by simp [tree, hform]
    have hname := (Spelling.unaryForm_call hform).call (.cons h.enclosed .nil)
    rw [Text.commaList, String.intercalate_singleton, ← htree] at hname
    rw [hcall, if_pos rfl]
    exact .ofTerm hname rfl (by rw [htree]; trivial)
  | cast types =>
    have hcompound : (Code.unary op value).isCompound layout = true := by
      simp [isCompound, isUnaryCall, hform]
    have hcall : isUnaryCall op = false := by simp [isUnaryCall, hform]
    have htree : (Code.unary op value).tree .merged layout =
        types.foldr .cast (value.tree .merged layout) := by simp [tree, hform]
    obtain ⟨hne, htypes⟩ := Spelling.unaryForm_cast hform
    have hcasts := Spelling.printed_casts hne htypes h.asOperand
    refine .ofCompound hcompound rfl ?_
    rw [htree, hcall]
    refine hcasts.enclosed fun l r => ?_
    cases types with
    | nil => exact absurd rfl hne
    | cons => exact Tree.noConfusion

/-- A binary operation reads as its tree if its operands do. -/
theorem reads_binary {op : BinOp} {left right : Code} {l r : String} (hl : left.Reads layout l)
    (hr : right.Reads layout r) :
    (Code.binary op left right).Reads layout
      (if isBinaryCall op then Spelling.applyBinary op l r
        else Spelling.applyBinary op (left.asOperand layout l) (right.asOperand layout r)) := by
  have hsymbol := Spelling.symbol_infixes op
  cases hform : Spelling.binaryForm op with
  | infixed symbol =>
    rw [hform] at hsymbol
    have hcompound : (Code.binary op left right).isCompound layout = true := by
      simp [isCompound, isBinaryCall, hform]
    have hcall : isBinaryCall op = false := by simp [isBinaryCall, hform]
    have htree : (Code.binary op left right).tree .merged layout =
        .infixed symbol (left.tree .merged layout) (right.tree .merged layout) := by
      simp [tree, hform]
    refine .ofCompound hcompound rfl ?_
    rw [htree, hcall, if_neg (by simp), Spelling.applyBinary, hform]
    exact Spelling.printed_infix (hsymbol symbol rfl) hl.asOperand hr.asOperand
  | unsigned symbol =>
    rw [hform] at hsymbol
    have hcompound : (Code.binary op left right).isCompound layout = true := by
      simp [isCompound, isBinaryCall, hform]
    have hcall : isBinaryCall op = false := by simp [isBinaryCall, hform]
    have htree : (Code.binary op left right).tree .merged layout =
        .infixed symbol (.cast (Spelling.unsignedOperand op) (left.tree .merged layout))
          (.cast (Spelling.unsignedOperand op) (right.tree .merged layout)) := by
      simp [tree, hform]
    have htype := Spelling.printed_castTypes _ (Spelling.unsignedOperand_castTypes op)
    have hsum := Spelling.printed_infix (hsymbol symbol rfl) (htype.cast hl.asOperand)
      (htype.cast hr.asOperand)
    refine .ofCompound hcompound rfl ?_
    rw [htree, hcall, if_neg (by simp), Spelling.applyBinary, hform]
    have htext : "(" ++ Spelling.unsignedOperand op ++ ") " ++ left.asOperand layout l ++ " " ++
          symbol ++ " " ++
          ("(" ++ Spelling.unsignedOperand op ++ ") " ++ right.asOperand layout r) =
        "(" ++ Spelling.unsignedOperand op ++ ") " ++ left.asOperand layout l ++ " " ++ symbol ++
          " (" ++ Spelling.unsignedOperand op ++ ") " ++ right.asOperand layout r :=
      String.toList_injective (by simp)
    rw [htext] at hsum
    exact hsum
  | call name =>
    have hcall : isBinaryCall op = true := by simp [isBinaryCall, hform]
    have htree : (Code.binary op left right).tree .merged layout =
        .call (.name name) [left.tree .merged layout, right.tree .merged layout] := by
      simp [tree, hform]
    have hname := (Spelling.binaryForm_call hform).call
      (.cons hl.enclosed (.cons hr.enclosed .nil))
    rw [Text.commaList, String.intercalate_cons_cons, String.intercalate_singleton,
      ← htree] at hname
    rw [hcall, if_pos rfl, Spelling.applyBinary, hform]
    have htext : name ++ "(" ++ (l ++ ", " ++ r) ++ ")" = name ++ "(" ++ l ++ ", " ++ r ++ ")" := by
      simp only [String.append_assoc]
    rw [htext] at hname
    exact .ofTerm hname rfl (by rw [htree]; trivial)

/-- An address in the frame reads as its tree. -/
theorem reads_stackAddress (offset : Int) :
    (Code.stackAddress offset).Reads layout (stackAddressText layout offset) := by
  cases hplace : (layout.placeAt? offset).isNone with
  | true => exact .ofCompound hplace rfl (printed_stackAddress (Option.isNone_iff_eq_none.1 hplace))
  | false =>
    refine .ofTerm (term_stackAddress hplace) rfl ?_
    rw [tree, stackAddressTree]
    rcases hsome : layout.placeAt? offset with _ | ⟨start, _ | diff⟩
    · simp [hsome] at hplace
    · trivial
    · trivial

/-- The frame base reads as its tree. -/
theorem reads_stackBase : Code.stackBase.Reads layout (stackBaseText layout) := by
  refine .ofTerm term_stackBase rfl ?_
  rw [tree, stackBaseTree]
  split <;> trivial

/-- A slot reads as its tree. -/
theorem reads_slot (place : SlotPlace) : (Code.slot place).Reads layout (slotText place) := by
  refine .ofTerm (term_slot place) rfl ?_
  rw [tree, slotTree]
  split <;> trivial

/-- An indirect call reads as its tree if its target and arguments do. -/
theorem reads_callIndirect {target : Code} {args : List Code} {text : String} {texts : List String}
    (h : target.Reads layout text)
    (hargs : List.Forall₂ (Printed Enclosed) texts (trees .merged layout args)) :
    (Code.callIndirect target args).Reads layout
      ("__function_table[" ++ text ++ "](" ++ Text.commaList texts ++ ")") := by
  have htable : IsIdentifier "__function_table" := by decide
  have hcall := (htable.printed.index h.enclosed).call hargs
  have htext : "__function_table" ++ "[" ++ text ++ "]" ++ "(" ++ Text.commaList texts ++ ")" =
      "__function_table[" ++ text ++ "](" ++ Text.commaList texts ++ ")" :=
    String.toList_injective (by simp)
  rw [htext] at hcall
  exact .ofTerm ⟨hcall.operand, detached_word (c := '_') (by simp) (by decide)⟩ rfl trivial

/-- An access to memory reads as its tree if its address does. -/
theorem reads_deref {address : Code} {text : String} (h : address.Reads layout text)
    (arg : MemArg) (ty : Ty) :
    (Code.deref address arg ty).Reads layout
      (derefText (address.asOperand layout text) arg ty) :=
  .ofTerm (term_deref h.asOperand h.asOperand_zero arg ty) rfl trivial

/-- Arguments read as their trees, each by itself, if every one of them does. -/
theorem renderArgs_reads {nodes : List Code}
    (h : ∀ c ∈ nodes, Gives (fun r => c.Reads layout r.text) (render layout c)) :
    Gives (fun texts => List.Forall₂ (Printed Enclosed) texts (trees .merged layout nodes))
      (renderArgs layout nodes) := by
  induction nodes with
  | nil => exact .pure .nil
  | cons node rest ih =>
    refine (h node (.head _)).bind fun _ hr => ?_
    refine (ih fun c hc => h c (.tail _ hc)).bind fun _ htexts => ?_
    exact .pure (.cons hr.enclosed htexts)

/-- An expression is read as what it applies to what, two exceptions apart. -/
theorem reads_render {node : Code} (h : node.Every IsReadable) :
    Gives (fun r => node.Reads layout r.text) (render layout node) := by
  induction h with
  | @node node own children ih =>
  cases node with
  | param index => exact .pure (.ofTerm (Spelling.isIdentifier_paramName index).term rfl trivial)
  | localVar index => exact .pure (.ofTerm (Spelling.isIdentifier_localName index).term rfl trivial)
  | globalVar name => exact .pure (.ofTerm (IsIdentifier.term own) rfl trivial)
  | slot place => exact .pure (reads_slot place)
  | stackBase => exact .pure reads_stackBase
  | stackAddress offset => exact .pure (reads_stackAddress offset)
  | stackPointer => exact .pure (.ofTerm (IsIdentifier.term (by decide)) rfl trivial)
  | deref address arg ty =>
    exact (ih address (.head _)).bind fun _ ha => .pure (reads_deref ha arg ty)
  | assign target value =>
    refine (ih target (.head _)).bind fun _ ht => ?_
    refine (ih value (.tail _ (.head _))).bind fun _ hv => .pure ?_
    exact .ofCompound rfl rfl (ht.enclosed.assign hv.enclosed)
  | call name args =>
    refine (renderArgs_reads ih).bind fun _ htexts => .pure ?_
    exact .ofTerm (IsIdentifier.call own htexts) rfl trivial
  | callIndirect target args =>
    refine (ih target (.head _)).bind fun _ ht => ?_
    refine (renderArgs_reads fun c hc => ih c (.tail _ hc)).bind fun _ htexts => .pure ?_
    exact reads_callIndirect ht htexts
  | const value text =>
    cases text with
    | none => exact .pure (reads_number value)
    | some text => exact .pure (reads_comment (own text rfl))
  | unary op value =>
    exact (ih value (.head _)).bind fun _ hv => .pure (reads_unary hv)
  | binary op left right =>
    refine (ih left (.head _)).bind fun _ hl => ?_
    refine (ih right (.tail _ (.head _))).bind fun _ hr => ?_
    have hreads : (Code.binary op left right).Reads layout _ := reads_binary hl hr
    split at hreads
    next hcall => rw [if_pos hcall]; exact .pure hreads
    next hcall => rw [if_neg hcall]; exact .pure hreads
  | select condition ifTrue ifFalse =>
    refine (ih condition (.head _)).bind fun _ hc => ?_
    refine (ih ifTrue (.tail _ (.head _))).bind fun _ ht => ?_
    refine (ih ifFalse (.tail _ (.tail _ (.head _)))).bind fun _ he => .pure ?_
    exact .ofCompound rfl rfl (hc.asOperand.conditional ht.asOperand he.asOperand)
  | _ => cases own

/-- The text of an expression is C, and C reads in it what the expression applies to what, two
exceptions apart. -/
theorem parse_render {node : Code} (h : node.Every IsReadable) (uses : LabelUses) :
    parse? (tokens ((render layout node).run uses).1.text) = some (node.tree .merged layout) :=
  (reads_render h uses).enclosed.parse_eq

end Code

end WasmLift
