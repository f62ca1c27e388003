import WasmLift.Proofs.Propagation.Writing

/-!
# Points of a function while it is written and run

The walk over an unoptimized function goes through it once, from top to bottom, while an execution
goes its own way. A `Point` is a state of both: what the walk has recorded when it comes to a node,
and the world in which an execution comes to that node. `Reaches` says which points belong to a
body. What a node of pseudocode is worth at a point is its `value`; it depends on what the names on
the page stand for, a `Page`.
-/

namespace WasmLift

/-! ## What pseudocode is worth -/

/-- The value plus a number, if it is an integer. -/
def Value.plus : Value → Int → Value
  | .i32 word, k => .i32 (word + BitVec.ofInt 32 k)
  | .i64 word, k => .i64 (word + BitVec.ofInt 64 k)
  | v, _ => v

namespace Code

/-- The variables that a node without effects reads. -/
def localVars : Code → List Nat
  | .localVar index => [index]
  | .deref address _ _ => address.localVars
  | .unary _ value => value.localVars
  | .binary _ left right => left.localVars ++ right.localVars
  | .select condition ifTrue ifFalse =>
    condition.localVars ++ ifTrue.localVars ++ ifFalse.localVars
  | _ => []

/-- The node reads neither the memory nor a named global. -/
def isSettled : Code → Bool
  | .globalVar _ | .slot _ | .deref _ _ _ | .memorySize => false
  | .unary _ value => value.isSettled
  | .binary _ left right => left.isSettled && right.isSettled
  | .select condition ifTrue ifFalse =>
    condition.isSettled && ifTrue.isSettled && ifFalse.isSettled
  | _ => true

end Code

namespace Framed

/-- What the names on the page stand for: the frame base, the bytes of the memory that a stack slot
is, and the globals. -/
structure Page (h : Host) where
  base : Value
  slot : SlotPlace → h.Memory → Option Value
  global : String → Nat

variable {h : Host}

/-- The value of a node in a world, if it has one and can be computed. -/
def value (s : Surroundings) (page : Page h) (w : World h) : Code → Option Value
  | .param index => if index < s.function.params.length then some (w.locals index) else none
  | .localVar index => some (w.locals index)
  | .globalVar name => some (w.store.globals (page.global name))
  | .slot place => page.slot place w.store.memory
  | .stackBase => some page.base
  | .stackAddress offset => some (page.base.plus offset)
  | .stackPointer => s.stackPointer.map w.store.globals
  | .deref address arg ty => do
    let a ← value s page w address
    (h.load arg ty a w.store.memory).toOption
  | .const v _ => some v
  | .unary op operand => do
    let v ← value s page w operand
    (h.unary op v).toOption
  | .binary op left right => do
    let l ← value s page w left
    let r ← value s page w right
    (h.binary op l r).toOption
  | .select condition ifTrue ifFalse => do
    let t ← value s page w ifTrue
    let e ← value s page w ifFalse
    let c ← value s page w condition
    return if c.holds then t else e
  | .memorySize => some (h.memorySize w.store.memory)
  | _ => none

/-- What a node reads, other than variables, is the same in two worlds. -/
def Kept (s : Surroundings) (page : Page h) (w w' : World h) : Code → Prop
  | .param index => index < s.function.params.length → w.locals index = w'.locals index
  | .globalVar name => w.store.globals (page.global name) = w'.store.globals (page.global name)
  | .slot place => page.slot place w.store.memory = page.slot place w'.store.memory
  | .stackPointer => ∀ i, s.stackPointer = some i → w.store.globals i = w'.store.globals i
  | .deref address arg ty =>
    Kept s page w w' address ∧ ∀ a, value s page w address = some a →
      h.load arg ty a w.store.memory = h.load arg ty a w'.store.memory
  | .unary _ operand => Kept s page w w' operand
  | .binary _ left right => Kept s page w w' left ∧ Kept s page w w' right
  | .select condition ifTrue ifFalse =>
    Kept s page w w' condition ∧ Kept s page w w' ifTrue ∧ Kept s page w w' ifFalse
  | .memorySize => h.memorySize w.store.memory = h.memorySize w'.store.memory
  | _ => True

section
variable {s : Surroundings} {page : Page h} {w w' : World h}

/-- A node is worth the same in two worlds that share what it reads. -/
theorem Kept.value_eq : ∀ {c : Code}, Kept s page w w' c →
    (∀ i ∈ c.localVars, w.locals i = w'.locals i) → value s page w c = value s page w' c
  | .param i, hc, _ => by
    simp only [value]
    split
    · next hi => rw [hc hi]
    · rfl
  | .localVar i, _, hvars => by simp [value, hvars i (by simp [Code.localVars])]
  | .globalVar _, hc, _ => congrArg some hc
  | .slot _, hc, _ => hc
  | .memorySize, hc, _ => congrArg some hc
  | .stackPointer, hc, _ => by
    cases hsp : s.stackPointer with
    | none => simp [value, hsp]
    | some i => simp [value, hsp, hc i hsp]
  | .deref address arg ty, ⟨haddress, hload⟩, hvars => by
    rw [value, value, ← haddress.value_eq hvars]
    cases ha : value s page w address with
    | none => rfl
    | some a => simp [hload a ha]
  | .unary op operand, hc, hvars => by
    have hoperand : Kept s page w w' operand := hc
    rw [value, value, hoperand.value_eq hvars]
  | .binary op left right, ⟨hleft, hright⟩, hvars => by
    simp only [Code.localVars, List.mem_append] at hvars
    rw [value, value, hleft.value_eq fun i hi => hvars i (.inl hi),
      hright.value_eq fun i hi => hvars i (.inr hi)]
  | .select condition ifTrue ifFalse, ⟨hcondition, htrue, hfalse⟩, hvars => by
    simp only [Code.localVars, List.mem_append] at hvars
    rw [value, value, hcondition.value_eq fun i hi => hvars i (.inl (.inl hi)),
      htrue.value_eq fun i hi => hvars i (.inl (.inr hi)),
      hfalse.value_eq fun i hi => hvars i (.inr hi)]
  | .stackBase, _, _ | .stackAddress _, _, _ | .const _ _, _, _ | .assign _ _, _, _
  | .call _ _, _, _ | .callIndirect _ _, _, _ | .ret _, _, _ | .nop, _, _ | .unreachable, _, _
  | .block _ _, _, _ | .ite _ _ _ _, _, _ | .loop _ _, _, _ | .br _ _ _, _, _
  | .switch _ _ _ _, _, _ | .memoryGrow _, _, _ | .memoryCopy _ _ _, _, _
  | .memoryFill _ _ _, _, _ => rfl

variable (s w w') in
/-- The worlds have the parameters and the stack pointer in common. -/
structure SameInputs : Prop where
  params : ∀ i, i < s.function.params.length → w.locals i = w'.locals i
  pointer : ∀ i, s.stackPointer = some i → w.store.globals i = w'.store.globals i

/-- Worlds with the same inputs are so either way round. -/
theorem SameInputs.symm (hw : SameInputs s w w') : SameInputs s w' w :=
  ⟨fun i hi => (hw.params i hi).symm, fun i hi => (hw.pointer i hi).symm⟩

/-- Worlds with the same inputs as a third have the same inputs. -/
theorem SameInputs.trans {w'' : World h} (hw : SameInputs s w w') (hw' : SameInputs s w' w'') :
    SameInputs s w w'' :=
  ⟨fun i hi => (hw.params i hi).trans (hw'.params i hi),
    fun i hi => (hw.pointer i hi).trans (hw'.pointer i hi)⟩

/-- A node reads parameters and the stack pointer, unless it reads something else in the store. -/
theorem SameInputs.kept (hw : SameInputs s w w') :
    ∀ {c : Code}, c.isSettled = true ∨ w.store = w'.store → Kept s page w w' c
  | .param i, _ => hw.params i
  | .stackPointer, _ => hw.pointer
  | .globalVar _, hstore | .slot _, hstore | .memorySize, hstore => by
    rcases hstore with hsettled | hstore
    · cases hsettled
    · simp [Kept, hstore]
  | .deref address arg ty, hstore => by
    rcases hstore with hsettled | hstore
    · cases hsettled
    · exact ⟨hw.kept (.inr hstore), by simp [hstore]⟩
  | .unary op operand, hstore => hw.kept (c := operand) hstore
  | .binary op left right, hstore => by
    simp only [Code.isSettled, Bool.and_eq_true] at hstore
    exact ⟨hw.kept (hstore.imp_left And.left), hw.kept (hstore.imp_left And.right)⟩
  | .select condition ifTrue ifFalse, hstore => by
    simp only [Code.isSettled, Bool.and_eq_true] at hstore
    exact ⟨hw.kept (hstore.imp_left fun hs => hs.1.1), hw.kept (hstore.imp_left fun hs => hs.1.2),
      hw.kept (hstore.imp_left And.right)⟩
  | .localVar _, _ | .stackBase, _ | .stackAddress _, _ | .const _ _, _ | .assign _ _, _
  | .call _ _, _ | .callIndirect _ _, _ | .ret _, _ | .nop, _ | .unreachable, _
  | .block _ _, _ | .ite _ _ _ _, _ | .loop _ _, _ | .br _ _ _, _
  | .switch _ _ _ _, _ | .memoryGrow _, _ | .memoryCopy _ _ _, _
  | .memoryFill _ _ _, _ => trivial

end

/-! ## What the walk has recorded -/

/-- What the walk knows of a local: `some none` if it is a variable, `some (some c)` if `c` is
recorded for it. -/
def known? (s : Surroundings) (st : FrameState) (index : Nat) : Option (Option Code) :=
  if index ∈ st.plain then some none
  else (st.registers[index - s.function.params.length]?.join).map some

/-- Inserting a number adds it and no other. -/
theorem mem_insertSorted {n m : Nat} {ns : List Nat} : m ∈ insertSorted n ns ↔ m = n ∨ m ∈ ns := by
  induction ns with
  | nil => simp [insertSorted]
  | cons k rest ih =>
    unfold insertSorted
    split
    · simp
    · split
      · next hk => simp [hk]
      · simp only [List.mem_cons, ih]
        exact or_left_comm

section
variable {s : Surroundings} {st st' : FrameState} {index : Nat}

/-- A parameter is written as itself. -/
theorem localGet_param (hindex : index < s.function.params.length) :
    localGet s index st = (.ok (.param index), st) := by
  simp [localGet, hindex]
  rfl

/-- A local with a register has the one behind the parameters. -/
theorem register_eq (hslot : index - s.function.params.length < st.registers.length) :
    register s index st = (.ok (index - s.function.params.length), st) := by
  have hget : (get : Step FrameState) st = (.ok st, st) := rfl
  rw [register, bind_of_ok hget, if_pos hslot]
  rfl

/-- A local that the function has not stops the walk. -/
theorem register_error (hslot : ¬ index - s.function.params.length < st.registers.length) :
    register s index st = (.error (.malformed (.localIndex index)), st) := by
  have hget : (get : Step FrameState) st = (.ok st, st) := rfl
  rw [register, bind_of_ok hget, if_neg hslot]
  rfl

/-- A register that is found is there. -/
theorem register_ok {slot : Nat} (hslot : register s index st = (.ok slot, st')) :
    index - s.function.params.length < st.registers.length := by
  refine Decidable.byContradiction fun hnot => ?_
  rw [register_error hnot] at hslot
  cases hslot

/-- A local that is read has a register. -/
theorem localGet_slot {c : Code} (hindex : s.function.params.length ≤ index)
    (hget : localGet s index st = (.ok c, st')) :
    index - s.function.params.length < st.registers.length := by
  rw [localGet, if_neg (Nat.not_lt.2 hindex)] at hget
  obtain ⟨slot, st₁, hregister, -⟩ := bind_ok hget
  exact register_ok hregister

/-- A local that is assigned has a register. -/
theorem localSet_slot {c d : Code} {tee : Bool} (hindex : s.function.params.length ≤ index)
    (hset : localSet s index c tee st = (.ok d, st')) :
    index - s.function.params.length < st.registers.length := by
  rw [localSet, if_neg (Nat.not_lt.2 hindex)] at hset
  obtain ⟨slot, st₁, hregister, -⟩ := bind_ok hset
  exact register_ok hregister

/-- A use of a local that the function has. -/
theorem localGet_eq (hindex : s.function.params.length ≤ index)
    (hslot : index - s.function.params.length < st.registers.length) :
    localGet s index st =
      match known? s st index with
      | some none => (.ok (.localVar index), st)
      | some (some c) => (.ok c, st)
      | none => (.ok (.localVar index), { st with plain := insertSorted index st.plain }) := by
  have hget : (get : Step FrameState) st = (.ok st, st) := rfl
  rw [localGet, if_neg (Nat.not_lt.2 hindex), bind_of_ok (register_eq hslot), bind_of_ok hget,
    known?]
  by_cases hplain : index ∈ st.plain
  · rw [if_pos hplain, if_pos (List.contains_iff_mem.2 hplain)]
    rfl
  · rw [if_neg hplain, if_neg (mt List.contains_iff_mem.1 hplain)]
    rcases st.registers[index - s.function.params.length]? with _ | _ | c <;> rfl

/-- An assignment to a local that the function has. -/
theorem localSet_eq (hindex : s.function.params.length ≤ index)
    (hslot : index - s.function.params.length < st.registers.length) (c : Code) (tee : Bool) :
    localSet s index c tee st =
      if index ∈ st.plain ∨ c.hasEffects = true then
        (.ok (.assign (.localVar index) c),
          { st with
            plain := insertSorted index st.plain
            registers := st.registers.set (index - s.function.params.length) none })
      else
        (.ok (if tee then c else .nop),
          { st with
            registers := st.registers.set (index - s.function.params.length) (some c) }) := by
  have hget : (get : Step FrameState) st = (.ok st, st) := rfl
  rw [localSet, if_neg (Nat.not_lt.2 hindex), bind_of_ok (register_eq hslot), bind_of_ok hget]
  by_cases hplain : index ∈ st.plain ∨ c.hasEffects = true
  · rw [if_pos hplain, if_pos (by simpa [List.contains_iff_mem] using hplain)]
    rfl
  · rw [if_neg hplain, if_neg (by simpa [List.contains_iff_mem] using hplain)]
    rfl

/-- What is known of one local is not changed where another is written. -/
theorem known?_of_ne {registers : List (Option Code)} {plain : List Nat} {i : Nat}
    (hindex : s.function.params.length ≤ index) (hi : s.function.params.length ≤ i)
    (hne : i ≠ index) (hplain : plain = st.plain ∨ plain = insertSorted index st.plain)
    (hregisters : registers = st.registers ∨
      ∃ c, registers = st.registers.set (index - s.function.params.length) c) :
    known? s { st with registers := registers, plain := plain } i = known? s st i := by
  have hslot : index - s.function.params.length ≠ i - s.function.params.length := by omega
  have hmem : i ∈ plain ↔ i ∈ st.plain := by
    rcases hplain with rfl | rfl
    · rfl
    · simp [mem_insertSorted, hne]
  rcases hregisters with rfl | ⟨c, rfl⟩
  · simp only [known?, hmem]
  · simp only [known?, hmem, List.getElem?_set_ne hslot]

/-- A use of a local leaves alone what is known. -/
theorem localGet_keepsEntry {i : Nat} {known : Option Code} (hi : s.function.params.length ≤ i) :
    Keeps (fun st => known? s st i = some known) (localGet s index) := by
  intro st hst
  by_cases hindex : index < s.function.params.length
  · rw [localGet_param hindex]
    exact hst
  · rw [Nat.not_lt] at hindex
    by_cases hslot : index - s.function.params.length < st.registers.length
    · rw [localGet_eq hindex hslot]
      split
      · exact hst
      · exact hst
      · next hnone =>
        have hne : i ≠ index := by
          rintro rfl
          rw [hst] at hnone
          cases hnone
        exact (known?_of_ne hindex hi hne (.inr rfl) (.inl rfl)).trans hst
    · rw [localGet, if_neg (Nat.not_lt.2 hindex), bind_of_error (register_error hslot)]
      exact hst

/-- An assignment to another local leaves alone what is known. -/
theorem localSet_keepsEntry {i : Nat} {known : Option Code} (hi : s.function.params.length ≤ i)
    (hne : i ≠ index) (c : Code) (tee : Bool) :
    Keeps (fun st => known? s st i = some known) (localSet s index c tee) := by
  intro st hst
  by_cases hindex : index < s.function.params.length
  · rw [localSet, if_pos hindex]
    exact hst
  · rw [Nat.not_lt] at hindex
    by_cases hslot : index - s.function.params.length < st.registers.length
    · rw [localSet_eq hindex hslot]
      split
      · exact (known?_of_ne hindex hi hne (.inr rfl) (.inr ⟨_, rfl⟩)).trans hst
      · exact (known?_of_ne hindex hi hne (.inl rfl) (.inr ⟨_, rfl⟩)).trans hst
    · rw [localSet, if_neg (Nat.not_lt.2 hindex), bind_of_error (register_error hslot)]
      exact hst

/-- A use of a local of which something is known: the variable, or what is recorded. -/
theorem localGet_known {c : Code} {known : Option Code}
    (hindex : s.function.params.length ≤ index) (hknown : known? s st index = some known)
    (hget : localGet s index st = (.ok c, st')) : c = known.getD (.localVar index) ∧ st' = st := by
  rw [localGet_eq hindex (localGet_slot hindex hget), hknown] at hget
  cases known with
  | none =>
    cases hget
    exact ⟨rfl, rfl⟩
  | some c =>
    cases hget
    exact ⟨rfl, rfl⟩

/-- An assignment either makes the local a variable, or records a value without effects for it. -/
theorem localSet_ok {c d : Code} {tee : Bool} (hindex : s.function.params.length ≤ index)
    (hset : localSet s index c tee st = (.ok d, st')) :
    (known? s st' index = some none ∧ d = .assign (.localVar index) c) ∨
      (c.hasEffects = false ∧ known? s st' index = some (some c) ∧
        d = if tee then c else .nop) := by
  have hslot := localSet_slot hindex hset
  rw [localSet_eq hindex hslot] at hset
  split at hset
  · cases hset
    refine .inl ⟨?_, rfl⟩
    simp [known?, mem_insertSorted]
  · next hneither =>
    rw [not_or, Bool.not_eq_true] at hneither
    cases hset
    refine .inr ⟨hneither.2, ?_, rfl⟩
    simp [known?, hneither.1, List.getElem?_set_self hslot]

end

/-! ## Points and the way to them -/

/-- What the walk has recorded and the world of an execution, at the same node. -/
structure Point (h : Host) where
  state : FrameState
  world : World h

section
variable (s : Surroundings) (resolve : NameId → Nat) (bound : Nat)

/-- Writes a node of the function. -/
abbrev write (e : Expr) : Step Code :=
  Walk.expr s.program (dialect s) e

/-- Writes nodes of the function, one after the other. -/
abbrev writeAll (es : List Expr) : Step (List Code) :=
  Walk.exprs s.program (dialect s) es

/-- From one point to the other, the walk writes a node as `c` and the execution runs it to its end,
with the value `v` if it has one. -/
structure Passes (e : Expr) (a : Point h) (c : Code) (v : Option Value) (b : Point h) : Prop where
  written : write s e a.state = (.ok c, b.state)
  run : e.eval h resolve bound a.world = (.ok v, b.world)

/-- The way from a point before some nodes to a point before one of them or of the nodes below. The
walk goes through both arms of a conditional and once through a loop; an execution takes one arm and
may restart a loop. -/
inductive Reaches : List Expr → Point h → Expr → Point h → Prop where
  | here {e : Expr} {rest : List Expr} {a : Point h} : Reaches (e :: rest) a e a
  | later {e x : Expr} {rest : List Expr} {a b z : Point h} {c : Code} {v : Option Value}
      (hpass : Passes s resolve bound e a c v b) (hrest : Reaches rest b x z) :
      Reaches (e :: rest) a x z
  | operand {e x : Expr} {rest : List Expr} {a z : Point h} (he : e.isSimple = true)
      (hchildren : Reaches e.children a x z) : Reaches (e :: rest) a x z
  | block {label : Option Label} {children rest : List Expr} {ty : Ty} {x : Expr} {a z : Point h}
      (hchildren : Reaches children a x z) : Reaches (.block label children ty :: rest) a x z
  | condition {condition ifTrue x : Expr} {ifFalse : Option Expr} {ty : Ty} {rest : List Expr}
      {a z : Point h} (hcondition : Reaches [condition] a x z) :
      Reaches (.ite condition ifTrue ifFalse ty :: rest) a x z
  | ifTrue {condition ifTrue x : Expr} {ifFalse : Option Expr} {ty : Ty} {rest : List Expr}
      {a b z : Point h} {c : Code} {v : Value}
      (hpass : Passes s resolve bound condition a c (some v) b) (hv : v.holds = true)
      (harm : Reaches [ifTrue] b x z) : Reaches (.ite condition ifTrue ifFalse ty :: rest) a x z
  | ifFalse {condition ifTrue x : Expr} {ifFalse : Option Expr} {ty : Ty} {rest : List Expr}
      {a b z : Point h} {c t : Code} {v : Value} {st : FrameState}
      (hpass : Passes s resolve bound condition a c (some v) b) (hv : v.holds = false)
      (hskip : write s ifTrue b.state = (.ok t, st))
      (harm : Reaches ifFalse.toList ⟨st, b.world⟩ x z) :
      Reaches (.ite condition ifTrue ifFalse ty :: rest) a x z
  | body {label : Option Label} {body x : Expr} {ty : Ty} {rest : List Expr} {a z : Point h}
      (hbody : Reaches [body] a x z) : Reaches (.loop label body ty :: rest) a x z
  | again {label : Label} {body x : Expr} {ty : Ty} {rest : List Expr} {a z : Point h}
      {v : Option Value} {w : World h}
      (hjump : body.eval h resolve bound a.world = (.error (.jump label v), w))
      (hloop : Reaches (.loop (some label) body ty :: rest) ⟨a.state, w⟩ x z) :
      Reaches (.loop (some label) body ty :: rest) a x z

end

/-! ## Along the way to a point -/

section
variable {s : Surroundings} {resolve : NameId → Nat} {bound : Nat} {es : List Expr} {x : Expr}
  {p z : Point h}

/-- What holds of all nodes of a body holds of the nodes that a way comes to. -/
theorem Reaches.all (hreach : Reaches s resolve bound es p x z) {Q : Expr → Prop}
    (hes : ∀ e ∈ es, e.All Q) : x.All Q := by
  induction hreach with
  | here => exact hes _ (.head _)
  | later _ _ ih => exact ih fun e he => hes e (.tail _ he)
  | operand _ _ ih => exact ih fun c hc => (hes _ (.head _)).child hc
  | block _ ih => exact ih fun c hc => (hes _ (.head _)).child hc
  | condition _ ih => exact ih fun c hc => (hes _ (.head _)).child (by simp_all [Expr.children])
  | ifTrue _ _ _ ih => exact ih fun c hc => (hes _ (.head _)).child (by simp_all [Expr.children])
  | ifFalse _ _ _ _ ih =>
    exact ih fun c hc => (hes _ (.head _)).child (by simp_all [Expr.children])
  | body _ ih => exact ih fun c hc => (hes _ (.head _)).child (by simp_all [Expr.children])
  | again _ _ ih => exact ih hes

/-- What holds of the first point holds of all points on the way, if every node keeps it true that
is written and run to its end, that is only written, or that a run leaves by a branch. -/
theorem Reaches.preserves (hreach : Reaches s resolve bound es p x z) {Q : Expr → Prop}
    {P : Point h → Prop} (hes : ∀ e ∈ es, e.All Q)
    (hpass : ∀ e, e.All Q → ∀ p c v q, P p → Passes s resolve bound e p c v q → P q)
    (hskip : ∀ e, e.All Q → ∀ p c st, P p → write s e p.state = (.ok c, st) → P ⟨st, p.world⟩)
    (hjump : ∀ e : Expr, e.All Q → ∀ p label v w, P p →
      e.eval h resolve bound p.world = (.error (.jump label v), w) → P ⟨p.state, w⟩)
    (hp : P p) : P z := by
  induction hreach with
  | here => exact hp
  | later hfirst _ ih =>
    exact ih (fun e he => hes e (.tail _ he)) (hpass _ (hes _ (.head _)) _ _ _ _ hp hfirst)
  | operand _ _ ih | block _ ih => exact ih (fun c hc => (hes _ (.head _)).child hc) hp
  | condition _ ih | body _ ih =>
    exact ih (fun c hc => (hes _ (.head _)).child (by simp_all [Expr.children])) hp
  | ifTrue hcondition _ _ ih =>
    have hq := hpass _ ((hes _ (.head _)).child (.head _)) _ _ _ _ hp hcondition
    exact ih (fun c hc => (hes _ (.head _)).child (by simp_all [Expr.children])) hq
  | ifFalse hcondition _ hskipped _ ih =>
    have hq := hpass _ ((hes _ (.head _)).child (.head _)) _ _ _ _ hp hcondition
    have hst := hskip _ ((hes _ (.head _)).child (.tail _ (.head _))) _ _ _ hq hskipped
    exact ih (fun c hc => (hes _ (.head _)).child (by simp_all [Expr.children])) hst
  | again hleft _ ih =>
    exact ih hes (hjump _ ((hes _ (.head _)).child (.head _)) _ _ _ _ hp hleft)

/-- A point of the first of some nodes is a point of them all. -/
theorem Reaches.weaken {e : Expr} {rest : List Expr} (hreach : Reaches s resolve bound es p x z)
    (hes : es = [e]) : Reaches s resolve bound (e :: rest) p x z := by
  induction hreach with
  | here =>
    cases hes
    exact .here
  | later _ hrest =>
    cases hes
    cases hrest
  | operand he hchildren =>
    cases hes
    exact .operand he hchildren
  | block hchildren =>
    cases hes
    exact .block hchildren
  | condition hcondition =>
    cases hes
    exact .condition hcondition
  | ifTrue hpass hv harm =>
    cases hes
    exact .ifTrue hpass hv harm
  | ifFalse hpass hv hskip harm =>
    cases hes
    exact .ifFalse hpass hv hskip harm
  | body hbody =>
    cases hes
    exact .body hbody
  | again hjump _ ih =>
    cases hes
    exact .again hjump (ih rfl)

end

end Framed

end WasmLift
