import WasmLift.Proofs.Module.Sections

/-!
# Constant expressions

A constant expression is a small program: constants and globals are pushed, sums, differences and
products are taken, and the one value that is left at the end is that of the expression
(`Constant.value?`). A module records for each of its globals, and for the offset of each active
segment, what the first operator pushes. For an expression of one operator that is its value, and an
operator that pushes nothing is refused (`Init.ofConstExpr_cases`); what follows the first operator
is not looked at (`Module.decode_constants`, `Module.decode_constants_sum`).
-/

namespace WasmLift

open Binary
open Binary.Reader

/-! ## Values of constant expressions -/

/-- The value an initial value stands for, given those of the globals. -/
def Init.valueIn (globals : Nat → Value) : Init → Value
  | .value v => v
  | .globalGet index => globals index

namespace Constant

/-- The operations on words that a constant expression may use. -/
def arith? {n : Nat} : IntArith → BitVec n → BitVec n → Option (BitVec n)
  | .add, a, b => some (a + b)
  | .sub, a, b => some (a - b)
  | .mul, a, b => some (a * b)
  | _, _, _ => none

/-- The result of an operation on two values. -/
def binary? : BinOp → Value → Value → Option Value
  | .int .w32 op, .i32 a, .i32 b => (arith? op a b).map .i32
  | .int .w64 op, .i64 a, .i64 b => (arith? op a b).map .i64
  | _, _, _ => none

/-- The stack after an operator, latest value first. -/
def step? (globals : Nat → Value) : Operator → List Value → Option (List Value)
  | .const v, stack => some (v :: stack)
  | .globalGet index, stack => some (globals index :: stack)
  | .binary op, right :: left :: stack => (binary? op left right).map (· :: stack)
  | _, _ => none

/-- The value that operators up to an `end` leave alone on the stack. -/
def run? (globals : Nat → Value) : List Operator → List Value → Option Value
  | [], _ => none
  | .finish :: _, [v] => some v
  | op :: rest, stack => (step? globals op stack).bind (run? globals rest)

/-- The value of a constant expression. -/
def value? (globals : Nat → Value) (expr : List Operator) : Option Value :=
  run? globals expr []

end Constant

open Constant in
/-- A constant expression is read as what its first operator stands for, or refused if that stands
for nothing by itself. -/
theorem Init.ofConstExpr_cases (op : Operator) (rest : List Operator) :
    (∃ init, Init.ofConstExpr (op :: rest) = .ok init ∧
      ∀ globals, value? globals [op, .finish] = some (init.valueIn globals)) ∨
    (Init.ofConstExpr (op :: rest) = .error (.unsupported (.inConstant op)) ∧
      ∀ globals, value? globals [op, .finish] = none) := by
  cases op with
  | const v => exact .inl ⟨.value v, rfl, fun _ => rfl⟩
  | globalGet i => exact .inl ⟨.globalGet i, rfl, fun _ => rfl⟩
  | _ => exact .inr ⟨rfl, fun _ => rfl⟩

namespace Constant

/-- What is recorded for a constant expression: what its first operator stands for, which is the
value of the expression if there is no other operator before its end. -/
structure ReadAs (expr : List Operator) (init : Init) : Prop where
  first : ∃ op rest, expr = op :: rest ∧
    ∀ globals, value? globals [op, .finish] = some (init.valueIn globals)
  whole : ∀ op, expr = [op, .finish] → ∀ globals, value? globals expr = some (init.valueIn globals)

theorem readAs_of_ok {expr : List Operator} {init : Init} (h : Init.ofConstExpr expr = .ok init) :
    ReadAs expr init := by
  cases expr with
  | nil => cases h
  | cons op rest =>
    obtain ⟨found, hok, hvalue⟩ | ⟨herror, -⟩ := Init.ofConstExpr_cases op rest
    · cases hok.symm.trans h
      refine ⟨⟨op, rest, rfl, hvalue⟩, fun op' hwhole => ?_⟩
      cases hwhole
      exact hvalue
    · cases herror.symm.trans h

end Constant

namespace Module

/-! ## The constant expressions of a module -/

/-- The constant expressions of a module: of its globals, and of the offsets of its active
segments. -/
structure Constants where
  globals : List (List Operator) := []
  elements : List (List Operator) := []
  segments : List (List Operator) := []

namespace Constants

/-- The constant expressions of two runs of entries, one after the other. -/
def append (x y : Constants) : Constants :=
  ⟨x.globals ++ y.globals, x.elements ++ y.elements, x.segments ++ y.segments⟩

@[simp] theorem append_empty (x : Constants) : x.append {} = x := by
  simp [append]

@[simp] theorem empty_append (x : Constants) : append {} x = x := by
  simp [append]

theorem append_assoc (x y z : Constants) : (x.append y).append z = x.append (y.append z) := by
  simp [append]

/-- The constant expressions of a list of entries. -/
def join (parts : List Constants) : Constants :=
  parts.foldr append {}

/-- The constant expression of a global. -/
def ofGlobal (entry : (ValType × Bool) × List Operator) : Constants :=
  { globals := [entry.2] }

/-- The constant expression of the offset of an active element segment. -/
def ofElements (entry : ElementEntry) : Constants :=
  { elements := entry.placement.toList.map (·.2) }

/-- The constant expression of the offset of an active data segment. -/
def ofData (entry : DataEntry) : Constants :=
  { segments := entry.placement.toList.map (·.2) }

theorem flatMap_nil {α β : Type} (items : List α) : items.flatMap (fun _ => ([] : List β)) = [] :=
  List.flatMap_eq_nil_iff.2 fun _ _ => rfl

theorem join_map {α : Type} (f : α → Constants) (items : List α) : join (items.map f) =
    ⟨items.flatMap fun a => (f a).globals, items.flatMap fun a => (f a).elements,
      items.flatMap fun a => (f a).segments⟩ := by
  induction items with
  | nil => rfl
  | cons a items ih =>
    rw [List.map_cons, join, List.foldr_cons, ← join, ih]
    simp [append]

/-- The constant expressions of a section. -/
def ofSection? : Nat × List UInt8 → Option Constants
  | (6, content) => (whole (counted globalEntry) content).map fun es => join (es.map ofGlobal)
  | (9, content) => (whole (counted elementEntry) content).map fun es => join (es.map ofElements)
  | (11, content) => (whole (counted dataEntry) content).map fun es => join (es.map ofData)
  | _ => some {}

/-- The constant expressions of the sections of a module. -/
def ofBytes? (input : List UInt8) : Option Constants := do
  let parts ← (← sections? input).mapM ofSection?
  return join parts

end Constants

/-- The draft has recorded, in order, what each constant expression is read as. -/
structure Draft.Records (d : Draft) (x : Constants) : Prop where
  globals : List.Forall₂ (fun e g => Init.ofConstExpr e = .ok g.init) x.globals d.result.globals
  elements : List.Forall₂ (fun e s => Init.ofConstExpr e = .ok s.offset) x.elements
    d.result.elements
  segments : List.Forall₂ (fun e s => ∃ init, Init.ofConstExpr e = .ok init ∧
    dataAddress init = .ok s.offset) x.segments d.result.segments

theorem Draft.Records.same {d d' : Draft} {x : Constants} (h : d.Records x)
    (hglobals : d'.result.globals = d.result.globals)
    (helements : d'.result.elements = d.result.elements)
    (hsegments : d'.result.segments = d.result.segments) : d'.Records x := by
  refine ⟨?_, ?_, ?_⟩
  · rw [hglobals]
    exact h.globals
  · rw [helements]
    exact h.elements
  · rw [hsegments]
    exact h.segments

/-! ## One section -/

section
variable {d d' : Draft} {x : Constants}

/-- A section adds to the record what its constant expressions are read as. -/
theorem Draft.Adds.records {id : Nat} {content : List UInt8} (h : d.Adds id content d')
    (hd : d.Records x) :
    ∃ here, Constants.ofSection? (id, content) = some here ∧ d'.Records (x.append here) := by
  cases h with
  | @globals content entries _ read inits =>
    refine ⟨.join (entries.map .ofGlobal), by rw [Constants.ofSection?, read]; rfl, ?_⟩
    rw [Constants.join_map]
    rw [List.map_eq_flatMap] at inits
    refine ⟨List.rel_append hd.globals inits, ?_, ?_⟩
    · simpa [Constants.append, Constants.ofGlobal, Constants.flatMap_nil] using hd.elements
    · simpa [Constants.append, Constants.ofGlobal, Constants.flatMap_nil] using hd.segments
  | @elements content entries _ read offsets =>
    refine ⟨.join (entries.map .ofElements), by rw [Constants.ofSection?, read]; rfl, ?_⟩
    rw [Constants.join_map]
    refine ⟨?_, List.rel_append hd.elements offsets, ?_⟩
    · simpa [Constants.append, Constants.ofElements, Constants.flatMap_nil] using hd.globals
    · simpa [Constants.append, Constants.ofElements, Constants.flatMap_nil] using hd.segments
  | @segments content entries _ read addresses =>
    refine ⟨.join (entries.map .ofData), by rw [Constants.ofSection?, read]; rfl, ?_⟩
    rw [Constants.join_map]
    refine ⟨?_, ?_, List.rel_append hd.segments addresses⟩
    · simpa [Constants.append, Constants.ofData, Constants.flatMap_nil] using hd.globals
    · simpa [Constants.append, Constants.ofData, Constants.flatMap_nil] using hd.elements
  | other skips =>
    refine ⟨{}, ?_, by simpa using hd⟩
    unfold Constants.ofSection?
    split <;> first | rfl | simp_all
  | custom => exact ⟨{}, rfl, by simpa using hd⟩
  | names | types | imports | declarations | exports =>
    refine ⟨{}, rfl, ?_⟩
    rw [Constants.append_empty]
    exact hd.same rfl rfl rfl

/-! ## The whole module -/

/-- Sections one after the other add to the record what their constant expressions are read as. -/
theorem Draft.Records.reads {sections : List (Nat × List UInt8)} (hreads : Reads d sections d')
    (h : d.Records x) : ∃ parts, sections.mapM Constants.ofSection? = some parts ∧
      d'.Records (x.append (Constants.join parts)) := by
  induction hreads generalizing x with
  | nil d => exact ⟨[], rfl, by simpa [Constants.join] using h⟩
  | code hcode _ ih =>
    obtain ⟨-, functions, -, rfl⟩ := readCode_ok hcode
    obtain ⟨parts, hparts, hlast⟩ := ih (h.same rfl rfl rfl)
    refine ⟨{} :: parts, by simp [Constants.ofSection?, hparts], ?_⟩
    simpa [Constants.join] using hlast
  | other hone _ ih =>
    obtain ⟨here, hhere, hone⟩ := (adds_of_readSectionContent hone).records h
    obtain ⟨parts, hparts, hlast⟩ := ih hone
    refine ⟨here :: parts, by simp [hhere, hparts], ?_⟩
    simpa [Constants.join, Constants.append_assoc] using hlast

end

/-- The globals and the active segments of a decoded module are those of its bytes, in order. What
is recorded of each constant expression is what its first operator stands for by itself, and that is
the value of the expression if no other operator comes before its end. An expression whose first
operator stands for nothing is refused as unsupported. -/
theorem decode_constants {input : List UInt8} {m : Module} (h : (decode input).start.1 = .ok m) :
    (∀ op rest, (∀ globals, Constant.value? globals [op, .finish] = none) →
      Init.ofConstExpr (op :: rest) = .error (.unsupported (.inConstant op))) ∧
    ∃ x, Constants.ofBytes? input = some x ∧
      List.Forall₂ (fun e g => Constant.ReadAs e g.init) x.globals m.globals ∧
      List.Forall₂ (fun e s => Constant.ReadAs e s.offset) x.elements m.elements ∧
      List.Forall₂ (fun e s => ∃ init, Constant.ReadAs e init ∧ dataAddress init = .ok s.offset)
        x.segments m.segments := by
  obtain ⟨sections, d, hsections, hreads, rfl⟩ := reads_of_decode h
  have hempty : ({} : Draft).Records {} := ⟨.nil, .nil, .nil⟩
  obtain ⟨parts, hparts, hrecords⟩ := Draft.Records.reads hreads hempty
  rw [Constants.empty_append] at hrecords
  refine ⟨fun op rest hnone => ?_, Constants.join parts,
    by rw [Constants.ofBytes?, hsections]; simp [hparts],
    hrecords.globals.imp fun _ _ => Constant.readAs_of_ok,
    hrecords.elements.imp fun _ _ => Constant.readAs_of_ok, hrecords.segments.imp ?_⟩
  · obtain ⟨init, -, hvalue⟩ | ⟨herror, -⟩ := Init.ofConstExpr_cases op rest
    · cases (hvalue fun _ => .i32 0).symm.trans (hnone fun _ => .i32 0)
    · exact herror
  · rintro expr segment ⟨init, hinit, haddress⟩
    exact ⟨init, Constant.readAs_of_ok hinit, haddress⟩

/-- A module of one immutable global, with the operators of its constant expression in bytes. -/
def soleGlobal (expr : List UInt8) : List UInt8 :=
  [0x00, 0x61, 0x73, 0x6d, 1, 0, 0, 0] ++ [6, expr.length.toUInt8 + 3] ++ [1, 0x7f, 0] ++ expr

/-- The global is a constant. -/
theorem decode_constants_single :
    ∃ m x, (decode (soleGlobal [0x41, 5, 0x0b])).start.1 = .ok m ∧
      Constants.ofBytes? (soleGlobal [0x41, 5, 0x0b]) = some x ∧
      x.globals = [[.const (.i32 5), .finish]] ∧ m.globals = [⟨.i32, false, .value (.i32 5)⟩] ∧
      ∀ globals, Constant.value? globals [.const (.i32 5), .finish] = some (.i32 5) := by
  have hdecode : (decode (soleGlobal [0x41, 5, 0x0b])).start.1 =
      .ok { globals := [⟨.i32, false, .value (.i32 5)⟩] } := rfl
  obtain ⟨-, x, hx, hglobals, -⟩ := decode_constants hdecode
  cases hx.symm.trans (rfl : _ = some (⟨[[.const (.i32 5), .finish]], [], []⟩ : Constants))
  refine ⟨_, _, hdecode, rfl, rfl, rfl, ?_⟩
  cases hglobals with
  | cons hread _ => exact hread.whole (.const (.i32 5)) rfl

/-- The global is the sum of one and two, and one is recorded. -/
theorem decode_constants_sum :
    ∃ m x expr, (decode (soleGlobal [0x41, 1, 0x41, 2, 0x6a, 0x0b])).start.1 = .ok m ∧
      Constants.ofBytes? (soleGlobal [0x41, 1, 0x41, 2, 0x6a, 0x0b]) = some x ∧
      x.globals = [expr] ∧ (∀ globals, Constant.value? globals expr = some (.i32 3)) ∧
      m.globals = [⟨.i32, false, .value (.i32 1)⟩] :=
  ⟨{ globals := [⟨.i32, false, .value (.i32 1)⟩] },
    ⟨[[.const (.i32 1), .const (.i32 2), .binary (.int .w32 .add), .finish]], [], []⟩, _,
    rfl, rfl, rfl, fun _ => rfl, rfl⟩

end Module

end WasmLift
