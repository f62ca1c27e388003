import WasmLift.Proofs.Expansion.Steps
import WasmLift.Proofs.Listing.Completion

/-!
# The bodies of an expanded program

The loads and stores of the binary format touch one, two, four or eight bytes each
(`Binary.bodyOperators?_sized`). So the nodes of every body that is expanded from bytes are proper:
their operands are values, and their accesses are not empty (`Program.proper_of_mem`).
-/

namespace WasmLift

namespace Binary

namespace Reader

variable {α β : Type} {P : β → Prop}

/-- Whatever the reader gives has the property. -/
def Yields (P : α → Prop) (r : Reader α) : Prop :=
  ∀ input a rest, r input = some (a, rest) → P a

/-- A reader that gives a value yields what it is. -/
theorem Yields.pure {b : β} (hb : P b) : Yields P (pure b : Reader β) := by
  rintro input a rest h
  cases h
  exact hb

/-- A reader that fails yields anything. -/
theorem Yields.failure : Yields P (failure : Reader β) :=
  nofun

/-- A reader yields what the last of its steps does. -/
theorem Yields.bind {r : Reader α} {f : α → Reader β} (hf : ∀ a, Yields P (f a)) :
    Yields P (r >>= f) := by
  intro input b rest h
  change (r input).bind (fun q => f q.1 q.2) = _ at h
  obtain ⟨q, -, hq⟩ := Option.bind_eq_some_iff.1 h
  exact hf q.1 q.2 b rest hq

end Reader

open Reader

/-- A load or store touches at least one byte. -/
def Sized (op : Operator) : Prop :=
  ∀ n, op.accessBytes? = some n → 0 < n

/-- What is found in a table is an entry of it. -/
theorem known?_mem {α : Type} {table : List α} {first code : Nat} {a : α}
    (h : known? table first code = some a) : a ∈ table := by
  unfold known? at h
  split at h
  · exact List.mem_of_getElem? h
  · cases h

/-- Numeric operators access no memory. -/
theorem numericOperators_sized : ∀ op ∈ numericOperators, op.accessBytes? = none := by
  decide +kernel

/-- Operators that are not interpreted are sized. -/
theorem uninterpreted_sized (table : List (Nat × Form)) (code : Nat) :
    Yields Sized (uninterpreted table code) :=
  .bind fun _ => .bind fun _ => .pure nofun

/-- A load or store touches as many bytes as its shape. -/
theorem access_sized {shapes : List AccessShape} (hshapes : ∀ s ∈ shapes, 0 < s.bytes)
    {first code : Nat} {shape : AccessShape} (h : known? shapes first code = some shape)
    (operand : MemOperand) : Sized (.load shape operand) ∧ Sized (.store shape operand) := by
  have hpos := hshapes shape (known?_mem h)
  refine ⟨?_, ?_⟩ <;>
    · rintro n ⟨⟩
      exact hpos

/-- The operators behind the bulk prefix are sized. -/
theorem bulkOperator_sized : Yields Sized bulkOperator := by
  refine .bind fun code => ?_
  split
  · exact .pure nofun
  · split
    · exact .bind fun _ => .bind fun _ => .pure nofun
    · exact .bind fun _ => .pure nofun
    · exact uninterpreted_sized _ _

/-- The operators behind the atomic prefix are sized. -/
theorem atomicOperator_sized : Yields Sized atomicOperator := by
  refine .bind fun code => ?_
  split
  · next hshape => exact .bind fun operand => .pure (access_sized (by decide) hshape operand).1
  · split
    · next hshape => exact .bind fun operand => .pure (access_sized (by decide) hshape operand).2
    · exact uninterpreted_sized _ _

/-- The operators without a prefix are sized. -/
theorem plainOperator_sized (code : Nat) : Yields Sized (plainOperator code) := by
  unfold plainOperator
  split
  all_goals first
    | exact .pure nofun
    | exact .bind fun _ => .pure nofun
    | exact .bind fun _ => .bind fun _ => .pure nofun
    | exact .bind fun _ => .bind fun _ => .bind fun _ => .pure nofun
    | skip
  -- The codes without a case of their own are those of tables.
  split
  · next hshape => exact .bind fun operand => .pure (access_sized (by decide) hshape operand).1
  · split
    · next hshape => exact .bind fun operand => .pure (access_sized (by decide) hshape operand).2
    · split
      · next op hop =>
        refine .pure fun n hn => ?_
        rw [numericOperators_sized op (known?_mem hop)] at hn
        cases hn
      · exact uninterpreted_sized _ _

/-- Every operator that is read is sized. -/
theorem operator_sized : Yields Sized operator := by
  refine .bind fun code => ?_
  split
  · exact .bind fun code => uninterpreted_sized _ code
  · exact bulkOperator_sized
  · exact .bind fun code => uninterpreted_sized _ code
  · exact atomicOperator_sized
  · exact plainOperator_sized _

/-- Operators that are read one after the other are sized. -/
theorem operatorsFrom_sized {fuel : Nat} {input : List UInt8} {done ops : List Operator}
    (hdone : ∀ op ∈ done, Sized op) (h : operatorsFrom fuel input done = some ops) :
    ∀ op ∈ ops, Sized op := by
  fun_induction operatorsFrom fuel input done with
  | case1 fuel done =>
    cases h
    exact fun op hop => hdone op (List.mem_reverse.1 hop)
  | case2 => cases h
  | case3 fuel input done _ ih =>
    obtain ⟨⟨op, rest⟩, hop, hrest⟩ := Option.bind_eq_some_iff.1 h
    exact ih op rest (List.forall_mem_cons.2 ⟨operator_sized _ _ _ hop, hdone⟩) hrest

/-- The loads and stores of a body touch at least one byte. -/
theorem bodyOperators?_sized {input : List UInt8} {ops : List Operator}
    (h : bodyOperators? input = some ops) : ∀ op ∈ ops, Sized op :=
  operatorsFrom_sized (List.forall_mem_nil _) h

end Binary

namespace Program

/-- The nodes of a body that is expanded are proper. -/
theorem expandBody_proper {scope : Scope} {code : FunctionCode} {signature : Signature}
    {locals : List Ty} {body : Expr} (h : expandBody scope code signature = .ok (locals, body)) :
    body.All Expr.Proper := by
  obtain ⟨ops, declared, hops, -, hbody⟩ := expandBody_ok h
  exact Expr.ofOperators_proper (Binary.bodyOperators?_sized hops) hbody

/-- A function with an expanded body touches its own parameters and locals only. -/
theorem expandBody_inRange {scope : Scope} {code : FunctionCode} {signature : Signature}
    {locals : List Ty} {body : Expr} (h : expandBody scope code signature = .ok (locals, body))
    {f : Function} (hparams : f.params = signature.params) (hkind : f.kind = .defined locals body) :
    f.InRange := by
  obtain ⟨ops, declared, -, -, hops⟩ := expandBody_ok h
  intro body' hbody
  obtain rfl : body = body' := by simpa [Function.body?, hkind] using hbody
  simpa [Function.locals, hkind, hparams] using Expr.ofOperators_below hops

/-- A function that an expanded program defines has a body expanded from its code. -/
theorem Defines.expanded {scope : Scope}
    {entries : List (FunctionCode × FuncType × NameId × String)} {functions : List Function}
    (h : List.Forall₂ (Defines scope) entries functions) {f : Function} (hf : f ∈ functions) :
    ∃ code locals body, f.kind = .defined locals body ∧
      expandBody scope code ⟨f.params, f.result⟩ = .ok (locals, body) := by
  induction h with
  | nil => cases hf
  | cons hdefines _ ih =>
    cases hf with
    | head => exact ⟨_, hdefines.body⟩
    | tail _ hf => exact ih hf

/-- The body of a function of an expanded program is expanded from code. -/
theorem expanded_of_mem {m : Module} {p : Program} (hp : ofModule? m = .ok p) {f : Function}
    (hf : f ∈ p.functions) {body : Expr} (hbody : f.body? = some body) :
    ∃ scope code, f.kind = .defined f.locals body ∧
      expandBody scope code ⟨f.params, f.result⟩ = .ok (f.locals, body) := by
  obtain ⟨scope, imported, defined, hstages, hfunctions, -⟩ := stages_of_ofModule hp
  rcases List.mem_append.1 (hfunctions ▸ hf) with hf | hf
  · have himported := (importFunctions_ok hstages.imported).2 f hf
    cases hkind : f.kind <;> simp_all [Function.isImported, Function.body?]
  · obtain ⟨code, locals, body', hkind, hexpand⟩ :=
      Defines.expanded (defineFunctions_ok hstages.defined) hf
    obtain rfl : body' = body := by simpa [Function.body?, hkind] using hbody
    have hlocals : f.locals = locals := by simp [Function.locals, hkind]
    exact ⟨scope, code, hlocals ▸ hkind, hlocals ▸ hexpand⟩

/-- The nodes of the bodies of an expanded program are proper. -/
theorem proper_of_mem {m : Module} {p : Program} (hp : ofModule? m = .ok p) {f : Function}
    (hf : f ∈ p.functions) {body : Expr} (hbody : f.body? = some body) : body.All Expr.Proper := by
  obtain ⟨scope, code, -, hexpand⟩ := expanded_of_mem hp hf hbody
  exact expandBody_proper hexpand

end Program

end WasmLift
