import WasmLift.Program.Expand
import WasmLift.Proofs.Execution.Simulation
import WasmLift.Proofs.Expansion.Body

/-!
# Expansion preserves meaning

The tree of a valid body does what the body does (`Program.expandBody_agrees`). Both are observed by
their effects on globals and memory, their calls, and how they end. The proof goes through
structured instructions: the tree matches them (`Builder.ofOperators_observe`), and so does the
machine that runs the operators one by one (`Machine.agree`).
-/

namespace WasmLift

/-- Distinct names are found by their positions. -/
theorem Scope.resolves_idxOf {scope : Scope} (hnames : scope.funcNames.Nodup)
    (hlength : scope.funcTypes.length = scope.funcNames.length) :
    scope.Resolves (scope.funcNames.idxOf ·) where
  named := Nat.le_of_eq hlength
  found i id hid := by
    obtain ⟨hlt, rfl⟩ := List.getElem?_eq_some_iff.1 hid
    exact hnames.idxOf_getElem i hlt

/-- Surroundings in which nothing happens. -/
instance : Inhabited Host where
  default :=
    { Memory := Unit
      unary := fun _ v => .ok v
      binary := fun _ v _ => .ok v
      load := fun _ _ a _ => .ok a
      memorySize := fun _ => .i32 0
      update := fun _ m => (.ok (.i32 0), m)
      call := fun _ _ s => (.ok (.i32 0), s) }

namespace Program

theorem expandBody_eq {scope : Scope} {code : FunctionCode} {signature : Signature}
    {locals : List Ty} {ops : List Operator} (hlocals : code.locals.mapM Ty.ofValType = .ok locals)
    (hops : Binary.bodyOperators? code.body = some ops) :
    expandBody scope code signature =
      orFail (Expr.ofOperators scope signature.params locals signature.result ops) := by
  rw [expandBody, hlocals, hops]
  rfl

/-- Every valid body is rebuilt, and in whatever surroundings and state the tree and the operators
are run, they have the same effects in the same order and end alike. There is one memory: loads,
stores and the other operators on memory of a valid body name memory `0` (`Instr.Admits`), as the
nodes of the tree do not say which memory they access. -/
theorem expandBody_agrees {scope : Scope} {resolve : NameId → Nat} {code : FunctionCode}
    {signature : Signature} {locals : List Ty} {ops : List Operator}
    (hresolve : scope.Resolves resolve) (hlocals : code.locals.mapM Ty.ofValType = .ok locals)
    (hops : Binary.bodyOperators? code.body = some ops)
    (hvalid : Instr.ValidBody scope (signature.params ++ locals) signature.result ops) :
    ∃ all body, expandBody scope code signature = .ok (all, body) ∧
      ∀ (h : Host) (w : World h),
        Observation.Agree (Expr.observe resolve body signature.result w)
          (fun k => Machine.observe scope k (Machine.start ops signature.result w)) ∧
        ∀ bound, (Expr.observe resolve body signature.result w bound).outcome ≠ .stuck := by
  obtain ⟨instrs, rfl, hv⟩ := hvalid
  obtain ⟨all, body, hbody, -⟩ := Builder.ofOperators_observe default 0 hresolve hv
  refine ⟨all, body, by rw [expandBody_eq hlocals hops, hbody]; rfl, fun h w => ?_⟩
  -- The tree does not depend on the surroundings or the bound it is run with.
  have hobserve : ∀ bound, Expr.observe resolve body signature.result w bound =
        Instr.observe scope instrs signature.result w bound ∧
      (Instr.observe scope instrs signature.result w bound).outcome ≠ .stuck := by
    intro bound
    obtain ⟨all', body', hbody', hsame⟩ := Builder.ofOperators_observe h bound hresolve hv
    rw [hbody] at hbody'
    cases hbody'
    exact hsame w
  have hagree := Machine.agree fun bound => (hobserve bound).2
  rw [← funext fun bound => (hobserve bound).1] at hagree
  exact ⟨hagree, fun bound => (hobserve bound).1 ▸ (hobserve bound).2⟩

/-- A function of one parameter: unless it holds, a function is called; then the result is computed,
and the function is called again before it is returned. -/
theorem expandBody_agrees_guardedCall :
    let scope : Scope := ⟨[], [⟨[], []⟩], [⟨0⟩], []⟩
    let code : FunctionCode := ⟨0, [], [0x02, 0x40, 0x20, 0x00, 0x0d, 0x00, 0x10, 0x00, 0x0b, 0x41,
      0x07, 0x10, 0x00, 0x0b]⟩
    ∃ ops all body, Binary.bodyOperators? code.body = some ops ∧
      expandBody scope code ⟨[.i32], .i32⟩ = .ok (all, body) ∧
      ∀ (h : Host) (w : World h),
        Observation.Agree (Expr.observe (scope.funcNames.idxOf ·) body .i32 w)
          (fun k => Machine.observe scope k (Machine.start ops .i32 w)) := by
  intro scope code
  let guard : List Instr :=
    [.plain ⟨.localGet 0, rfl⟩, .plain ⟨.brIf 0, rfl⟩, .plain ⟨.call 0, rfl⟩]
  let body : List Instr :=
    [.block .empty guard, .plain ⟨.const (.i32 7), rfl⟩, .plain ⟨.call 0, rfl⟩]
  have hops : Binary.bodyOperators? code.body = some (Instr.flattenAll body ++ [.finish]) := by
    decide +kernel
  have hresolve : scope.Resolves (scope.funcNames.idxOf ·) :=
    Scope.resolves_idxOf (by decide) rfl
  have htarget : [Ty.void, Ty.i32][0]? = some .void := rfl
  have hguard : Instr.Valid scope [.i32] [.void, .i32] guard 0 0 :=
    .operator (k := 0) rfl ⟨.i32, rfl, nofun⟩ (.brIf (k := 0) htarget
      (.operator (k := 0) rfl trivial .nil))
  have hvalid : Instr.Valid scope [.i32] [.i32] body 0 1 :=
    .block rfl hguard (.operator (k := 0) rfl trivial (.operator (k := 1) rfl trivial .nil))
  have hbody : Instr.ValidBody scope (Signature.params ⟨[.i32], .i32⟩ ++ [])
      (Signature.result ⟨[.i32], .i32⟩) (Instr.flattenAll body ++ [.finish]) := ⟨body, rfl, hvalid⟩
  obtain ⟨all, tree, htree, hagree⟩ := expandBody_agrees hresolve rfl hops hbody
  exact ⟨_, all, tree, hops, htree, fun h w => (hagree h w).1⟩

end Program

end WasmLift
