import WasmLift.Proofs.Module.Sections

/-!
# Counting imports

The imported functions and globals of a module can be counted while it is read, one by one, as the
entries of its import sections come along (`Module.decodeCounted`). Sections of any kind may come in
any order and any number of times, and still the counters are the numbers of functions and of
globals among the imports that are kept (`Module.decodeCounted_exact`), and the module is the one
that is read without them (`Module.decodeCounted_result`).
-/

namespace WasmLift

namespace Logged

/-- A result is mapped in the log where it is. -/
theorem map_apply {α β : Type} (f : α → β) (x : Logged α) (log : List Event) :
    (f <$> x) log = (f <$> (x log).1, (x log).2) := by
  rw [← bind_pure_comp]
  cases hx : x log with
  | mk result log' =>
    cases result with
    | error e => rw [bind_of_error hx]; rfl
    | ok a => rw [bind_of_ok hx]; rfl

/-- Two functions of a result are the same to a computation if they agree on its results. -/
theorem map_congr_of_ok {α β : Type} {f g : α → β} {x : Logged α}
    (h : ∀ log a log', x log = (.ok a, log') → f a = g a) : f <$> x = g <$> x := by
  funext log
  rw [map_apply, map_apply]
  cases hx : x log with
  | mk result log' =>
    cases result with
    | error e => rfl
    | ok a => exact congrArg (fun b => (Except.ok b, log')) (h log a log' hx)

/-- A mapped outcome is logged as the outcome mapped. -/
theorem map_ofExcept {α β : Type} (f : α → β) (x : Except Error α) :
    ofExcept (f <$> x) = f <$> ofExcept x := by
  cases x <;> rfl

end Logged

namespace Module

open Binary
open Binary.Reader

/-- A draft of a module with a counter for each kind of import. -/
structure Counted where
  draft : Draft := {}
  functions : Nat := 0
  globals : Nat := 0

/-- A draft with the counters that it should have. -/
def Counted.of (d : Draft) : Counted :=
  ⟨d, d.result.importedFunctions.length, d.result.importedGlobals.length⟩

/-- Counting does not change the draft. -/
@[simp] theorem Counted.of_draft (d : Draft) : (of d).draft = d := rfl

/-- The imported functions of a draft are counted. -/
@[simp] theorem Counted.of_functions (d : Draft) :
    (of d).functions = d.result.importedFunctions.length := rfl

/-- The imported globals of a draft are counted. -/
@[simp] theorem Counted.of_globals (d : Draft) :
    (of d).globals = d.result.importedGlobals.length := rfl

/-- Adds an import that is kept, and counts it. -/
def countImport (c : Counted) (entry : Option Import) : Except Cause Counted := do
  let d ← addImport c.draft entry
  match entry with
  | none => return { c with draft := d }
  | some ⟨_, _, .function _⟩ => return { c with draft := d, functions := c.functions + 1 }
  | some ⟨_, _, .global _ _⟩ => return { c with draft := d, globals := c.globals + 1 }

/-- Reads the content of a section other than the code section. -/
def countContent (id : Nat) (content : List UInt8) (c : Counted) : Logged Counted :=
  if id = 2 then Logged.ofExcept (readSection .importEntry importEntry countImport content c)
  else (fun d => { c with draft := d }) <$> readSectionContent id content c.draft

/-- Reads the code section. -/
def countCode (size : Nat) (input : List UInt8) (c : Counted) : Logged Counted :=
  (fun d => { c with draft := d }) <$> Logged.ofExcept (readCode size input c.draft)

/-- Reads at most `fuel` sections. -/
def countSections : (fuel : Nat) → List UInt8 → Counted → Logged Counted
  | _, [], c => return c
  | 0, _ :: _, _ => throw (.unreadable .payload)
  | fuel + 1, input, c =>
    match sectionHeader input with
    | none => throw (.unreadable .payload)
    | some ((id, size), rest) => do
      if id = 10 then
        let c ← countCode size rest c
        countSections fuel (rest.drop size) c
      else
        match bytes size rest with
        | none => throw (.unreadable .payload)
        | some (content, rest) => do
          let c ← countContent id content c
          countSections fuel rest c

/-- The module that the bytes stand for, with its imports counted. -/
def decodeCounted (input : List UInt8) : Logged Counted :=
  match header input with
  | none => throw (.unreadable .payload)
  | some (_, rest) => countSections rest.length rest {}

/-! ## One section -/

/-- Counting one import counts those of the draft with it. -/
theorem countImport_of (d : Draft) (entry : Option Import) :
    countImport (.of d) entry = Counted.of <$> addImport d entry := by
  rcases entry with _ | ⟨moduleName, name, type | ⟨type, isMutable⟩⟩ <;>
    simp [countImport, addImport, Counted.of, importedFunctions, importedGlobals, pure, Except.pure,
      Functor.map, Except.map]

/-- If a step goes along with a second one, so does the reading of items. -/
theorem readItems_map {σ τ α : Type} {part : Part} {item : Reader α} {step : σ → α → Except Cause σ}
    {step' : τ → α → Except Cause τ} {g : σ → τ}
    (hstep : ∀ s a, step' (g s) a = g <$> step s a) (count : Nat) (input : List UInt8) (s : σ) :
    readItems part item step' count input (g s) = g <$> readItems part item step count input s := by
  induction count generalizing input s with
  | zero =>
    unfold readItems
    split <;> rfl
  | succ count ih =>
    unfold readItems
    cases item input with
    | none => rfl
    | some read =>
      dsimp only
      rw [hstep]
      cases step s read.1 with
      | error cause => rfl
      | ok next => exact ih read.2 next

/-- Counting the imports of a section counts those of the draft with them. -/
theorem countImports_of (content : List UInt8) (d : Draft) :
    readSection .importEntry importEntry countImport content (.of d) =
      Counted.of <$> readSection .importEntry importEntry addImport content d := by
  unfold readSection
  cases u32 content with
  | none => rfl
  | some read => exact readItems_map countImport_of read.1 read.2 d

/-- Only the import section changes the imports. -/
theorem Draft.Adds.imports_eq {id : Nat} {content : List UInt8} {d d' : Draft}
    (h : d.Adds id content d') (hid : id ≠ 2) : d'.result.imports = d.result.imports := by
  cases h with
  | imports => exact absurd rfl hid
  | _ => rfl

/-- Counters stay right if the imports stay as they are. -/
theorem Counted.of_eq {d d' : Draft} (himports : d'.result.imports = d.result.imports) :
    { Counted.of d with draft := d' } = Counted.of d' := by
  simp [Counted.of, importedFunctions, importedGlobals, himports]

/-- Any section leaves the counters at the numbers of the draft. -/
theorem countContent_of (id : Nat) (content : List UInt8) (d : Draft) :
    countContent id content (.of d) = Counted.of <$> readSectionContent id content d := by
  unfold countContent
  split
  · next hid =>
    subst hid
    rw [countImports_of, Logged.map_ofExcept]
    rfl
  · next hid =>
    exact Logged.map_congr_of_ok fun log d' log' hread =>
      Counted.of_eq ((adds_of_readSectionContent hread).imports_eq hid)

/-- A code section leaves the counters at the numbers of the draft. -/
theorem countCode_of (size : Nat) (input : List UInt8) (d : Draft) :
    countCode size input (.of d) = Counted.of <$> Logged.ofExcept (readCode size input d) :=
  Logged.map_congr_of_ok fun log d' log' hread => by
    obtain ⟨-, functions, -, rfl⟩ := readCode_ok (ofExcept_ok hread)
    exact Counted.of_eq rfl

/-! ## The whole module -/

/-- Any run of sections leaves the counters at the numbers of the draft. -/
theorem countSections_of (fuel : Nat) (input : List UInt8) (d : Draft) :
    countSections fuel input (.of d) = Counted.of <$> readSections fuel input d := by
  induction fuel generalizing input d with
  | zero => cases input <;> rfl
  | succ fuel ih =>
    cases input with
    | nil => rfl
    | cons b input =>
      unfold countSections readSections
      cases sectionHeader (b :: input) with
      | none => rfl
      | some header =>
        obtain ⟨⟨id, size⟩, rest⟩ := header
        dsimp only
        by_cases hid : id = 10
        · rw [if_pos hid, if_pos hid, countCode_of, map_bind, bind_map_left]
          exact bind_congr fun d' => ih (rest.drop size) d'
        · rw [if_neg hid, if_neg hid]
          cases bytes size rest with
          | none => rfl
          | some read =>
            dsimp only
            rw [countContent_of, map_bind, bind_map_left]
            exact bind_congr fun d' => ih read.2 d'

/-- The module with counters and the one without come from one draft. -/
theorem decodeCounted_eq (input : List UInt8) :
    ∃ draft : Logged Draft, decode input = (·.result) <$> draft ∧
      decodeCounted input = Counted.of <$> draft := by
  unfold decode decodeCounted
  cases header input with
  | none => exact ⟨throw (.unreadable .payload), rfl, rfl⟩
  | some read => exact ⟨readSections read.2.length read.2 {}, rfl, countSections_of _ _ {}⟩

/-- Counting the imports of a module while it is read changes nothing else. -/
theorem decodeCounted_result (input : List UInt8) :
    (·.draft.result) <$> decodeCounted input = decode input := by
  obtain ⟨draft, hdecode, hcounted⟩ := decodeCounted_eq input
  rw [hcounted, hdecode, ← LawfulFunctor.comp_map]
  rfl

/-- The counters are the numbers of the imports that are kept. -/
theorem decodeCounted_exact {input : List UInt8} {c : Counted}
    (hc : (decodeCounted input).start.1 = .ok c) : ∃ d, c = .of d := by
  obtain ⟨draft, -, hcounted⟩ := decodeCounted_eq input
  rw [hcounted] at hc
  have hc : ((Counted.of <$> draft) []).1 = .ok c := hc
  rw [Logged.map_apply] at hc
  cases hdraft : (draft []).1 with
  | error e =>
    rw [hdraft] at hc
    cases hc
  | ok d =>
    rw [hdraft] at hc
    cases hc
    exact ⟨d, rfl⟩

end Module

end WasmLift
