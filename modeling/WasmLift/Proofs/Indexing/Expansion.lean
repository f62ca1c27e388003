import WasmLift.Proofs.Indexing.Bodies
import WasmLift.Proofs.Indexing.Counters
import WasmLift.Proofs.Program.Stages

/-!
# Expansion by positions

A module can be expanded with the counters of its imports: they say how many functions and globals
there are, and at which index the defined ones begin. Types, names and internal names are then
looked up at these indices, and the names of functions in the list of collected names. The expansion
has an outcome for every module that has been read, and it is the program of the module
(`Program.expandAt_of`).
-/

namespace WasmLift

open Indexed

section
variable {ε α β : Type}

theorem mapM_known {f : α → Indexed ε β} {g : α → Except ε β} {xs : List α}
    (h : ∀ x ∈ xs, f x = known (g x)) : xs.mapM f = known (xs.mapM g) := by
  induction xs with
  | nil => rfl
  | cons x xs ih =>
    obtain ⟨hx, hxs⟩ := List.forall_mem_cons.1 h
    rw [List.mapM_cons, List.mapM_cons, hx, ih hxs]
    refine known_bind fun b _ => ?_
    exact known_bind fun bs _ => rfl

/-- To go over the positions of a list is to go over the list. -/
theorem mapM_range {f : Nat → Indexed ε β} {g : α → Indexed ε β} {xs : List α}
    (h : ∀ i a, xs[i]? = some a → f i = g a) : (List.range xs.length).mapM f = xs.mapM g := by
  induction xs generalizing f with
  | nil => rfl
  | cons x xs ih =>
    have hrest : ((List.range xs.length).mapM (f ∘ Nat.succ)) = xs.mapM g :=
      ih fun i a hi => h (i + 1) a hi
    rw [List.length_cons, List.range_succ_eq_map, List.mapM_cons, List.mapM_cons, List.mapM_map,
      h 0 x rfl, hrest]

theorem mapM_mapError {ε' : Type} (change : ε → ε') (f : α → Except ε β) (xs : List α) :
    (xs.mapM f).mapError change = xs.mapM fun x => (f x).mapError change := by
  induction xs with
  | nil => rfl
  | cons x xs ih =>
    rw [List.mapM_cons, List.mapM_cons, ← ih]
    cases f x with
    | error e => rfl
    | ok b => cases xs.mapM f <;> rfl

end

/-! ## Vectors by counters -/

namespace Module.Counted

/-- How many functions the module has. -/
def functionCount (c : Counted) : Nat :=
  c.functions + c.draft.result.functions.length

/-- How many globals the module has. -/
def globalCount (c : Counted) : Nat :=
  c.globals + c.draft.result.globals.length

/-- The signature of a function. -/
def funcType? (c : Counted) (index : Nat) : Option FuncType := do
  let type ← if index < c.functions then c.draft.result.importedFunctions[index]?
    else c.draft.result.functions[index - c.functions]?.map (·.type)
  c.draft.result.types[type]?

/-- The type of a global. -/
def globalType? (c : Counted) (index : Nat) : Option ValType :=
  if index < c.globals then c.draft.result.importedGlobals[index]?.map (·.1)
  else c.draft.result.globals[index - c.globals]?.map (·.type)

/-- What a function is called before names are made distinct. -/
def givenName (c : Counted) (index : Nat) : String :=
  match c.draft.result.functionNames.get? index with
  | some name => name
  | none => if index < c.functions then s!"fimport${index}" else toString index

/-- The internal names of all functions. -/
def rawNames (c : Counted) : List String :=
  Names.distinct 0 ((List.range c.functionCount).map c.givenName) []

/-- The types of all functions. -/
def funcTypes (c : Counted) : Except Error (List FuncType) :=
  (List.range c.functionCount).mapM fun index =>
    match c.funcType? index with
    | some type => .ok type
    | none => .error (.ofCause (.dangling (.functionType index)))

/-- The types of all globals. There is no outcome if the type of a global is missing. -/
def globalTypes (c : Counted) : Indexed Error (List Ty) :=
  (List.range c.globalCount).mapM fun index => do
    let type ← ExceptT.lift (c.globalType? index)
    known (Program.orFail (Ty.ofValType type))

theorem functionCount_of (d : Draft) : (of d).functionCount = d.result.functionTypes.length :=
  (Program.functionTypes_length d.result).symm

theorem globalCount_of (d : Draft) : (of d).globalCount = d.result.globalTypes.length := by
  simp [globalCount, of, Module.globalTypes]

theorem rawNames_of (d : Draft) : (of d).rawNames = Names.ofModule d.result := by
  rw [rawNames, functionCount_of]
  rfl

theorem funcTypes_of (d : Draft) : (of d).funcTypes = Program.funcTypes d.result := by
  have hfuncType : (of d).funcType? = d.result.funcType? := by
    funext index
    by_cases hindex : index < d.result.importedFunctions.length <;>
      simp [funcType?, of, Module.funcType?, Module.functionTypes, List.getElem?_append, hindex]
  rw [funcTypes, functionCount_of, hfuncType]
  rfl

/-- Every global has a type. -/
theorem globalTypes_of (d : Draft) :
    (of d).globalTypes = known (Program.orFail (d.result.globalTypes.mapM Ty.ofValType)) := by
  have hglobalType (index : Nat) : (of d).globalType? index = d.result.globalTypes[index]? := by
    by_cases hindex : index < d.result.importedGlobals.length <;>
      simp [globalType?, of, Module.globalTypes, List.getElem?_append, hindex]
  rw [globalTypes, globalCount_of, Program.orFail, mapM_mapError, ← mapM_known fun _ _ => rfl]
  refine mapM_range fun index type htype => ?_
  rw [hglobalType, htype]
  rfl

end Module.Counted

/-! ## Names by positions -/

namespace NamePool

/-- Extends a map from shown names to function indices by the bearers from `index` onwards, whose
names are looked up. -/
def claimAt (names : List String) : (index : Nat) → List Bearer → List (String × Nat) →
    Indexed Cause (List (String × Nat))
  | _, [], map => return map
  | index, bearer :: rest, map => do
    let name ← look names bearer.name.slot
    match map.lookup name with
    | some first => throw (.duplicateName name first index)
    | none => claimAt names (index + 1) rest (map ++ [(name, index)])

/-- The identifiers of the collected names, given the functions that bear them. -/
def resolveAt (pool : NamePool) (bearers : List Bearer) : Indexed Cause NameTable := do
  let names := pool.displayNames
  let map ← claimAt names 0 bearers []
  let table ← known (bind bearers map names (map.map (·.1)))
  let _ ← claimAt (table.map (·.name)) 0 bearers []
  return table

theorem claimAt_eq {names : List String} {bearers : List Bearer}
    (hbearers : ∀ bearer ∈ bearers, bearer.name.slot < names.length) (index : Nat)
    (map : List (String × Nat)) :
    claimAt names index bearers map = known (claim names index bearers map) := by
  induction bearers generalizing index map with
  | nil => rfl
  | cons bearer rest ih =>
    obtain ⟨hbearer, hrest⟩ := List.forall_mem_cons.1 hbearers
    have hname : names[bearer.name.slot]? = some (names.getD bearer.name.slot "") := by
      simp [hbearer]
    rw [claimAt, claim, look_eq hname, known_ok_bind]
    cases map.lookup (names.getD bearer.name.slot "") with
    | some first => rfl
    | none => exact ih hrest (index + 1) _

/-- Binding gives every name an identifier. -/
theorem bind_length {bearers : List Bearer} {map : List (String × Nat)} {names taken : List String}
    {table : NameTable} (h : bind bearers map names taken = .ok table) :
    table.length = names.length := by
  induction names generalizing taken table with
  | nil =>
    cases h
    rfl
  | cons name rest ih =>
    unfold bind at h
    split at h
    · cases h
    · split at h
      all_goals
        obtain ⟨table, hrest, hpure⟩ := bind_eq_ok.1 h
        cases hpure
        rw [List.length_cons, List.length_cons, ih hrest]

/-- Names are looked up before and after binding, in lists of the same length. -/
theorem resolveAt_eq {pool : NamePool} {bearers : List Bearer}
    (hbearers : ∀ bearer ∈ bearers, bearer.name.slot < pool.raws.length) :
    pool.resolveAt bearers = known (pool.resolve bearers) := by
  have hlength : pool.displayNames.length = pool.raws.length := by simp [displayNames]
  rw [resolveAt, resolve, claimAt_eq (by rwa [hlength])]
  refine known_bind fun map _ => known_bind fun table htable => ?_
  have hnames : (table.map (·.name)).length = pool.raws.length := by
    rw [List.length_map, bind_length htable, hlength]
  rw [claimAt_eq (by rwa [hnames])]
  exact known_bind fun _ _ => rfl

end NamePool

/-! ## Functions and globals by positions -/

namespace Program

/-- The imported functions, from the given index on, at which their types and names are. -/
def importAt (m : Module) (scope : Scope) : (index : Nat) → List Import →
    Indexed Error (List Function)
  | _, [] => return []
  | index, entry :: rest => do
    let type ← look scope.funcTypes index
    let signature ← known (orFail (Signature.ofFuncType type))
    let name ← look scope.funcNames index
    let function : Function :=
      ⟨name, signature.params, signature.result, .imported entry.moduleName entry.name,
        exportName? m index⟩
    return function :: (← importAt m scope (index + 1) rest)

/-- The defined functions, from the given index on, at which their types and names are. An internal
name is looked up for an error only. -/
def defineAt (m : Module) (scope : Scope) (raws : List String) : (index : Nat) →
    List FunctionCode → Indexed Error (List Function)
  | _, [] => return []
  | index, code :: rest => do
    let type ← look scope.funcTypes index
    let signature ← known (orFail (Signature.ofFuncType type))
    let (locals, body) ← tryCatch (expandBodyAt scope code signature) fun e => do
      throw (e.within (.expandingFunction (← look raws index)))
    let name ← look scope.funcNames index
    let function : Function :=
      ⟨name, signature.params, signature.result, .defined locals body, exportName? m index⟩
    return function :: (← defineAt m scope raws (index + 1) rest)

/-- A global, with the type at its index. -/
def globalAt (globalTypes : List Ty) (name : String) (index : Nat) (isMutable : Bool)
    (init : Option Expr) : Indexed Error Global := do
  return ⟨name, ← look globalTypes index, isMutable, init⟩

/-- The globals, the imported ones first. -/
def globalsAt (c : Module.Counted) (globalTypes : List Ty) : Indexed Error (List Global) := do
  let m := c.draft.result
  let imported ← m.importedGlobals.zipIdx.mapM fun entry =>
    globalAt globalTypes (globalName m entry.2 s!"gimport${entry.2}") entry.2 entry.1.2 none
  let defined ← m.globals.zipIdx.mapM fun entry =>
    let index := c.globals + entry.2
    globalAt globalTypes (globalName m index s!"global${index}") index entry.1.isMutable
      (some (initExpr globalTypes entry.1.init))
  return imported ++ defined

/-- The program of a module whose imports have been counted. -/
def expandAt (c : Module.Counted) : Indexed Error Program := do
  let m := c.draft.result
  let raws := c.rawNames
  let (ids, pool) := NamePool.internAll {} raws
  let types ← known c.funcTypes
  let globalTypes ← c.globalTypes
  let scope : Scope := ⟨m.types, types, ids, globalTypes⟩
  let imported ← importAt m scope 0 (functionImports m)
  let defined ← defineAt m scope raws c.functions m.functions
  let (tables, pool) ← known (tableSegments raws globalTypes m.elements pool)
  let functions := imported ++ defined
  let globals ← globalsAt c globalTypes
  let names ← ExceptT.adapt (Error.within .resolvingNames)
    (ExceptT.adapt Error.ofCause (pool.resolveAt (functions.map Function.bearer)))
  return ⟨functions, globals, tables, m.segments, names⟩

theorem importAt_eq {m : Module} {scope : Scope} {index : Nat} {imports : List Import}
    (htypes : index + imports.length ≤ scope.funcTypes.length)
    (hnames : index + imports.length ≤ scope.funcNames.length) :
    importAt m scope index imports =
      known (importFunctions m index (imports.zip ((scope.funcTypes.drop index).zip
        (scope.funcNames.drop index)))) := by
  induction imports generalizing index with
  | nil => rfl
  | cons entry rest ih =>
    rw [List.length_cons] at htypes hnames
    have htype : index < scope.funcTypes.length := by omega
    have hname : index < scope.funcNames.length := by omega
    rw [importAt, look_eq (List.getElem?_eq_getElem htype), known_ok_bind,
      look_eq (List.getElem?_eq_getElem hname), ih (by omega) (by omega),
      List.drop_eq_getElem_cons htype, List.drop_eq_getElem_cons hname]
    refine known_bind fun signature _ => ?_
    exact known_bind fun functions _ => rfl

/-- The internal name of a function is there if its body has an error. -/
theorem tryCatch_known {α : Type} {x : Except Error α} {raws : List String} {index : Nat}
    {raw : String} (hraw : raws[index]? = some raw) :
    (tryCatch (known x) fun e => do
      throw (e.within (.expandingFunction (← look raws index))) : Indexed Error α) =
      known (x.mapError (Error.within (.expandingFunction raw))) := by
  rw [look_eq hraw]
  cases x <;> rfl

theorem defineAt_eq {m : Module} {scope : Scope} {raws : List String} {index : Nat}
    {codes : List FunctionCode} (hscope : scope.funcTypes.length ≤ scope.funcNames.length)
    (htypes : index + codes.length ≤ scope.funcTypes.length)
    (hraws : index + codes.length ≤ raws.length) :
    defineAt m scope raws index codes =
      known (defineFunctions m scope index (codes.zip ((scope.funcTypes.drop index).zip
        ((scope.funcNames.drop index).zip (raws.drop index))))) := by
  induction codes generalizing index with
  | nil => rfl
  | cons code rest ih =>
    rw [List.length_cons] at htypes hraws
    have htype : index < scope.funcTypes.length := by omega
    have hname : index < scope.funcNames.length := by omega
    have hraw : index < raws.length := by omega
    rw [defineAt, look_eq (List.getElem?_eq_getElem htype), known_ok_bind,
      look_eq (List.getElem?_eq_getElem hname), ih (by omega) (by omega),
      List.drop_eq_getElem_cons htype, List.drop_eq_getElem_cons hname,
      List.drop_eq_getElem_cons hraw]
    refine known_bind fun signature _ => ?_
    rw [expandBodyAt_eq hscope, tryCatch_known (List.getElem?_eq_getElem hraw)]
    refine known_bind fun body _ => ?_
    exact known_bind fun functions _ => rfl

theorem mapM_globalAt {α : Type} {globalTypes : List Ty} {xs : List α} {name : α → String}
    {index : α → Nat} {isMutable : α → Bool} {init : α → Option Expr}
    (hindex : ∀ x ∈ xs, index x < globalTypes.length) :
    (xs.mapM fun x => globalAt globalTypes (name x) (index x) (isMutable x) (init x)) =
      known (.ok (xs.map fun x =>
        ⟨name x, globalTypes.getD (index x) .void, isMutable x, init x⟩)) := by
  refine Eq.trans ?_ (congrArg known List.mapM_pure)
  refine mapM_known fun x hx => ?_
  have hty : globalTypes[index x]? = some (globalTypes.getD (index x) .void) := by
    simp [hindex x hx]
  rw [globalAt, look_eq hty]
  rfl

/-- Every global finds its type. -/
theorem globalsAt_of {d : Module.Draft} {globalTypes : List Ty}
    (hlength : globalTypes.length = d.result.globalTypes.length) :
    globalsAt (.of d) globalTypes = known (.ok (globalsOf d.result globalTypes)) := by
  have htotal : globalTypes.length = d.result.importedGlobals.length + d.result.globals.length := by
    rw [hlength]
    simp [Module.globalTypes]
  have himported : ∀ entry ∈ d.result.importedGlobals.zipIdx, entry.2 < globalTypes.length := by
    intro entry hentry
    have := List.snd_lt_of_mem_zipIdx hentry
    omega
  have hdefined : ∀ entry ∈ d.result.globals.zipIdx,
      d.result.importedGlobals.length + entry.2 < globalTypes.length := by
    intro entry hentry
    have := List.snd_lt_of_mem_zipIdx hentry
    omega
  rw [globalsAt]
  dsimp only [Module.Counted.of_draft, Module.Counted.of_globals]
  rw [mapM_globalAt himported, known_ok_bind, mapM_globalAt hdefined, known_ok_bind]
  rfl

/-- The names of the functions have been collected. -/
theorem Stages.bearers_lt {m : Module} {scope : Scope} {imported defined : List Function}
    {tables : List TableSegment} (h : Stages m scope imported defined tables) :
    ∀ bearer ∈ (imported ++ defined).map Function.bearer,
      bearer.name.slot < (Names.ofModule m).length := by
  intro bearer hbearer
  obtain ⟨f, hf, rfl⟩ := List.mem_map.1 hbearer
  have hname : f.bearer.name = f.name := by
    cases hkind : f.kind <;> simp [Function.bearer, hkind]
  have hmem : f.name ∈ (List.range m.functionTypes.length).map NameId.mk :=
    h.functionNames ▸ List.mem_map_of_mem hf
  obtain ⟨i, hi, heq⟩ := List.mem_map.1 hmem
  rw [hname, ← heq, Names.ofModule_length]
  exact List.mem_range.1 hi

/-- Every lookup in the course of an expansion finds something, and the outcome is the program of
the module. -/
theorem expandAt_of (d : Module.Draft) : expandAt (.of d) = known (ofModule? d.result) := by
  dsimp only [expandAt, ofModule?]
  rw [Module.Counted.rawNames_of, internAll_ofModule, Module.Counted.funcTypes_of,
    Module.Counted.globalTypes_of]
  refine known_bind fun types htypes => known_bind fun globalTypes hglobals => ?_
  have hcount := functionTypes_length d.result
  have htypesLength : types.length = d.result.functionTypes.length := by
    simpa using (congrArg List.length (funcTypes_ok htypes)).symm
  have himports : (functionImports d.result).length ≤ d.result.functionTypes.length := by
    rw [functionImports_length]
    omega
  rw [importAt_eq (by simpa [htypesLength] using himports) (by simpa using himports)]
  refine known_bind fun imported himported => ?_
  rw [defineAt_eq (by simp [htypesLength]) (by simp [htypesLength, hcount])
    (by simp [Names.ofModule_length, hcount])]
  refine known_bind fun defined hdefined => known_bind fun result htables => ?_
  obtain ⟨tables, pool⟩ := result
  -- The tables collect no new name, so the names of the functions are bound in the pool they are
  -- from.
  obtain ⟨rfl, -, -⟩ := tableSegments_ok rfl (ofModule_raws_nodup d.result) htables
  have hstages : Stages d.result ⟨d.result.types, types, _, globalTypes⟩ imported defined tables :=
    ⟨htypes, hglobals, rfl, rfl, himported, hdefined, htables⟩
  have hglobalsLength : globalTypes.length = d.result.globalTypes.length := by
    simpa using (congrArg List.length (mapM_eq_ok.1 (mapError_eq_ok.1 hglobals))).symm
  rw [globalsAt_of hglobalsLength, known_ok_bind, NamePool.resolveAt_eq hstages.bearers_lt,
    adapt_known, adapt_known]
  exact known_bind fun names _ => rfl

end Program

end WasmLift
