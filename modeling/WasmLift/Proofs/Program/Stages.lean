import Mathlib.Data.List.Forall2
import WasmLift.Program.Expand
import WasmLift.Proofs.Names.Binding
import WasmLift.Proofs.Names.Distinct

/-!
# The stages of an expansion

A module becomes a program in stages: the types of functions and globals, the imported functions,
the defined functions with their bodies, and the tables (`Program.Stages`). Each says what it made
of its part of the module. Whatever the names in the module, once these stages are done, binding the
names succeeds (`Program.Stages.bound`).
-/

namespace WasmLift

namespace Program

/-! ## Inside the stages -/

/-- The types of the functions are those that the module gives for their indices. -/
theorem funcTypes_ok {m : Module} {types : List FuncType} (h : funcTypes m = .ok types) :
    (List.range m.functionTypes.length).map m.funcType? = types.map some := by
  refine map_eq_of_mapM h fun index type htype => ?_
  split at htype
  · next hfunc => rw [hfunc, Except.ok.inj htype]
  · cases htype

/-- The functions of the imports bear the names given to them. -/
theorem importFunctions_ok {m : Module} {index : Nat} {entries : List (Import × FuncType × NameId)}
    {functions : List Function} (h : importFunctions m index entries = .ok functions) :
    functions.map (·.name) = entries.map (·.2.2) ∧ ∀ f ∈ functions, f.isImported = true := by
  induction entries generalizing index functions with
  | nil =>
    cases h
    exact ⟨rfl, nofun⟩
  | cons entry rest ih =>
    obtain ⟨signature, -, hrest⟩ := bind_eq_ok.1 h
    obtain ⟨functions, hfunctions, hpure⟩ := bind_eq_ok.1 hrest
    cases hpure
    obtain ⟨hnames, himported⟩ := ih hfunctions
    refine ⟨by simp [hnames], fun f hf => ?_⟩
    rcases List.mem_cons.1 hf with rfl | hf
    · rfl
    · exact himported f hf

/-- A body is rebuilt from the operators and the locals of its code. -/
theorem expandBody_ok {scope : Scope} {code : FunctionCode} {signature : Signature}
    {locals : List Ty} {body : Expr} (h : expandBody scope code signature = .ok (locals, body)) :
    ∃ ops declared, Binary.bodyOperators? code.body = some ops ∧
      code.locals.mapM Ty.ofValType = .ok declared ∧
      Expr.ofOperators scope signature.params declared signature.result ops = .ok (locals, body) := by
  obtain ⟨declared, hdeclared, hrest⟩ := bind_eq_ok.1 h
  cases hops : Binary.bodyOperators? code.body with
  | none =>
    simp only [hops] at hrest
    cases hrest
  | some ops =>
    simp only [hops] at hrest
    exact ⟨ops, declared, rfl, mapError_eq_ok.1 hdeclared, mapError_eq_ok.1 hrest⟩

/-- A defined function has the name, the signature and the body of its code. -/
structure Defines (scope : Scope) (entry : FunctionCode × FuncType × NameId × String)
    (f : Function) : Prop where
  name : f.name = entry.2.2.1
  signature : Signature.ofFuncType entry.2.1 = .ok ⟨f.params, f.result⟩
  body : ∃ locals body, f.kind = .defined locals body ∧
    expandBody scope entry.1 ⟨f.params, f.result⟩ = .ok (locals, body)

theorem defineFunctions_ok {m : Module} {scope : Scope} {index : Nat}
    {entries : List (FunctionCode × FuncType × NameId × String)} {functions : List Function}
    (h : defineFunctions m scope index entries = .ok functions) :
    List.Forall₂ (Defines scope) entries functions := by
  induction entries generalizing index functions with
  | nil =>
    cases h
    exact .nil
  | cons entry rest ih =>
    obtain ⟨signature, hsignature, hbody⟩ := bind_eq_ok.1 h
    obtain ⟨⟨locals, body⟩, hexpand, hrest⟩ := bind_eq_ok.1 hbody
    obtain ⟨functions, hfunctions, hpure⟩ := bind_eq_ok.1 hrest
    cases hpure
    refine .cons ⟨rfl, mapError_eq_ok.1 hsignature, locals, body, rfl, ?_⟩ (ih hfunctions)
    exact mapError_eq_ok.1 hexpand

/-- The entries of a table are the names of the functions that the module lists. -/
theorem tableSegments_ok {raws : List String} {globalTypes : List Ty}
    {elements : List ElementSegment} {pool pool' : NamePool} {tables : List TableSegment}
    (hpool : pool.raws = raws) (hnodup : raws.Nodup)
    (h : tableSegments raws globalTypes elements pool = .ok (tables, pool')) :
    pool' = pool ∧ tables.map (·.entries) = elements.map (·.functions.map NameId.mk) ∧
      ∀ segment ∈ elements, ∀ index ∈ segment.functions, index < raws.length := by
  induction elements generalizing tables with
  | nil =>
    cases h
    exact ⟨rfl, rfl, nofun⟩
  | cons segment rest ih =>
    obtain ⟨names, hnames, hrest⟩ := bind_eq_ok.1 h
    have hentries : segment.functions.map (pool.raws[·]?) = names.map some := by
      refine map_eq_of_mapM hnames fun index raw hraw => ?_
      split at hraw
      · next hname => rw [hpool, hname, Except.ok.inj hraw]
      · cases hraw
    rw [NamePool.internAll_again (hpool ▸ hnodup) hentries] at hrest
    obtain ⟨⟨tables, pool''⟩, htables, hpure⟩ := bind_eq_ok.1 hrest
    cases hpure
    obtain ⟨rfl, hsegments, hbounds⟩ := ih htables
    refine ⟨rfl, by simp [hsegments], List.forall_mem_cons.2 ⟨fun index hindex => ?_, hbounds⟩⟩
    have hfound : pool'.raws[index]? ∈ names.map some := hentries ▸ List.mem_map_of_mem hindex
    obtain ⟨raw, -, hraw⟩ := List.mem_map.1 hfound
    exact hpool ▸ (List.getElem?_eq_some_iff.1 hraw.symm).1

/-- Tables that list functions of the module are accepted, and collect no new name. -/
theorem tableSegments_run {raws : List String} (globalTypes : List Ty)
    {elements : List ElementSegment} (hnodup : raws.Nodup)
    (hbounds : ∀ segment ∈ elements, ∀ index ∈ segment.functions, index < raws.length) :
    tableSegments raws globalTypes elements ⟨raws⟩ =
      .ok (elements.map fun segment =>
        ⟨initExpr globalTypes segment.offset, segment.functions.map NameId.mk⟩, ⟨raws⟩) := by
  induction elements with
  | nil => rfl
  | cons segment rest ih =>
    obtain ⟨hsegment, hrest⟩ := List.forall_mem_cons.1 hbounds
    let names := segment.functions.map fun index => raws.getD index ""
    have hentries : segment.functions.map ((NamePool.mk raws).raws[·]?) = names.map some := by
      rw [List.map_map]
      exact List.map_congr_left fun index hindex => by simp [hsegment index hindex]
    refine bind_eq_ok.2 ⟨names, mapM_eq_ok.2 ?_, ?_⟩
    · rw [List.map_map]
      exact List.map_congr_left fun index hindex => by simp [hsegment index hindex]
    · rw [NamePool.internAll_again hnodup hentries]
      exact bind_eq_ok.2 ⟨_, ih hrest, rfl⟩

/-! ## The stages together -/

/-- The stages before names are bound have been gone through. -/
structure Stages (m : Module) (scope : Scope) (imported defined : List Function)
    (tables : List TableSegment) : Prop where
  types : funcTypes m = .ok scope.funcTypes
  globals : orFail (m.globalTypes.mapM Ty.ofValType) = .ok scope.globalTypes
  declared : scope.types = m.types
  names : scope.funcNames = (List.range m.functionTypes.length).map NameId.mk
  imported : importFunctions m 0
    ((functionImports m).zip (scope.funcTypes.zip scope.funcNames)) = .ok imported
  defined : defineFunctions m scope m.importedFunctions.length
    (m.functions.zip ((scope.funcTypes.drop m.importedFunctions.length).zip
      ((scope.funcNames.drop m.importedFunctions.length).zip
        ((Names.ofModule m).drop m.importedFunctions.length)))) = .ok defined
  tables : tableSegments (Names.ofModule m) scope.globalTypes m.elements ⟨Names.ofModule m⟩ =
    .ok (tables, ⟨Names.ofModule m⟩)

theorem ofModule_raws_nodup (m : Module) : (Names.ofModule m).Nodup :=
  List.Nodup.of_map _ (Names.ofModule_nodup m)

theorem internAll_ofModule (m : Module) :
    NamePool.internAll {} (Names.ofModule m) =
      ((List.range m.functionTypes.length).map NameId.mk, ⟨Names.ofModule m⟩) := by
  rw [NamePool.internAll_new (by simpa using ofModule_raws_nodup m)]
  simp [List.range_eq_range']

/-- A program is a result of the stages, and of binding the names that they leave. -/
theorem ofModule?_eq_ok {m : Module} {p : Program} :
    ofModule? m = .ok p ↔ ∃ scope imported defined tables names,
      Stages m scope imported defined tables ∧
      NamePool.resolve ⟨Names.ofModule m⟩ ((imported ++ defined).map Function.bearer) = .ok names ∧
      p = ⟨imported ++ defined, globalsOf m scope.globalTypes, tables, m.segments, names⟩ := by
  dsimp only [ofModule?]
  rw [internAll_ofModule]
  dsimp only
  constructor
  · intro h
    obtain ⟨types, htypes, h₁⟩ := bind_eq_ok.1 h
    obtain ⟨globalTypes, hglobals, h₂⟩ := bind_eq_ok.1 h₁
    obtain ⟨imported, himported, h₃⟩ := bind_eq_ok.1 h₂
    obtain ⟨defined, hdefined, h₄⟩ := bind_eq_ok.1 h₃
    obtain ⟨⟨tables, pool⟩, htables, h₅⟩ := bind_eq_ok.1 h₄
    obtain ⟨rfl, -, -⟩ := tableSegments_ok rfl (ofModule_raws_nodup m) htables
    obtain ⟨names, hnames, hpure⟩ := bind_eq_ok.1 h₅
    cases hpure
    let ids := (List.range m.functionTypes.length).map NameId.mk
    refine ⟨⟨m.types, types, ids, globalTypes⟩, imported, defined, tables, names, ?_, ?_, rfl⟩
    · exact ⟨htypes, hglobals, rfl, rfl, himported, hdefined, htables⟩
    · exact mapError_eq_ok.1 (mapError_eq_ok.1 hnames)
  · rintro ⟨⟨types, funcTypes, funcNames, globalTypes⟩, imported, defined, tables, names, hstages,
      hnames, rfl⟩
    obtain ⟨htypes, hglobals, hdeclared, hids, himported, hdefined, htables⟩ := hstages
    dsimp only at htypes hglobals hdeclared hids himported hdefined htables
    subst hdeclared hids
    simp only [htypes, hglobals, himported, hdefined, htables, hnames, ok_bind]
    rfl

theorem functionImports_length (m : Module) :
    (functionImports m).length = m.importedFunctions.length := by
  unfold functionImports Module.importedFunctions
  induction m.imports with
  | nil => rfl
  | cons entry rest ih => cases hkind : entry.kind <;> simp_all

theorem functionTypes_length (m : Module) :
    m.functionTypes.length = m.importedFunctions.length + m.functions.length := by
  simp [Module.functionTypes]

section
variable {m : Module} {scope : Scope} {imported defined : List Function}
  {tables : List TableSegment}

theorem Stages.types_length (h : Stages m scope imported defined tables) :
    scope.funcTypes.length = m.functionTypes.length := by
  simpa using (congrArg List.length (funcTypes_ok h.types)).symm

/-- The imported functions bear the first names. -/
theorem Stages.importedNames (h : Stages m scope imported defined tables) :
    imported.map (·.name) = (List.range m.importedFunctions.length).map NameId.mk := by
  rw [(importFunctions_ok h.imported).1, h.names]
  have := functionTypes_length m
  refine List.ext_getElem ?_ fun i hi _ => by simp
  simp only [List.length_map, List.length_zip, functionImports_length, h.types_length,
    List.length_range]
  omega

/-- The defined functions bear the other names. -/
theorem Stages.definedNames (h : Stages m scope imported defined tables) :
    defined.map (·.name) =
      (List.range' m.importedFunctions.length m.functions.length).map NameId.mk := by
  have hnames : ∀ {entries functions}, List.Forall₂ (Defines scope) entries functions →
      functions.map (·.name) = entries.map (·.2.2.1) := by
    intro entries functions hall
    induction hall with
    | nil => rfl
    | cons hdefines _ ih => rw [List.map_cons, List.map_cons, hdefines.name, ih]
  have := functionTypes_length m
  rw [hnames (defineFunctions_ok h.defined), h.names]
  refine List.ext_getElem ?_ fun i hi _ => by simp
  simp only [List.length_map, List.length_zip, List.length_drop, h.types_length, List.length_range,
    Names.ofModule_length, List.length_range']
  omega

/-- The functions are those of the module's function index space, in order. -/
theorem Stages.functionNames (h : Stages m scope imported defined tables) :
    (imported ++ defined).map (·.name) = (List.range m.functionTypes.length).map NameId.mk := by
  rw [List.map_append, h.importedNames, h.definedNames, ← List.map_append, functionTypes_length,
    List.range_eq_range', List.range_eq_range', ← List.range'_append_1, Nat.zero_add]

/-- The entries of the tables are the names of functions of the module. -/
theorem Stages.tableEntries (h : Stages m scope imported defined tables) :
    tables.map (·.entries) = m.elements.map (·.functions.map NameId.mk) ∧
      ∀ segment ∈ m.elements, ∀ index ∈ segment.functions, index < m.functionTypes.length := by
  have hraws : (NamePool.mk (Names.ofModule m)).raws = Names.ofModule m := rfl
  obtain ⟨-, hentries, hbounds⟩ := tableSegments_ok hraws (ofModule_raws_nodup m) h.tables
  rw [Names.ofModule_length] at hbounds
  exact ⟨hentries, hbounds⟩

/-- Whatever the names in the module, binding them succeeds. -/
theorem Stages.bound (h : Stages m scope imported defined tables) :
    ∃ names, NamePool.resolve ⟨Names.ofModule m⟩ ((imported ++ defined).map Function.bearer) =
        .ok names ∧
      (names.map (·.name)).Nodup ∧
      names.map (·.index) = List.range m.functionTypes.length := by
  have hbearers : NamePool.InOrder ⟨Names.ofModule m⟩
      ((imported ++ defined).map Function.bearer) := by
    have hname : ∀ f : Function, f.bearer.name = f.name := by
      intro f
      cases hkind : f.kind <;> simp [Function.bearer, hkind]
    simpa [NamePool.InOrder, hname, Function.comp_def] using h.functionNames
  have hnodup : (NamePool.mk (Names.ofModule m)).displayNames.Nodup := Names.ofModule_nodup m
  simpa using NamePool.resolve_ok hnodup hbearers

end

end Program

end WasmLift
