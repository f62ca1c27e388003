import WasmLift.Proofs.Expansion.Accepted
import WasmLift.Proofs.Program.Stages

/-!
# Names and indices

The functions of a program and their names correspond one to one. Whatever the names in the module,
an expansion that has gone through its stages ends with every function bound to its place in the
list and shown with a name of its own, and every call and table entry bound to the function that the
module means (`Program.expansion_resolved`).
-/

namespace WasmLift

namespace Program

/-- The index of the function that a name is bound to. -/
def indexOf (p : Program) (id : NameId) : Nat :=
  (p.names.get id).index

/-- The body of a function is rebuilt from operators, and its calls go where the translated ones
do. -/
def CallsAsTranslated (p : Program) (scope : Scope) (code : FunctionCode) (f : Function) : Prop :=
  ∃ ops declared locals body, Binary.bodyOperators? code.body = some ops ∧
    code.locals.mapM Ty.ofValType = .ok declared ∧ f.kind = .defined locals body ∧
    Expr.ofOperators scope f.params declared f.result ops = .ok (locals, body) ∧
    body.calls.map p.indexOf =
      (Builder.translated scope ops (.start (f.params ++ declared) f.result)).filterMap
        Operator.callee?

/-- The names of a program are bound to its functions as the module numbers them. -/
structure Resolved (m : Module) (scope : Scope) (p : Program) : Prop where
  length : p.functions.length = m.functionTypes.length
  /-- Every function is bound to its own place. -/
  index : ∀ i f, p.functions[i]? = some f → p.functionIndex f = i
  /-- No two functions are shown with the same name. -/
  distinct : (p.functions.map p.functionName).Nodup
  /-- The imports come first. -/
  imported : ∀ i f, p.functions[i]? = some f → (f.isImported = true ↔ i < m.importedFunctions.length)
  /-- Every translated call goes to the function with its index. -/
  calls : ∀ i code f, m.functions[i]? = some code →
    p.functions[m.importedFunctions.length + i]? = some f → p.CallsAsTranslated scope code f
  /-- Every table entry is the function with its index. -/
  tables : p.tables.map (·.entries.map p.indexOf) = m.elements.map (·.functions)

section
variable {m : Module} {scope : Scope} {imported defined : List Function}
  {tables : List TableSegment} {p : Program}

/-- A name is bound to the index that is its place. -/
theorem indexOf_mk {n i : Nat} (hnames : p.names.map (·.index) = List.range n) (hi : i < n) :
    p.indexOf ⟨i⟩ = i := by
  have h := congrArg (·[i]?) hnames
  simp only [List.getElem?_map, List.getElem?_range hi] at h
  obtain ⟨identifier, hget, hindex⟩ := Option.map_eq_some_iff.1 h
  simp [indexOf, NameTable.get, hget, hindex]

theorem map_indexOf {n : Nat} (hnames : p.names.map (·.index) = List.range n) {indices : List Nat}
    (hindices : ∀ i ∈ indices, i < n) : (indices.map NameId.mk).map p.indexOf = indices := by
  rw [List.map_map]
  exact (List.map_congr_left fun i hi => indexOf_mk hnames (hindices i hi)).trans (List.map_id _)

/-- The shown names of the functions are those of the name table. -/
theorem map_functionName {n : Nat} (hlength : p.names.length = n)
    (hfunctions : p.functions.map (·.name) = (List.range n).map NameId.mk) :
    p.functions.map p.functionName = p.names.map (·.name) := by
  have hmap : p.functions.map p.functionName =
      (p.functions.map (·.name)).map fun id => (p.names.get id).name := by simp [functionName]
  rw [hmap, hfunctions, List.map_map, ← hlength]
  refine List.ext_getElem (by simp) fun i hi _ => ?_
  have hi : i < p.names.length := by simpa using hi
  simp [NameTable.get, List.getElem?_eq_getElem hi]

theorem getElem?_of_forall₂ {α β : Type} {R : α → β → Prop} {xs : List α} {ys : List β}
    (h : List.Forall₂ R xs ys) {i : Nat} {x : α} {y : β} (hx : xs[i]? = some x)
    (hy : ys[i]? = some y) : R x y := by
  induction h generalizing i with
  | nil => simp at hx
  | cons hr _ ih =>
    cases i with
    | zero =>
      cases hx
      cases hy
      exact hr
    | succ i => exact ih hx hy

theorem Stages.imported_length (h : Stages m scope imported defined tables) :
    imported.length = m.importedFunctions.length := by
  simpa using congrArg List.length h.importedNames

/-- Function `i` of the code section defines the function `i` places after the imports. -/
theorem Stages.defines (h : Stages m scope imported defined tables) {i : Nat} {code : FunctionCode}
    {f : Function} (hcode : m.functions[i]? = some code) (hf : defined[i]? = some f) :
    ∃ type name raw, Defines scope (code, type, name, raw) f := by
  have hi := (List.getElem?_eq_some_iff.1 hcode).1
  have hentries : i < (m.functions.zip ((scope.funcTypes.drop m.importedFunctions.length).zip
      ((scope.funcNames.drop m.importedFunctions.length).zip
        ((Names.ofModule m).drop m.importedFunctions.length)))).length := by
    have := functionTypes_length m
    simp only [List.length_zip, List.length_drop, h.types_length, h.names, List.length_map,
      List.length_range, Names.ofModule_length]
    omega
  have hdefines := getElem?_of_forall₂ (defineFunctions_ok h.defined)
    (List.getElem?_eq_getElem hentries) hf
  rw [List.getElem_zip, (List.getElem?_eq_some_iff.1 hcode).2] at hdefines
  exact ⟨_, _, _, hdefines⟩

/-- The calls of a body are bound to the indices of the translated calls. -/
theorem calls_indexOf {n : Nat} (hnames : p.names.map (·.index) = List.range n)
    {calls : List NameId} {indices : List Nat}
    (h : calls.map some = indices.map (((List.range n).map NameId.mk)[·]?)) :
    calls.map p.indexOf = indices := by
  have hbound : ∀ i ∈ indices, i < n := by
    intro i hi
    have hfound : ((List.range n).map NameId.mk)[i]? ∈ calls.map some := h ▸ List.mem_map_of_mem hi
    obtain ⟨id, -, hid⟩ := List.mem_map.1 hfound
    simpa using (List.getElem?_eq_some_iff.1 hid.symm).1
  have hcalls : calls = indices.map NameId.mk := by
    refine List.map_injective_iff.2 (Option.some_injective _) (h.trans ?_)
    rw [List.map_map]
    exact List.map_congr_left fun i hi => by simp [hbound i hi]
  rw [hcalls, map_indexOf hnames hbound]

/-- The entries of the tables are bound to the indices that the module lists. -/
theorem tables_indexOf {n : Nat} (hnames : p.names.map (·.index) = List.range n)
    {elements : List ElementSegment}
    (hentries : p.tables.map (·.entries) = elements.map (·.functions.map NameId.mk))
    (hbounds : ∀ segment ∈ elements, ∀ index ∈ segment.functions, index < n) :
    p.tables.map (·.entries.map p.indexOf) = elements.map (·.functions) := by
  have hmap : p.tables.map (·.entries.map p.indexOf) =
      (p.tables.map (·.entries)).map (List.map p.indexOf) := by simp
  rw [hmap, hentries, List.map_map]
  exact List.map_congr_left fun segment hsegment => map_indexOf hnames (hbounds segment hsegment)

/-- The name of a function is its place. -/
theorem Stages.name_eq (h : Stages m scope imported defined tables) {i : Nat} {f : Function}
    (hf : (imported ++ defined)[i]? = some f) : f.name = ⟨i⟩ ∧ i < m.functionTypes.length := by
  have hi : i < m.functionTypes.length := by
    have hlength := congrArg List.length h.functionNames
    have := (List.getElem?_eq_some_iff.1 hf).1
    simp only [List.length_map, List.length_range] at hlength
    omega
  have hname := congrArg (·[i]?) h.functionNames
  simp only [List.getElem?_map, hf, List.getElem?_range hi, Option.map_some] at hname
  exact ⟨Option.some.inj hname, hi⟩

theorem Defines.not_imported {entries : List (FunctionCode × FuncType × NameId × String)}
    {functions : List Function} (h : List.Forall₂ (Defines scope) entries functions) :
    ∀ f ∈ functions, f.isImported = false := by
  induction h with
  | nil => nofun
  | cons hdefines _ ih =>
    obtain ⟨locals, body, hkind, -⟩ := hdefines.body
    exact List.forall_mem_cons.2 ⟨by simp [Function.isImported, hkind], ih⟩

/-- The imported functions come before the defined ones. -/
theorem Stages.isImported_iff (h : Stages m scope imported defined tables) {i : Nat} {f : Function}
    (hf : (imported ++ defined)[i]? = some f) :
    f.isImported = true ↔ i < m.importedFunctions.length := by
  rw [← h.imported_length]
  constructor
  · intro himported
    by_contra hi
    rw [List.getElem?_append_right (by omega)] at hf
    have := Defines.not_imported (defineFunctions_ok h.defined) f (List.mem_of_getElem? hf)
    simp [himported] at this
  · intro hi
    rw [List.getElem?_append_left hi] at hf
    exact (importFunctions_ok h.imported).2 f (List.mem_of_getElem? hf)

/-- Once an expansion has gone through its stages, it ends with a program whose names are bound to
its functions as the module numbers them. -/
theorem expansion_resolved (h : Stages m scope imported defined tables) :
    ∃ p, ofModule? m = .ok p ∧ p.functions = imported ++ defined ∧ p.tables = tables ∧
      Resolved m scope p := by
  obtain ⟨names, hresolve, hnodup, hindices⟩ := h.bound
  have hlength : names.length = m.functionTypes.length := by
    simpa using congrArg List.length hindices
  refine ⟨⟨imported ++ defined, globalsOf m scope.globalTypes, tables, m.segments, names⟩,
    ofModule?_eq_ok.2 ⟨scope, imported, defined, tables, names, h, hresolve, rfl⟩, rfl, rfl, ?_⟩
  constructor
  case length => simpa using congrArg List.length h.functionNames
  case index =>
    intro i f hf
    obtain ⟨hname, hi⟩ := h.name_eq hf
    rw [functionIndex, hname]
    exact indexOf_mk hindices hi
  case distinct =>
    rw [map_functionName hlength h.functionNames]
    exact hnodup
  case imported => exact fun i f hf => h.isImported_iff hf
  case calls =>
    intro i code f hcode hf
    rw [← h.imported_length, List.getElem?_append_right (Nat.le_add_right ..),
      Nat.add_sub_cancel_left] at hf
    obtain ⟨type, name, raw, -, -, locals, body, hkind, hexpand⟩ := h.defines hcode hf
    obtain ⟨ops, declared, hops, hdeclared, hbody⟩ := expandBody_ok hexpand
    have hcalls := Expr.ofOperators_calls hbody
    rw [h.names] at hcalls
    exact ⟨ops, declared, locals, body, hops, hdeclared, hkind, hbody,
      calls_indexOf hindices hcalls⟩
  case tables =>
    exact tables_indexOf hindices h.tableEntries.1 h.tableEntries.2

end

/-- A module with an import and two functions, the second of which is called what the first would be
shown as. -/
def cluttered : Module where
  types := [⟨[], []⟩]
  imports := [⟨"env", "log", .function 0⟩]
  functions := [⟨0, [], [0x10, 0x02, 0x10, 0x00, 0x0b]⟩, ⟨0, [], [0x0b]⟩]
  elements := [⟨.value (.i32 1), [2, 0, 1]⟩]
  functionNames := [(1, "12"), (2, "$func12")]

theorem expansion_resolved_cluttered :
    ∃ scope p, ofModule? cluttered = .ok p ∧ p.functions.length = 3 ∧ Resolved cluttered scope p := by
  let scope : Scope := ⟨[⟨[], []⟩], [⟨[], []⟩, ⟨[], []⟩, ⟨[], []⟩], [⟨0⟩, ⟨1⟩, ⟨2⟩], []⟩
  let calling : Expr := .block none [.call ⟨2⟩ [] .void, .call ⟨0⟩ [] .void] .void
  have hstages : Stages cluttered scope [⟨⟨0⟩, [], .void, .imported "env" "log", none⟩]
      [⟨⟨1⟩, [], .void, .defined [] calling, none⟩, ⟨⟨2⟩, [], .void, .defined [] .nop, none⟩]
      [⟨.const (.i32 1), [⟨2⟩, ⟨0⟩, ⟨1⟩]⟩] := by
    refine ⟨rfl, rfl, rfl, rfl, rfl, rfl, ?_⟩
    exact tableSegments_run [] (ofModule_raws_nodup cluttered)
      (by rw [Names.ofModule_length]; decide)
  obtain ⟨p, hp, hfunctions, -, hresolved⟩ := expansion_resolved hstages
  exact ⟨scope, p, hp, by rw [hfunctions]; rfl, hresolved⟩

end Program

end WasmLift
