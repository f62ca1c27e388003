import WasmLift.Proofs.Module.Sections
import WasmLift.Proofs.Program.Stages

/-!
# The type index space

The types that a module declares have indices in the order of the type section, whatever kind of
type each of them is (`Declarations`, read off the bytes by `Declarations.ofBytes?`). A decoded
module keeps the function types among them only. So an index names the right type as long as all
types up to it are function types, and else a later one: a type is found as many places before its
index as there are types of other kinds before it (`decode_typeSpace`).
-/

namespace WasmLift

open Binary
open Binary.Reader

namespace Binary.Reader

/-- The types of an item of the type section, with nothing for those that are no function types. -/
def typeGroup : Reader (List (Option FuncType)) := do
  if (← peek) = 0x4e then
    let _ ← byte
    return ← vector 1000000 subType
  return [← subType]

theorem recGroup_eq : recGroup = (fun types => types.filterMap id) <$> typeGroup := by
  unfold recGroup typeGroup
  simp only [map_bind, apply_ite, map_pure]
  refine bind_congr fun code => ?_
  split
  · rfl
  · refine bind_congr fun type => ?_
    cases type <;> rfl

theorem repeated_map {α β : Type} (f : α → β) (item : Reader α) (n : Nat) :
    repeated (f <$> item) n = List.map f <$> repeated item n := by
  induction n with
  | zero => rfl
  | succ n ih => simp [repeated, ih]

theorem whole_map {α β : Type} (f : α → β) (r : Reader α) (input : List UInt8) :
    whole (f <$> r) input = (whole r input).map f := by
  have hmap : (f <$> r) input = (r input).map fun q => (f q.1, q.2) := by
    change (r input).bind (fun q => some (f q.1, q.2)) = _
    cases r input <;> rfl
  rw [whole, hmap, whole]
  rcases r input with _ | ⟨a, _ | _⟩ <;> rfl

theorem whole_counted_map {α β : Type} (f : α → β) (item : Reader α) (input : List UInt8) :
    whole (counted (f <$> item)) input = (whole (counted item) input).map (List.map f) := by
  rw [← whole_map, counted, counted, map_bind]
  simp only [repeated_map]

end Binary.Reader

namespace Module

/-! ## What the sections declare -/

/-- The type indices of the functions that imports bring in. -/
def importedTypes (entries : List (Option Import)) : List Nat :=
  importedFunctions { imports := entries.flatMap Option.toList }

/-- What the sections of a module declare: its types, with nothing for those that are no function
types, and the indices of the types of its imported and of its defined functions. -/
structure Declarations where
  types : List (Option FuncType) := []
  imported : List Nat := []
  defined : List Nat := []

namespace Declarations

/-- What two runs of sections declare, one after the other. -/
def append (x y : Declarations) : Declarations :=
  ⟨x.types ++ y.types, x.imported ++ y.imported, x.defined ++ y.defined⟩

/-- What a section declares. -/
def ofSection? (id : Nat) (content : List UInt8) : Option Declarations :=
  match id with
  | 1 => (whole (counted typeGroup) content).map fun groups => { types := groups.flatten }
  | 2 => (whole (counted importEntry) content).map fun entries =>
    { imported := importedTypes entries }
  | 3 => (whole (counted u32) content).map fun types => { defined := types }
  | _ => some {}

/-- What at most `fuel` sections declare. -/
def ofSections? : (fuel : Nat) → List UInt8 → Option Declarations
  | _, [] => some {}
  | 0, _ :: _ => none
  | fuel + 1, input => do
    let ((id, size), rest) ← sectionHeader input
    let (content, rest) ← bytes size rest
    return (← ofSection? id content).append (← ofSections? fuel rest)

theorem ofSections?_cons {fuel id size : Nat} {b : UInt8} {input rest content rest' : List UInt8}
    {here later : Declarations} (hheader : sectionHeader (b :: input) = some ((id, size), rest))
    (hbytes : bytes size rest = some (content, rest')) (hhere : ofSection? id content = some here)
    (hlater : ofSections? fuel rest' = some later) :
    ofSections? (fuel + 1) (b :: input) = some (here.append later) := by
  simp [ofSections?, hheader, hbytes, hhere, hlater]

/-- What the bytes of a module declare. -/
def ofBytes? (input : List UInt8) : Option Declarations := do
  let (_, rest) ← header input
  ofSections? rest.length rest

end Declarations

/-- The draft holds what has been declared: of the types the function types, and of the defined
functions those whose code has been read. -/
structure Draft.Holds (d : Draft) (x : Declarations) : Prop where
  types : d.result.types = x.types.filterMap id
  imported : d.result.importedFunctions = x.imported
  declared : d.declared = x.defined
  defined : d.result.functions.map (·.type) <+: x.defined

/-! ## One section -/

/-- The fields that hold declarations are those of the draft before. -/
structure Draft.Same (d d' : Draft) : Prop where
  types : d'.result.types = d.result.types
  imports : d'.result.imports = d.result.imports
  declared : d'.declared = d.declared
  functions : d'.result.functions = d.result.functions

/-- A draft that has been added what a section declares holds that, too. -/
theorem Draft.Holds.extend {d d' : Draft} {x here : Declarations} (h : d.Holds x)
    (htypes : d'.result.types = d.result.types ++ here.types.filterMap id)
    (himported : d'.result.importedFunctions = d.result.importedFunctions ++ here.imported)
    (hdeclared : d'.declared = d.declared ++ here.defined)
    (hfunctions : d'.result.functions = d.result.functions) : d'.Holds (x.append here) := by
  refine ⟨?_, ?_, ?_, ?_⟩
  · rw [htypes, h.types, Declarations.append, List.filterMap_append]
  · rw [himported, h.imported, Declarations.append]
  · rw [hdeclared, h.declared, Declarations.append]
  · rw [hfunctions]
    exact h.defined.trans (List.prefix_append ..)

theorem Draft.Holds.same {d d' : Draft} {x : Declarations} (h : d.Holds x) (hsame : d.Same d') :
    d'.Holds (x.append {}) := by
  refine h.extend ?_ ?_ ?_ hsame.functions
  · simp [hsame.types]
  · simp [importedFunctions, hsame.imports]
  · simp [hsame.declared]

section
variable {d d' : Draft} {x : Declarations}

/-- A section adds to a draft what it declares. -/
theorem Draft.Adds.holds {id : Nat} {content : List UInt8} (h : d.Adds id content d')
    (hx : d.Holds x) :
    ∃ here, Declarations.ofSection? id content = some here ∧ d'.Holds (x.append here) := by
  cases h with
  | types read =>
    rw [recGroup_eq, whole_counted_map, Option.map_eq_some_iff] at read
    obtain ⟨groups, hgroups, rfl⟩ := read
    refine ⟨{ types := groups.flatten }, by rw [Declarations.ofSection?, hgroups]; rfl, ?_⟩
    refine hx.extend ?_ (List.append_nil _).symm (List.append_nil _).symm rfl
    rw [List.filterMap_flatten]
  | @imports content entries read =>
    refine ⟨{ imported := importedTypes entries }, by rw [Declarations.ofSection?, read]; rfl, ?_⟩
    refine hx.extend (List.append_nil _).symm ?_ (List.append_nil _).symm rfl
    simp only [importedTypes, importedFunctions, List.filterMap_append]
  | @declarations content types read =>
    refine ⟨{ defined := types }, by rw [Declarations.ofSection?, read]; rfl, ?_⟩
    exact hx.extend (List.append_nil _).symm (List.append_nil _).symm rfl rfl
  | other skips =>
    refine ⟨{}, ?_, hx.same ⟨rfl, rfl, rfl, rfl⟩⟩
    unfold Declarations.ofSection?
    split <;> first | rfl | simp at skips
  | names | custom | globals | exports | elements | segments =>
    exact ⟨{}, rfl, hx.same ⟨rfl, rfl, rfl, rfl⟩⟩

/-- The code of functions goes with the next declared types. -/
theorem Draft.Holds.readCode {size : Nat} {input : List UInt8} (h : d.Holds x)
    (hread : readCode size input d = .ok d') : d'.Holds x := by
  obtain ⟨-, functions, htypes, rfl⟩ := readCode_ok hread
  refine ⟨h.types, h.imported, h.declared, ?_⟩
  obtain ⟨later, hlater⟩ := h.defined
  have hnext : d.declared.drop d.result.functions.length = later := by
    rw [h.declared, ← hlater, List.drop_left' (List.length_map _)]
  rw [hnext] at htypes
  rw [← hlater, List.map_append]
  exact (List.prefix_append_right_inj _).2 htypes

/-! ## The whole module -/

/-- Sections one after the other add to a draft what they declare. -/
theorem Draft.Holds.reads {fuel : Nat} {input : List UInt8} {sections : List (Nat × List UInt8)}
    (h : d.Holds x) (hsections : sectionsFrom? fuel input = some sections)
    (hreads : Reads d sections d') :
    ∃ later, Declarations.ofSections? fuel input = some later ∧ d'.Holds (x.append later) := by
  induction fuel generalizing input sections d x with
  | zero =>
    cases input with
    | nil =>
      cases hsections
      cases hreads
      exact ⟨{}, rfl, h.same ⟨rfl, rfl, rfl, rfl⟩⟩
    | cons => cases hsections
  | succ fuel ih =>
    cases input with
    | nil =>
      cases hsections
      cases hreads
      exact ⟨{}, rfl, h.same ⟨rfl, rfl, rfl, rfl⟩⟩
    | cons b input =>
      rw [sectionsFrom?] at hsections
      swap
      · exact List.cons_ne_nil b input
      obtain ⟨⟨⟨id, size⟩, rest⟩, hheader, hcut⟩ := Option.bind_eq_some_iff.1 hsections
      obtain ⟨⟨content, rest'⟩, hbytes, hmore⟩ := Option.bind_eq_some_iff.1 hcut
      obtain ⟨later, hlater, hpure⟩ := Option.bind_eq_some_iff.1 hmore
      cases hpure
      cases hreads with
      | code hcode hreads =>
        obtain ⟨declared, hdeclared, hlast⟩ := ih (h.readCode hcode) hlater hreads
        exact ⟨_, Declarations.ofSections?_cons hheader hbytes rfl hdeclared, hlast⟩
      | other hone hreads =>
        obtain ⟨here, hhere, hone⟩ := (adds_of_readSectionContent hone).holds h
        obtain ⟨declared, hdeclared, hlast⟩ := ih hone hlater hreads
        refine ⟨_, Declarations.ofSections?_cons hheader hbytes hhere hdeclared, ?_⟩
        simpa [Declarations.append] using hlast

end

/-- A decoded module holds what its bytes declare. -/
theorem holds_of_decode {input : List UInt8} {m : Module} (h : (decode input).start.1 = .ok m) :
    ∃ x, Declarations.ofBytes? input = some x ∧ m.types = x.types.filterMap id ∧
      m.functionTypes <+: x.imported ++ x.defined := by
  obtain ⟨sections, d, hsections, hreads, rfl⟩ := reads_of_decode h
  obtain ⟨⟨_, rest⟩, hheader, hfrom⟩ := Option.bind_eq_some_iff.1 hsections
  have hempty : ({} : Draft).Holds {} := ⟨rfl, rfl, rfl, List.prefix_refl _⟩
  obtain ⟨x, hx, hholds⟩ := hempty.reads hfrom hreads
  refine ⟨x, by rw [Declarations.ofBytes?, hheader]; exact hx, hholds.types, ?_⟩
  rw [functionTypes, hholds.imported]
  exact (List.prefix_append_right_inj _).2 hholds.defined

/-! ## Lookups by type index -/

/-- Among the function types, a type comes as many places before its index as there are types of
other kinds before it. -/
theorem getElem?_filterMap_id {types : List (Option FuncType)} {t : Nat} {type : FuncType}
    (h : types[t]? = some (some type)) :
    (types.filterMap id)[(types.take t).countP Option.isSome]? = some type := by
  induction types generalizing t with
  | nil => cases h
  | cons first types ih =>
    cases t with
    | zero =>
      cases h
      rfl
    | succ t =>
      cases first with
      | none => simpa using ih h
      | some _ => simpa using ih h

/-- An index names the right type if no type up to it is of another kind. -/
theorem getElem?_filterMap_id_of_all {types : List (Option FuncType)} {t : Nat}
    (h : ∀ u ≤ t, types[u]? ≠ some none) : (types.filterMap id)[t]? = types[t]?.join := by
  by_cases ht : t < types.length
  · have hall : (types.take t).countP Option.isSome = t := by
      rw [List.countP_eq_length.2, List.length_take_of_le (Nat.le_of_lt ht)]
      intro type htype
      obtain ⟨u, hu, rfl⟩ := List.mem_take_iff_getElem.1 htype
      rw [Option.isSome_iff_ne_none]
      intro hnone
      exact h u (by omega) (by rw [List.getElem?_eq_getElem (by omega), hnone])
    cases hty : types[t] with
    | none => exact absurd (by rw [List.getElem?_eq_getElem ht, hty]) (h t (Nat.le_refl t))
    | some type =>
      have hfound : types[t]? = some (some type) := by rw [List.getElem?_eq_getElem ht, hty]
      have := getElem?_filterMap_id hfound
      rw [hall] at this
      rw [this, hfound, Option.join_some]
  · have hle : (types.filterMap id).length ≤ types.length := List.length_filterMap_le ..
    rw [List.getElem?_eq_none (by omega), List.getElem?_eq_none (by omega), Option.join_none]

/-- The types of a decoded module are the function types that its bytes declare, each as many places
before its index as there are types of other kinds before it. So where no type up to an index is of
another kind, a function declared with that index gets the type that the module declares, and so do
a call through a table and a block, which look the index up among the types in scope. -/
theorem decode_typeSpace {input : List UInt8} {m : Module} (h : (decode input).start.1 = .ok m) :
    ∃ x, Declarations.ofBytes? input = some x ∧ m.functionTypes <+: x.imported ++ x.defined ∧
      (∀ t type, x.types[t]? = some (some type) →
        m.types[(x.types.take t).countP Option.isSome]? = some type) ∧
      ∀ t, (∀ u ≤ t, x.types[u]? ≠ some none) →
        (∀ i, m.functionTypes[i]? = some t → m.funcType? i = x.types[t]?.join) ∧
        ∀ scope imported defined tables, Program.Stages m scope imported defined tables →
          scope.types[t]? = x.types[t]?.join := by
  obtain ⟨x, hx, htypes, hfunctions⟩ := holds_of_decode h
  refine ⟨x, hx, hfunctions, fun t type ht => htypes ▸ getElem?_filterMap_id ht, fun t ht => ?_⟩
  have hlookup : m.types[t]? = x.types[t]?.join := htypes ▸ getElem?_filterMap_id_of_all ht
  refine ⟨fun i hi => ?_, fun scope imported defined tables hstages => ?_⟩
  · rw [funcType?, hi]
    exact hlookup
  · rw [hstages.declared, hlookup]

/-- A module of one function with an empty body, of the type with the index. Its types are those in
the bytes of the type section. -/
def soleFunction (types : List UInt8) (index : UInt8) : List UInt8 :=
  [0x00, 0x61, 0x73, 0x6d, 1, 0, 0, 0] ++ [1, types.length.toUInt8] ++ types ++
    [3, 2, 1, index] ++ [10, 4, 1, 2, 0, 0x0b]

/-- The function's type comes before a structure. -/
theorem decode_typeSpace_before :
    ∃ m, (decode (soleFunction [2, 0x60, 1, 0x7f, 0, 0x5f, 0] 0)).start.1 = .ok m ∧
      m.funcType? 0 = some ⟨[.i32], []⟩ := by
  have hdecode : (decode (soleFunction [2, 0x60, 1, 0x7f, 0, 0x5f, 0] 0)).start.1 =
      .ok ⟨[⟨[.i32], []⟩], [], [⟨0, [], [0x0b]⟩], [], [], [], [], [], []⟩ := rfl
  refine ⟨_, hdecode, ?_⟩
  obtain ⟨x, hx, -, -, hindex⟩ := decode_typeSpace hdecode
  cases hx.symm.trans (rfl : _ = some (⟨[some ⟨[.i32], []⟩, none], [], [0]⟩ : Declarations))
  refine (hindex 0 fun u hu => ?_).1 0 rfl
  cases Nat.le_zero.1 hu
  nofun

/-- The function's type comes after a structure: the function gets the type after its own. -/
theorem funcType_after_structure :
    ∃ m x, (decode (soleFunction [3, 0x5f, 0, 0x60, 1, 0x7f, 0, 0x60, 0, 0] 1)).start.1 = .ok m ∧
      Declarations.ofBytes? (soleFunction [3, 0x5f, 0, 0x60, 1, 0x7f, 0, 0x60, 0, 0] 1) = some x ∧
      m.functionTypes[0]? = some 1 ∧ x.types[1]? = some (some ⟨[.i32], []⟩) ∧
      m.funcType? 0 = some ⟨[], []⟩ :=
  ⟨⟨[⟨[.i32], []⟩, ⟨[], []⟩], [], [⟨1, [], [0x0b]⟩], [], [], [], [], [], []⟩,
    ⟨[none, some ⟨[.i32], []⟩, some ⟨[], []⟩], [], [1]⟩, rfl, rfl, rfl, rfl, rfl⟩

end Module

end WasmLift
