import Mathlib.Data.List.Forall2
import WasmLift.Module.Decode
import WasmLift.Proofs.Outcomes

/-!
# Sections

A module is read section by section into a draft. What the content of a section adds to the draft is
said here once for all kinds of sections (`Module.Draft.Adds`): each kind has a field of its own, to
which the items are appended in order, and leaves the other fields as they are. The code section
appends the code of the functions that were declared next (`Module.readCode_ok`). So what is claimed
of a decoded module can be followed along its sections (`Module.reads_of_decode`), with one case for
each kind.
-/

namespace WasmLift

open Binary
open Binary.Reader

/-- A count and that many items. -/
def Binary.Reader.counted {α : Type} (item : Reader α) : Reader (List α) := do
  repeated item (← u32)

namespace Module

/-- What is logged as an outcome is that outcome. -/
theorem ofExcept_ok {α : Type} {x : Except Error α} {a : α} {log log' : List Event}
    (h : Logged.ofExcept x log = (.ok a, log')) : x = .ok a := by
  cases x with
  | error e => cases h
  | ok b =>
    cases h
    rfl

section
variable {α : Type} {part : Part} {item : Reader α} {step : Draft → α → Except Cause Draft}
  {input content : List UInt8} {d d' : Draft}

/-! ## Items of a section -/

/-- Items that can be read are a run through the step. -/
theorem readItems_ok {count : Nat} (h : readItems part item step count input d = .ok d') :
    ∃ items, repeated item count input = some (items, []) ∧ items.foldlM step d = .ok d' := by
  induction count generalizing input d with
  | zero =>
    unfold readItems at h
    split at h
    · next hempty =>
      cases List.isEmpty_iff.1 hempty
      cases h
      exact ⟨[], rfl, rfl⟩
    · cases h
  | succ count ih =>
    unfold readItems at h
    split at h
    · cases h
    · next a rest hitem =>
      split at h
      · cases h
      · next d₁ hstep =>
        obtain ⟨items, hitems, hfold⟩ := ih h
        refine ⟨a :: items, ?_, ?_⟩
        · change (item input).bind (fun q => (repeated item count q.2).bind
            fun q' => some (q.1 :: q'.1, q'.2)) = _
          rw [hitem, Option.bind_some, hitems]
          rfl
        · rw [List.foldlM_cons, hstep, ok_bind, hfold]

/-- A section that is read has items, which are added one by one. -/
theorem readSection_ok (h : readSection part item step content d = .ok d') :
    ∃ items, whole (counted item) content = some items ∧ items.foldlM step d = .ok d' := by
  unfold readSection at h
  split at h
  · cases h
  · next count rest hcount =>
    obtain ⟨items, hitems, hfold⟩ := readItems_ok h
    refine ⟨items, ?_, hfold⟩
    have hcounted : counted item content = some (items, []) := by
      change (u32 content).bind (fun q => repeated item q.1 q.2) = _
      rw [hcount, Option.bind_some, hitems]
    rw [whole, hcounted]

/-- A section that is skipped adds nothing. -/
theorem skipSection_ok {r : List UInt8 → Option α} (h : skipSection r content d = .ok d') :
    d' = d := by
  unfold skipSection at h
  split at h
  · cases h
    rfl
  · cases h

/-- If each step appends to a field what goes with the parts of its item, a run of steps appends, in
order, what goes with the parts of all items. -/
theorem foldlM_append {β γ : Type} (partsOf : α → List β) (R : β → γ → Prop)
    (add : Draft → List γ → Draft) (hnil : ∀ d, add d [] = d)
    (happend : ∀ d xs ys, add (add d xs) ys = add d (xs ++ ys))
    (hstep : ∀ {d : Draft} {a : α} {d' : Draft}, step d a = .ok d' →
      ∃ xs, List.Forall₂ R (partsOf a) xs ∧ d' = add d xs)
    {items : List α} (h : items.foldlM step d = .ok d') :
    ∃ xs, List.Forall₂ R (items.flatMap partsOf) xs ∧ d' = add d xs := by
  induction items generalizing d with
  | nil =>
    cases h
    exact ⟨[], .nil, (hnil _).symm⟩
  | cons a items ih =>
    obtain ⟨d₁, hfirst, hrest⟩ := bind_eq_ok.1 ((List.foldlM_cons ..).symm.trans h)
    obtain ⟨xs, hxs, rfl⟩ := hstep hfirst
    obtain ⟨ys, hys, rfl⟩ := ih hrest
    exact ⟨xs ++ ys, List.rel_append hxs hys, happend d xs ys⟩

end

section
variable {d d' : Draft}

/-- Groups of types are appended in order. -/
theorem foldlM_addTypes (groups : List (List FuncType)) (d : Draft) :
    groups.foldlM addTypes d =
      .ok { d with result.types := d.result.types ++ groups.flatten } := by
  induction groups generalizing d with
  | nil => simp [pure, Except.pure]
  | cons group groups ih => simp [List.foldlM_cons, addTypes, ih]

/-- The imports that are kept are appended in order. -/
theorem foldlM_addImport (entries : List (Option Import)) (d : Draft) :
    entries.foldlM addImport d =
      .ok { d with result.imports := d.result.imports ++ entries.flatMap Option.toList } := by
  induction entries generalizing d with
  | nil => simp [pure, Except.pure]
  | cons entry entries ih => simp [List.foldlM_cons, addImport, ih]

/-- Declared types are appended in order. -/
theorem foldlM_addDeclaration (types : List Nat) (d : Draft) :
    types.foldlM addDeclaration d = .ok { d with declared := d.declared ++ types } := by
  induction types generalizing d with
  | nil => simp [pure, Except.pure]
  | cons type types ih => simp [List.foldlM_cons, addDeclaration, ih]

/-- Exports are appended in order. -/
theorem foldlM_addExport (entries : List Export) (d : Draft) :
    entries.foldlM addExport d = .ok { d with result.exports := d.result.exports ++ entries } := by
  induction entries generalizing d with
  | nil => simp [pure, Except.pure]
  | cons entry entries ih => simp [List.foldlM_cons, addExport, ih]

/-- A global is recorded with what its constant expression is read as. -/
theorem foldlM_addGlobal {entries : List ((ValType × Bool) × List Operator)}
    (h : entries.foldlM addGlobal d = .ok d') : ∃ globals,
      List.Forall₂ (fun e g => Init.ofConstExpr e = .ok g.init) (entries.map (·.2)) globals ∧
      d' = { d with result.globals := d.result.globals ++ globals } := by
  rw [List.map_eq_flatMap]
  refine foldlM_append _ _ (fun d xs => { d with result.globals := d.result.globals ++ xs })
    (by simp) (by simp) (fun {d entry d'} hstep => ?_) h
  obtain ⟨init, hinit, hpure⟩ := bind_eq_ok.1 hstep
  cases hpure
  exact ⟨[_], .cons hinit .nil, rfl⟩

/-- An active element segment is recorded with what the expression of its offset is read as. -/
theorem foldlM_addElements {entries : List ElementEntry}
    (h : entries.foldlM addElements d = .ok d') : ∃ elements,
      List.Forall₂ (fun e s => Init.ofConstExpr e = .ok s.offset)
        (entries.flatMap fun entry => entry.placement.toList.map (·.2)) elements ∧
      d' = { d with result.elements := d.result.elements ++ elements } := by
  refine foldlM_append _ _ (fun d xs => { d with result.elements := d.result.elements ++ xs })
    (by simp) (by simp) (fun {d entry d'} hstep => ?_) h
  unfold addElements at hstep
  split at hstep
  · next hnone =>
    cases hstep
    exact ⟨[], by simp [hnone], by simp⟩
  · next table expr hsome =>
    dsimp only at hstep
    split at hstep
    · cases hstep
    · obtain ⟨offset, hoffset, hstep⟩ := bind_eq_ok.1 hstep
      obtain ⟨functions, -, hpure⟩ := bind_eq_ok.1 hstep
      cases hpure
      refine ⟨[_], ?_, rfl⟩
      rw [hsome]
      exact .cons hoffset .nil

/-- An active data segment is recorded with the address that the expression of its offset is read
as. -/
theorem foldlM_addData {entries : List DataEntry} (h : entries.foldlM addData d = .ok d') :
    ∃ segments, List.Forall₂ (fun e s => ∃ init, Init.ofConstExpr e = .ok init ∧
        dataAddress init = .ok s.offset)
        (entries.flatMap fun entry => entry.placement.toList.map (·.2)) segments ∧
      d' = { d with result.segments := d.result.segments ++ segments } := by
  refine foldlM_append _ _ (fun d xs => { d with result.segments := d.result.segments ++ xs })
    (by simp) (by simp) (fun {d entry d'} hstep => ?_) h
  unfold addData at hstep
  split at hstep
  · next hnone =>
    cases hstep
    exact ⟨[], by simp [hnone], by simp⟩
  · next memory expr hsome =>
    dsimp only at hstep
    split at hstep
    · cases hstep
    · obtain ⟨init, hinit, hstep⟩ := bind_eq_ok.1 hstep
      obtain ⟨address, haddress, hpure⟩ := bind_eq_ok.1 hstep
      cases hpure
      refine ⟨[_], ?_, rfl⟩
      rw [hsome]
      exact .cons ⟨init, hinit, haddress⟩ .nil

/-! ## Names -/

/-- Names are read into fields of their own. -/
theorem readSubsection_result (id : Nat) (content : List UInt8) (m : Module) :
    ∃ functionNames globalNames, (readSubsection id content m).1 =
      { m with functionNames := functionNames, globalNames := globalNames } := by
  unfold readSubsection
  split_ifs <;> exact ⟨_, _, rfl⟩

/-- The subsections of names change only the names. -/
theorem readSubsections_result (fuel : Nat) (input : List UInt8) (m : Module) :
    ∃ functionNames globalNames, (readSubsections fuel input m).1 =
      { m with functionNames := functionNames, globalNames := globalNames } := by
  fun_induction readSubsections fuel input m with
  | case1 | case2 | case3 => exact ⟨_, _, rfl⟩
  | case4 fuel input m _ id content rest _ m₁ hone ih =>
    obtain ⟨functionNames, globalNames, hlater⟩ := ih
    obtain ⟨functionNames', globalNames', hfirst⟩ := readSubsection_result id content m
    rw [hone] at hfirst
    subst hfirst
    exact ⟨functionNames, globalNames, hlater⟩
  | case5 fuel input m _ id content rest _ m₁ hone =>
    have hfirst := readSubsection_result id content m
    rwa [hone] at hfirst

/-! ## Kinds of sections -/

/-- What the content of a section other than the code section adds to a draft. -/
inductive Draft.Adds (d : Draft) : (id : Nat) → (content : List UInt8) → Draft → Prop where
  | names {content rest : List UInt8} {functionNames globalNames : NameMap}
      (title : text content = some ("name", rest))
      (read : (readNames rest d.result).1 =
        { d.result with functionNames := functionNames, globalNames := globalNames }) :
      Adds d 0 content { d with
        result.functionNames := functionNames
        result.globalNames := globalNames }
  | custom {content rest : List UInt8} {title : String} (found : text content = some (title, rest))
      (other : title ≠ "name") : Adds d 0 content d
  | types {content : List UInt8} {groups : List (List FuncType)}
      (read : whole (counted recGroup) content = some groups) :
      Adds d 1 content { d with result.types := d.result.types ++ groups.flatten }
  | imports {content : List UInt8} {entries : List (Option Import)}
      (read : whole (counted importEntry) content = some entries) :
      Adds d 2 content { d with
        result.imports := d.result.imports ++ entries.flatMap Option.toList }
  | declarations {content : List UInt8} {types : List Nat}
      (read : whole (counted u32) content = some types) :
      Adds d 3 content { d with declared := d.declared ++ types }
  | globals {content : List UInt8} {entries : List ((ValType × Bool) × List Operator)}
      {globals : List GlobalDefinition} (read : whole (counted globalEntry) content = some entries)
      (inits : List.Forall₂ (fun e g => Init.ofConstExpr e = .ok g.init) (entries.map (·.2))
        globals) :
      Adds d 6 content { d with result.globals := d.result.globals ++ globals }
  | exports {content : List UInt8} {entries : List Export}
      (read : whole (counted exportEntry) content = some entries) :
      Adds d 7 content { d with result.exports := d.result.exports ++ entries }
  | elements {content : List UInt8} {entries : List ElementEntry} {elements : List ElementSegment}
      (read : whole (counted elementEntry) content = some entries)
      (offsets : List.Forall₂ (fun e s => Init.ofConstExpr e = .ok s.offset)
        (entries.flatMap fun entry => entry.placement.toList.map (·.2)) elements) :
      Adds d 9 content { d with result.elements := d.result.elements ++ elements }
  | segments {content : List UInt8} {entries : List DataEntry} {segments : List DataSegment}
      (read : whole (counted dataEntry) content = some entries)
      (addresses : List.Forall₂ (fun e s => ∃ init, Init.ofConstExpr e = .ok init ∧
        dataAddress init = .ok s.offset)
        (entries.flatMap fun entry => entry.placement.toList.map (·.2)) segments) :
      Adds d 11 content { d with result.segments := d.result.segments ++ segments }
  | other {id : Nat} {content : List UInt8} (skips : id ∉ [0, 1, 2, 3, 6, 7, 9, 11]) :
      Adds d id content d

/-- A custom section adds at most names. -/
theorem adds_of_readCustom {content : List UInt8} {log log' : List Event}
    (h : readCustom content d log = (.ok d', log')) : d.Adds 0 content d' := by
  rw [readCustom] at h
  cases htext : text content with
  | none =>
    rw [htext] at h
    cases h
  | some entry =>
    obtain ⟨title, rest⟩ := entry
    simp only [htext] at h
    by_cases hname : title = "name"
    · subst hname
      rw [if_pos rfl] at h
      obtain ⟨functionNames, globalNames, hread⟩ :=
        readSubsections_result rest.length rest d.result
      have hresult : d' = { d with result := (readNames rest d.result).1 } := by
        -- the entry of the log that an incomplete section leaves changes nothing else
        by_cases hcomplete : (readNames rest d.result).2 = true
        all_goals
          simp only [hcomplete] at h
          cases h
          rfl
      rw [hresult, readNames, hread]
      exact .names htext hread
    · rw [if_neg hname] at h
      cases h
      exact .custom htext hname

/-- A section that can be read adds what its kind adds. -/
theorem adds_of_readSectionContent {id : Nat} {content : List UInt8} {log log' : List Event}
    (h : readSectionContent id content d log = (.ok d', log')) : d.Adds id content d' := by
  have hskip {α : Type} {r : List UInt8 → Option α} {id : Nat}
      (hskip : Logged.ofExcept (skipSection r content d) log = (.ok d', log'))
      (hid : id ∉ [0, 1, 2, 3, 6, 7, 9, 11]) : d.Adds id content d' := by
    rw [skipSection_ok (ofExcept_ok hskip)]
    exact .other hid
  unfold readSectionContent at h
  split at h
  · exact adds_of_readCustom h
  · obtain ⟨groups, hread, hfold⟩ := readSection_ok (ofExcept_ok h)
    rw [foldlM_addTypes] at hfold
    cases hfold
    exact .types hread
  · obtain ⟨entries, hread, hfold⟩ := readSection_ok (ofExcept_ok h)
    rw [foldlM_addImport] at hfold
    cases hfold
    exact .imports hread
  · obtain ⟨types, hread, hfold⟩ := readSection_ok (ofExcept_ok h)
    rw [foldlM_addDeclaration] at hfold
    cases hfold
    exact .declarations hread
  · exact hskip h (by decide)
  · exact hskip h (by decide)
  · exact hskip h (by decide)
  · obtain ⟨entries, hread, hfold⟩ := readSection_ok (ofExcept_ok h)
    obtain ⟨globals, hinits, rfl⟩ := foldlM_addGlobal hfold
    exact .globals hread hinits
  · obtain ⟨entries, hread, hfold⟩ := readSection_ok (ofExcept_ok h)
    rw [foldlM_addExport] at hfold
    cases hfold
    exact .exports hread
  · exact hskip h (by decide)
  · exact hskip h (by decide)
  · obtain ⟨entries, hread, hfold⟩ := readSection_ok (ofExcept_ok h)
    obtain ⟨elements, hoffsets, rfl⟩ := foldlM_addElements hfold
    exact .elements hread hoffsets
  · obtain ⟨entries, hread, hfold⟩ := readSection_ok (ofExcept_ok h)
    obtain ⟨segments, haddresses, rfl⟩ := foldlM_addData hfold
    exact .segments hread haddresses
  · cases h
    exact .other (by simp_all)

/-! ## The code section -/

/-- The code of a function goes with the next declared type. -/
theorem addCode_ok {content : List UInt8} (h : addCode d content = .ok d') :
    ∃ code, d.declared[d.result.functions.length]? = some code.type ∧
      d' = { d with result.functions := d.result.functions ++ [code] } := by
  unfold addCode at h
  split at h
  · next type htype =>
    split at h
    · obtain ⟨⟨locals, body⟩, -, hpure⟩ := bind_eq_ok.1 h
      cases hpure
      exact ⟨⟨type, locals, body⟩, htype, rfl⟩
    · cases h
  · cases h

/-- The code that is read belongs to the functions that were declared next. -/
theorem readCodeEntries_ok {count : Nat} {content : List UInt8}
    (h : readCodeEntries count content d = .ok d') : ∃ functions,
      functions.map (·.type) <+: d.declared.drop d.result.functions.length ∧
      d' = { d with result.functions := d.result.functions ++ functions } := by
  induction count generalizing content d with
  | zero =>
    unfold readCodeEntries at h
    split at h
    · cases h
      exact ⟨[], List.nil_prefix, by simp⟩
    · cases h
  | succ count ih =>
    unfold readCodeEntries at h
    split at h
    · cases h
    · obtain ⟨d₁, hadd, hrest⟩ := bind_eq_ok.1 h
      obtain ⟨code, htype, rfl⟩ := addCode_ok hadd
      obtain ⟨functions, hlater, rfl⟩ := ih hrest
      obtain ⟨hlt, htype⟩ := List.getElem?_eq_some_iff.1 htype
      refine ⟨code :: functions, ?_, by simp⟩
      rw [List.drop_eq_getElem_cons hlt, htype, List.map_cons]
      exact List.cons_prefix_cons.2 ⟨rfl, by simpa using hlater⟩

/-- The code section is not cut short, and appends the code of functions with the next declared
types. -/
theorem readCode_ok {size : Nat} {input : List UInt8} (h : readCode size input d = .ok d') :
    bytes size input = some (input.take size, input.drop size) ∧ ∃ functions,
      functions.map (·.type) <+: d.declared.drop d.result.functions.length ∧
      d' = { d with result.functions := d.result.functions ++ functions } := by
  unfold readCode at h
  dsimp only at h
  split at h
  · obtain ⟨d₁, hentries, hrest⟩ := bind_eq_ok.1 h
    split at hrest
    · cases hrest
    · next hsize =>
      cases hrest
      have hlength : (input.take size).length = size := by
        have := List.length_take_le size input
        omega
      exact ⟨by rw [bytes, if_pos hlength], readCodeEntries_ok hentries⟩
  · cases h

end

/-! ## Sections in order -/

/-- The codes and the contents of at most `fuel` sections. -/
def sectionsFrom? : (fuel : Nat) → List UInt8 → Option (List (Nat × List UInt8))
  | _, [] => some []
  | 0, _ :: _ => none
  | fuel + 1, input => do
    let ((id, size), rest) ← sectionHeader input
    let (content, rest) ← bytes size rest
    return (id, content) :: (← sectionsFrom? fuel rest)

/-- The codes and the contents of the sections of a module. -/
def sections? (input : List UInt8) : Option (List (Nat × List UInt8)) := do
  let (_, rest) ← header input
  sectionsFrom? rest.length rest

/-- Reading sections one after the other makes one draft of another. -/
inductive Reads : Draft → List (Nat × List UInt8) → Draft → Prop where
  | nil (d : Draft) : Reads d [] d
  | code {d d₁ d' : Draft} {size : Nat} {input content : List UInt8}
      {later : List (Nat × List UInt8)} :
      readCode size input d = .ok d₁ → Reads d₁ later d' → Reads d ((10, content) :: later) d'
  | other {d d₁ d' : Draft} {id : Nat} {content : List UInt8} {later : List (Nat × List UInt8)}
      {log log₁ : List Event} : readSectionContent id content d log = (.ok d₁, log₁) →
      Reads d₁ later d' → Reads d ((id, content) :: later) d'

/-- A module that is read was read section by section. -/
theorem reads_of_readSections {fuel : Nat} {input : List UInt8} {d d' : Draft}
    {log log' : List Event} (h : readSections fuel input d log = (.ok d', log')) :
    ∃ sections, sectionsFrom? fuel input = some sections ∧ Reads d sections d' := by
  induction fuel generalizing input d log with
  | zero =>
    cases input with
    | nil =>
      cases h
      exact ⟨[], rfl, .nil _⟩
    | cons => cases h
  | succ fuel ih =>
    cases input with
    | nil =>
      cases h
      exact ⟨[], rfl, .nil _⟩
    | cons b input =>
      rw [readSections] at h
      swap
      · exact List.cons_ne_nil b input
      cases hheader : sectionHeader (b :: input) with
      | none =>
        rw [hheader] at h
        cases h
      | some entry =>
        obtain ⟨⟨id, size⟩, rest⟩ := entry
        simp only [hheader] at h
        split_ifs at h with hcode
        · subst hcode
          obtain ⟨d₁, log₁, hone, hrest⟩ := bind_ok h
          obtain ⟨hbytes, -⟩ := readCode_ok (ofExcept_ok hone)
          obtain ⟨later, hlater, hreads⟩ := ih hrest
          refine ⟨(10, rest.take size) :: later, ?_, .code (ofExcept_ok hone) hreads⟩
          simp [sectionsFrom?, hheader, hbytes, hlater]
        · cases hbytes : bytes size rest with
          | none =>
            rw [hbytes] at h
            cases h
          | some cut =>
            obtain ⟨content, rest'⟩ := cut
            simp only [hbytes] at h
            obtain ⟨d₁, log₁, hone, hrest⟩ := bind_ok h
            obtain ⟨later, hlater, hreads⟩ := ih hrest
            refine ⟨(id, content) :: later, ?_, .other hone hreads⟩
            simp [sectionsFrom?, hheader, hbytes, hlater]

/-- A decoded module is what its sections make of an empty draft. -/
theorem reads_of_decode {input : List UInt8} {m : Module} (h : (decode input).start.1 = .ok m) :
    ∃ sections d, sections? input = some sections ∧ Reads {} sections d ∧ d.result = m := by
  have hstart : decode input [] = (.ok m, (decode input []).2) := Prod.ext h rfl
  rw [decode] at hstart
  cases hheader : header input with
  | none =>
    rw [hheader] at hstart
    cases hstart
  | some entry =>
    simp only [hheader] at hstart
    obtain ⟨d, log, hread, hpure⟩ := bind_ok hstart
    cases hpure
    obtain ⟨sections, hsections, hreads⟩ := reads_of_readSections hread
    exact ⟨sections, d, by rw [sections?, hheader]; exact hsections, hreads, rfl⟩

end Module

end WasmLift
