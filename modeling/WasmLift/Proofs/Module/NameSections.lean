import WasmLift.Proofs.Module.Sections

/-!
# Name sections

A name section is a run of subsections, two kinds of which hold names: of functions and of globals.
Its entries, all or none of them, are read by `Module.nameEntries?`. Entries are kept one by one
while a section is being read, so one that breaks off leaves those in front of the fault
(`Module.entriesRead`), and they are all there are if the section is read without a fault
(`Module.readNames_eq`). A decoded module has for each index the name that the last of the entries
gives it that are read from its name sections (`Module.decode_names`), which may be one of a section
that breaks off (`Module.decode_names_abandoned`).
-/

namespace WasmLift

open Binary
open Binary.Reader

namespace NameMap

/-- The naming put in front hides those of the same index. -/
theorem get?_cons (i j : Nat) (name : String) (rest : NameMap) :
    get? ((i, name) :: rest) j = if j = i then some name else get? rest j := by
  rw [get?, List.lookup_cons]
  by_cases hj : j = i
  · simp [hj]
  · rw [if_neg hj, beq_false_of_ne hj]
    rfl

/-- A name replaces the one that its index had, and no other. -/
theorem get?_insert (names : NameMap) (i j : Nat) (name : String) :
    (names.insert i name).get? j = if j = i then some name else names.get? j := by
  induction names with
  | nil => simp [insert, get?_cons]
  | cons entry rest ih =>
    obtain ⟨k, n⟩ := entry
    rw [insert]
    by_cases hlt : i < k
    · rw [if_pos hlt, get?_cons]
    · by_cases heq : i = k
      · subst heq
        rw [if_neg hlt, if_pos rfl, get?_cons, get?_cons]
        split <;> rfl
      · rw [if_neg hlt, if_neg heq, get?_cons, ih, get?_cons]
        by_cases hj : j = k
        · rw [if_pos hj, if_neg (by omega), if_pos hj]
        · simp only [if_neg hj]

end NameMap

namespace Module

/-! ## Entries -/

/-- What a name section names. -/
inductive NameKind where
  | function
  | global
deriving DecidableEq

/-- An entry of a name section. -/
structure NameEntry where
  kind : NameKind
  index : Nat
  name : String
deriving DecidableEq

/-- The name of a function or a global. -/
def name? (m : Module) : NameKind → Nat → Option String
  | .function, index => m.functionNames.get? index
  | .global, index => m.globalNames.get? index

/-- The name that the last entry for an index gives it. -/
def lastName? : List NameEntry → NameKind → Nat → Option String
  | [], _, _ => none
  | e :: rest, kind, index =>
    (lastName? rest kind index).or
      (if kind = e.kind ∧ index = e.index then some e.name else none)

/-- The last name in two lists is the last of the second, if it has one. -/
theorem lastName?_append (xs ys : List NameEntry) (kind : NameKind) (index : Nat) :
    lastName? (xs ++ ys) kind index = (lastName? ys kind index).or (lastName? xs kind index) := by
  induction xs with
  | nil => simp [lastName?]
  | cons e xs ih => simp [lastName?, ih, Option.or_assoc]

/-- Keeps an entry. -/
def addName (m : Module) (e : NameEntry) : Module :=
  match e.kind with
  | .function => { m with functionNames := m.functionNames.insert e.index e.name }
  | .global => { m with globalNames := m.globalNames.insert e.index e.name }

/-- Keeps entries, one after the other. -/
def addNames (m : Module) (entries : List NameEntry) : Module :=
  entries.foldl addName m

/-- An added entry names its index and leaves other names alone. -/
theorem name?_addName (m : Module) (e : NameEntry) (kind : NameKind) (index : Nat) :
    (m.addName e).name? kind index =
      if kind = e.kind ∧ index = e.index then some e.name else m.name? kind index := by
  obtain ⟨kind', index', name⟩ := e
  cases kind' <;> cases kind <;> simp [addName, name?, NameMap.get?_insert]

/-- Added entries name an index by the last of them for it, if there is one. -/
theorem name?_addNames (m : Module) (entries : List NameEntry) (kind : NameKind) (index : Nat) :
    (m.addNames entries).name? kind index =
      (lastName? entries kind index).or (m.name? kind index) := by
  induction entries generalizing m with
  | nil => rfl
  | cons e rest ih =>
    rw [addNames, List.foldl_cons, ← addNames, ih, name?_addName, lastName?, Option.or_assoc]
    split <;> rfl

/-! ## Subsections -/

/-- What a subsection names, if it holds names that are kept. -/
def namedKind? : Nat → Option NameKind
  | 1 => some .function
  | 7 => some .global
  | _ => none

/-- The entries of a subsection, if it is well-formed. -/
def subsectionEntries? (id : Nat) (content : List UInt8) : Option (List NameEntry) :=
  match namedKind? id with
  | some kind => (whole (counted naming) content).map fun namings =>
    namings.map fun n => ⟨kind, n.1, n.2⟩
  | none =>
    if id = 0 then (whole longText content).map fun _ => []
    else if id ≤ 11 then (u32 content).map fun _ => []
    else some []

/-- The codes and the contents of at most `fuel` subsections. -/
def subsectionsFrom? : (fuel : Nat) → List UInt8 → Option (List (Nat × List UInt8))
  | _, [] => some []
  | 0, _ :: _ => none
  | fuel + 1, input => do
    let (entry, rest) ← subsection input
    return entry :: (← subsectionsFrom? fuel rest)

/-- The entries of at most `fuel` subsections, if they are all well-formed. -/
def entriesFrom? (fuel : Nat) (input : List UInt8) : Option (List NameEntry) := do
  let parts ← (← subsectionsFrom? fuel input).mapM fun s => subsectionEntries? s.1 s.2
  return parts.flatten

/-- The entries of a name section, if it is well-formed. -/
def nameEntries? (content : List UInt8) : Option (List NameEntry) :=
  entriesFrom? content.length content

/-- The namings in front of the first that cannot be read, out of `count`. -/
def namingsRead : (count : Nat) → List UInt8 → List (Nat × String)
  | 0, _ => []
  | count + 1, input =>
    match naming input with
    | none => []
    | some (entry, rest) => entry :: namingsRead count rest

/-- The entries of a subsection in front of its first fault. -/
def subsectionEntriesRead (id : Nat) (content : List UInt8) : List NameEntry :=
  match namedKind? id, u32 content with
  | some kind, some (count, rest) => (namingsRead count rest).map fun n => ⟨kind, n.1, n.2⟩
  | _, _ => []

/-- The entries in front of the first fault in at most `fuel` subsections. -/
def entriesReadFrom : (fuel : Nat) → List UInt8 → List NameEntry
  | 0, _ => []
  | fuel + 1, input =>
    match subsection input with
    | none => []
    | some ((id, content), rest) =>
      subsectionEntriesRead id content ++
        if (subsectionEntries? id content).isSome then entriesReadFrom fuel rest else []

/-- The entries of a name section in front of its first fault. -/
def entriesRead (content : List UInt8) : List NameEntry :=
  entriesReadFrom content.length content

/-- One item more is read in front of the rest. -/
theorem repeated_succ {α : Type} (item : Reader α) (count : Nat) (input : List UInt8) :
    repeated item (count + 1) input = (item input).bind fun q =>
      (repeated item count q.2).bind fun q' => some (q.1 :: q'.1, q'.2) :=
  rfl

/-- A counted list is its count and that many items. -/
theorem counted_eq {α : Type} (item : Reader α) (content : List UInt8) :
    counted item content = (u32 content).bind fun q => repeated item q.1 q.2 :=
  rfl

/-- A counted list takes all of its content if the items behind the count do. -/
theorem whole_counted {α : Type} {item : Reader α} {content rest : List UInt8} {count : Nat}
    (hcount : u32 content = some (count, rest)) :
    whole (counted item) content = whole (repeated item count) rest := by
  rw [whole, counted_eq, hcount, Option.bind_some, whole]

/-- Without a count nothing is read. -/
theorem whole_counted_none {α : Type} {item : Reader α} {content : List UInt8}
    (hcount : u32 content = none) : whole (counted item) content = none := by
  rw [whole, counted_eq, hcount, Option.bind_none]

/-- Items take all of the input if those after the first take the rest. -/
theorem whole_repeated_succ {α : Type} {item : Reader α} {input rest : List UInt8} {a : α}
    (hitem : item input = some (a, rest)) (count : Nat) :
    whole (repeated item (count + 1)) input = (whole (repeated item count) rest).map (a :: ·) := by
  rw [whole, repeated_succ, hitem, Option.bind_some, whole]
  rcases repeated item count rest with _ | ⟨as, _ | _⟩ <;> rfl

/-- Namings are kept one by one, and they are all of them if none has a fault. -/
theorem readNamings_eq (count : Nat) (input : List UInt8) (names : NameMap) :
    readNamings count input names =
        ((namingsRead count input).foldl (fun names n => names.insert n.1 n.2) names,
          (whole (repeated naming count) input).isSome) ∧
      ∀ namings, whole (repeated naming count) input = some namings →
        namingsRead count input = namings := by
  induction count generalizing input names with
  | zero =>
    cases input with
    | nil => exact ⟨rfl, by rintro _ ⟨⟩; rfl⟩
    | cons => exact ⟨rfl, by rintro _ ⟨⟩⟩
  | succ count ih =>
    cases hnaming : naming input with
    | none =>
      have hwhole : whole (repeated naming (count + 1)) input = none := by
        rw [whole, repeated_succ, hnaming, Option.bind_none]
      rw [hwhole]
      exact ⟨by rw [readNamings, namingsRead, hnaming]; rfl, by rintro _ ⟨⟩⟩
    | some entry =>
      obtain ⟨⟨index, name⟩, rest⟩ := entry
      obtain ⟨hread, hall⟩ := ih rest (names.insert index name)
      rw [whole_repeated_succ hnaming, Option.isSome_map]
      refine ⟨?_, fun namings hnamings => ?_⟩
      · simp only [readNamings, namingsRead, hnaming, hread, List.foldl_cons]
      · obtain ⟨later, hlater, rfl⟩ := Option.map_eq_some_iff.1 hnamings
        simp only [namingsRead, hnaming, hall later hlater]

/-- A name map keeps the namings that can be read, and is in order if they take all of the content.
-/
theorem readNameMap_eq (content : List UInt8) (names : NameMap) :
    readNameMap content names =
      ((((u32 content).map fun q => namingsRead q.1 q.2).getD []).foldl
          (fun names n => names.insert n.1 n.2) names,
        (whole (counted naming) content).isSome) := by
  unfold readNameMap
  cases hcount : u32 content with
  | none => rw [whole_counted_none hcount]; rfl
  | some q =>
    rw [whole_counted hcount]
    exact (readNamings_eq q.1 q.2 names).1

/-- Namings of functions are inserted one by one. -/
theorem addNames_functions (m : Module) (namings : List (Nat × String)) :
    m.addNames (namings.map fun n => ⟨.function, n.1, n.2⟩) =
      { m with
        functionNames := namings.foldl (fun names n => names.insert n.1 n.2) m.functionNames } := by
  induction namings generalizing m with
  | nil => rfl
  | cons n rest ih => exact ih _

/-- Namings of globals are inserted one by one. -/
theorem addNames_globals (m : Module) (namings : List (Nat × String)) :
    m.addNames (namings.map fun n => ⟨.global, n.1, n.2⟩) =
      { m with
        globalNames := namings.foldl (fun names n => names.insert n.1 n.2) m.globalNames } := by
  induction namings generalizing m with
  | nil => rfl
  | cons n rest ih => exact ih _

/-- No other subsection holds names. -/
theorem namedKind?_other {id : Nat} (hfunctions : id ≠ 1) (hglobals : id ≠ 7) :
    namedKind? id = none := by
  unfold namedKind?
  split
  · contradiction
  · contradiction
  · rfl

/-- A subsection that holds names has an entry for every naming that can be read. -/
theorem subsectionEntriesRead_named {id : Nat} {kind : NameKind} (hkind : namedKind? id = some kind)
    (content : List UInt8) : subsectionEntriesRead id content =
      (((u32 content).map fun q => namingsRead q.1 q.2).getD []).map fun n =>
        ⟨kind, n.1, n.2⟩ := by
  rw [subsectionEntriesRead, hkind]
  cases u32 content <;> rfl

/-- A subsection leaves its entries in front of the first fault. -/
theorem readSubsection_eq (id : Nat) (content : List UInt8) (m : Module) :
    readSubsection id content m =
      (m.addNames (subsectionEntriesRead id content), (subsectionEntries? id content).isSome) := by
  by_cases hfunctions : id = 1
  · subst hfunctions
    rw [subsectionEntriesRead_named rfl, addNames_functions]
    simp [readSubsection, readNameMap_eq, subsectionEntries?, namedKind?]
  by_cases hglobals : id = 7
  · subst hglobals
    rw [subsectionEntriesRead_named rfl, addNames_globals]
    simp [readSubsection, readNameMap_eq, subsectionEntries?, namedKind?]
  · have hkind := namedKind?_other hfunctions hglobals
    rw [subsectionEntriesRead, subsectionEntries?, readSubsection]
    simp only [hkind, if_neg hfunctions, if_neg hglobals]
    split_ifs <;> simp [addNames]

/-- They are all of its entries if there is no fault. -/
theorem subsectionEntriesRead_eq {id : Nat} {content : List UInt8} {entries : List NameEntry}
    (h : subsectionEntries? id content = some entries) :
    subsectionEntriesRead id content = entries := by
  unfold subsectionEntries? at h
  cases hkind : namedKind? id with
  | none =>
    simp only [hkind] at h
    have hempty : entries = [] := by
      split_ifs at h
      · obtain ⟨_, -, rfl⟩ := Option.map_eq_some_iff.1 h
        rfl
      · obtain ⟨_, -, rfl⟩ := Option.map_eq_some_iff.1 h
        rfl
      · exact (Option.some.inj h).symm
    rw [hempty, subsectionEntriesRead, hkind]
  | some kind =>
    simp only [hkind] at h
    obtain ⟨namings, hnamings, rfl⟩ := Option.map_eq_some_iff.1 h
    rw [subsectionEntriesRead_named hkind]
    cases hcount : u32 content with
    | none =>
      rw [whole_counted_none hcount] at hnamings
      cases hnamings
    | some q =>
      rw [whole_counted hcount] at hnamings
      rw [Option.map_some, Option.getD_some, (readNamings_eq q.1 q.2 []).2 namings hnamings]

/-! ## Sections -/

/-- Entries may be added in two parts. -/
theorem addNames_append (m : Module) (xs ys : List NameEntry) :
    m.addNames (xs ++ ys) = (m.addNames xs).addNames ys :=
  List.foldl_append

/-- A section is read one subsection after the other. -/
theorem entriesFrom?_succ {fuel : Nat} {b : UInt8} {input : List UInt8} :
    entriesFrom? (fuel + 1) (b :: input) = (subsection (b :: input)).bind fun s =>
      (subsectionEntries? s.1.1 s.1.2).bind fun here =>
        (entriesFrom? fuel s.2).map (here ++ ·) := by
  rw [entriesFrom?, subsectionsFrom?]
  · cases subsection (b :: input) with
    | none => rfl
    | some s =>
      simp only [entriesFrom?, Option.bind_eq_bind, Option.bind_some]
      cases subsectionsFrom? fuel s.2 with
      | none => cases subsectionEntries? s.1.1 s.1.2 <;> rfl
      | some later =>
        cases hhere : subsectionEntries? s.1.1 s.1.2 with
        | none => simp [hhere]
        | some here =>
          cases hlater : later.mapM fun s => subsectionEntries? s.1 s.2 <;> simp [hhere, hlater]
  · exact List.cons_ne_nil b input

/-- Subsections leave their entries in front of the first fault, and these are all of them if there
is no fault. -/
theorem readSubsections_eq (fuel : Nat) (input : List UInt8) (m : Module) :
    readSubsections fuel input m =
        (m.addNames (entriesReadFrom fuel input), (entriesFrom? fuel input).isSome) ∧
      ∀ entries, entriesFrom? fuel input = some entries →
        entriesReadFrom fuel input = entries := by
  induction fuel generalizing input m with
  | zero =>
    cases input with
    | nil => exact ⟨rfl, by rintro _ ⟨⟩; rfl⟩
    | cons b input => exact ⟨rfl, by rintro _ ⟨⟩⟩
  | succ fuel ih =>
    cases input with
    | nil => exact ⟨rfl, by rintro _ ⟨⟩; rfl⟩
    | cons b input =>
      rw [entriesFrom?_succ, entriesReadFrom, readSubsections]
      · cases hsub : subsection (b :: input) with
        | none => exact ⟨rfl, by rintro _ ⟨⟩⟩
        | some s =>
          obtain ⟨⟨id, content⟩, rest⟩ := s
          simp only [Option.bind_some, readSubsection_eq]
          cases hhere : subsectionEntries? id content with
          | none => exact ⟨by simp, by rintro _ ⟨⟩⟩
          | some here =>
            obtain ⟨hread, hall⟩ := ih rest (m.addNames here)
            simp only [subsectionEntriesRead_eq hhere, Option.isSome_some, Option.bind_some,
              Option.isSome_map, if_true, addNames_append, hread, true_and]
            intro entries hentries
            obtain ⟨later, hlater, rfl⟩ := Option.map_eq_some_iff.1 hentries
            rw [hall later hlater]
      · exact List.cons_ne_nil b input

/-- A name section leaves its entries in front of the first fault. It is read to its end exactly if
it is well-formed, and then these are all of its entries. -/
theorem readNames_eq (content : List UInt8) (m : Module) :
    readNames content m = (m.addNames (entriesRead content), (nameEntries? content).isSome) ∧
      ∀ entries, nameEntries? content = some entries → entriesRead content = entries :=
  readSubsections_eq content.length content m

/-- The content of a name section behind its title. -/
def nameSection? (section_ : Nat × List UInt8) : Option (List UInt8) :=
  if section_.1 = 0 then do
    let (title, rest) ← text section_.2
    if title = "name" then some rest else none
  else none

/-- What a section leaves of names. -/
def namesRead (section_ : Nat × List UInt8) : List NameEntry :=
  ((nameSection? section_).map entriesRead).getD []

/-- Only custom sections hold names. -/
theorem namesRead_other {id : Nat} (hid : id ≠ 0) (content : List UInt8) :
    namesRead (id, content) = [] := by
  rw [namesRead, nameSection?, if_neg hid]
  rfl

/-- A section gives names in place of those that its indices had. -/
theorem Draft.Adds.name? {id : Nat} {content : List UInt8} {d d' : Draft}
    (h : d.Adds id content d') (kind : NameKind) (index : Nat) :
    d'.result.name? kind index = (lastName? (namesRead (id, content)) kind index).or
      (d.result.name? kind index) := by
  cases h with
  | @names _ rest _ _ title read =>
    rw [(readNames_eq rest d.result).1] at read
    rw [← name?_addNames, namesRead, nameSection?, if_pos rfl, title]
    exact congrArg (Module.name? · kind index) read.symm
  | custom found other => simp [namesRead, nameSection?, found, other, lastName?]
  | other skips =>
    rw [namesRead_other fun hid => skips (hid ▸ .head _)]
    rfl
  | types | imports | declarations | globals | exports | elements | segments =>
    rw [namesRead_other (by decide)]
    rfl

/-! ## The whole module -/

/-- Over a run of sections, an index has the last name that one of them gives it, or its old one. -/
theorem name?_reads {sections : List (Nat × List UInt8)} {d d' : Draft}
    (hreads : Reads d sections d') (kind : NameKind) (index : Nat) :
    d'.result.name? kind index = (lastName? (sections.flatMap namesRead) kind index).or
      (d.result.name? kind index) := by
  induction hreads with
  | nil => rfl
  | code hcode _ ih =>
    obtain ⟨-, functions, -, rfl⟩ := readCode_ok hcode
    rw [ih, List.flatMap_cons, namesRead_other (by decide), List.nil_append]
    rfl
  | other hone _ ih =>
    rw [ih, (adds_of_readSectionContent hone).name?, List.flatMap_cons, lastName?_append,
      Option.or_assoc]

/-- The contents of the name sections of a module. -/
def nameSections (sections : List (Nat × List UInt8)) : List (List UInt8) :=
  sections.filterMap nameSection?

/-- Only name sections hold names. -/
theorem flatMap_namesRead (sections : List (Nat × List UInt8)) :
    sections.flatMap namesRead = (nameSections sections).flatMap entriesRead := by
  induction sections with
  | nil => rfl
  | cons s rest ih =>
    rw [List.flatMap_cons, ih, namesRead]
    simp only [nameSections]
    cases hs : nameSection? s with
    | none => simp [List.filterMap_cons_none hs]
    | some content => simp [List.filterMap_cons_some hs]

/-- A decoded module has for each index the name of the last entry that is read for it. A name
section that is read to its end is well-formed, and all of its entries are read. One that breaks off
is not left out as a whole: the module has the same names as one of the same name sections but for
this one exactly at the indices that a later section names, that no entry in front of the fault
names, or that are given the name that they had. -/
theorem decode_names {input : List UInt8} {m : Module} (h : (decode input).start.1 = .ok m) :
    ∃ sections, sections? input = some sections ∧
      (∀ kind index, m.name? kind index =
        lastName? ((nameSections sections).flatMap entriesRead) kind index) ∧
      ∀ before content after, nameSections sections = before ++ content :: after →
        (∀ m', (readNames content m').2 = (nameEntries? content).isSome) ∧
        (∀ entries, nameEntries? content = some entries → entriesRead content = entries) ∧
        ∀ input' sections' m', sections? input' = some sections' →
          nameSections sections' = before ++ after → (decode input').start.1 = .ok m' →
          ∀ kind index, m.name? kind index = m'.name? kind index ↔
            (lastName? (after.flatMap entriesRead) kind index).isSome ∨
            lastName? (entriesRead content) kind index = none ∨
            lastName? (entriesRead content) kind index =
              lastName? (before.flatMap entriesRead) kind index := by
  have hnames {input : List UInt8} {m : Module} (h : (decode input).start.1 = .ok m) :
      ∃ sections, sections? input = some sections ∧ ∀ kind index, m.name? kind index =
        lastName? ((nameSections sections).flatMap entriesRead) kind index := by
    obtain ⟨sections, d, hsections, hreads, rfl⟩ := reads_of_decode h
    refine ⟨sections, hsections, fun kind index => ?_⟩
    rw [name?_reads hreads, flatMap_namesRead]
    cases kind <;> exact Option.or_none
  obtain ⟨sections, hsections, hname⟩ := hnames h
  refine ⟨sections, hsections, hname, fun before content after hcut =>
    ⟨fun m' => congrArg Prod.snd (readNames_eq content m').1, (readNames_eq content {}).2,
      fun input' sections' m' hsections' hcut' h' kind index => ?_⟩⟩
  obtain ⟨_, hagain, hname'⟩ := hnames h'
  cases hsections'.symm.trans hagain
  rw [hname, hname', hcut, hcut', List.flatMap_append, List.flatMap_append, List.flatMap_cons,
    lastName?_append, lastName?_append, lastName?_append]
  cases lastName? (after.flatMap entriesRead) kind index with
  | some name => simp
  | none => cases lastName? (entriesRead content) kind index <;> simp

/-- A module that holds nothing but name sections, with their subsections in bytes. -/
def named (sections : List (List UInt8)) : List UInt8 :=
  [0x00, 0x61, 0x73, 0x6d, 1, 0, 0, 0] ++ sections.flatMap fun content =>
    [0, content.length.toUInt8 + 5, 4, 0x6e, 0x61, 0x6d, 0x65] ++ content

/-- Functions are called a and b, the second of them c in a section that breaks off behind that, and
the first one d in a last section. -/
theorem decode_names_replaced :
    ∃ m, (decode (named [[1, 7, 2, 0, 1, 0x61, 1, 1, 0x62], [1, 4, 2, 1, 1, 0x63],
        [1, 4, 1, 0, 1, 0x64]])).start.1 = .ok m ∧
      m.name? .function 0 = some "d" ∧ m.name? .function 1 = some "c" := by
  have hdecode : (decode (named [[1, 7, 2, 0, 1, 0x61, 1, 1, 0x62], [1, 4, 2, 1, 1, 0x63],
      [1, 4, 1, 0, 1, 0x64]])).start.1 = .ok { functionNames := [(0, "d"), (1, "c")] } := rfl
  obtain ⟨sections, hsections, hname, -⟩ := decode_names hdecode
  cases hsections.symm.trans (rfl : _ = some
    ([(0, [4, 0x6e, 0x61, 0x6d, 0x65, 1, 7, 2, 0, 1, 0x61, 1, 1, 0x62]),
      (0, [4, 0x6e, 0x61, 0x6d, 0x65, 1, 4, 2, 1, 1, 0x63]),
      (0, [4, 0x6e, 0x61, 0x6d, 0x65, 1, 4, 1, 0, 1, 0x64])] : List (Nat × List UInt8)))
  exact ⟨_, hdecode, (hname .function 0).trans rfl, (hname .function 1).trans rfl⟩

/-- A name section that breaks off behind its first entry: the entry stays. -/
theorem decode_names_abandoned :
    ∃ m m', (decode (named [[1, 4, 2, 0, 1, 0x61]])).start.1 = .ok m ∧
      (decode (named [])).start.1 = .ok m' ∧ (readNames [1, 4, 2, 0, 1, 0x61] m').2 = false ∧
      m.name? .function 0 = some "a" ∧ m'.name? .function 0 = none :=
  ⟨{ functionNames := [(0, "a")] }, {}, rfl, rfl, rfl, rfl, rfl⟩

end Module

end WasmLift
