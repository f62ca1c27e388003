import WasmLift.Proofs.Listing.Completion
import WasmLift.Proofs.Listing.Reports

/-!
# Gadgets

A function is written without regard to the other functions, so that the listing in gadgets mode is
the full one with fragments left out: those of the functions that no table holds. The tables are
printed in both modes, and what is kept are the functions that they print
(`Listing.gadgets_filter`).
-/

namespace WasmLift

namespace Program

variable {m : Module} {p : Program} {f : Function}

/-- Some segment of the function table has the function for an entry. -/
def inTable (p : Program) (f : Function) : Bool :=
  p.tables.any fun segment => segment.entries.contains f.name

theorem inTable_iff : p.inTable f = true ↔ ∃ segment ∈ p.tables, f.name ∈ segment.entries := by
  simp [inTable]

/-- The name of a function of an expanded program is its index. -/
theorem name_eq_functionIndex (hp : ofModule? m = .ok p) (hf : f ∈ p.functions) :
    f.name = ⟨p.functionIndex f⟩ := by
  obtain ⟨scope, imported, defined, hstages, hfunctions, hindices⟩ := stages_of_ofModule hp
  obtain ⟨i, hi⟩ := List.mem_iff_getElem?.1 hf
  obtain ⟨hname, hlt⟩ := hstages.name_eq (hfunctions ▸ hi)
  have hindex : p.indexOf ⟨i⟩ = i := indexOf_mk hindices hlt
  rw [functionIndex, hname]
  exact congrArg NameId.mk hindex.symm

/-- Every entry of a table of an expanded program is the name of a function. -/
theorem exists_of_entry (hp : ofModule? m = .ok p) {segment : TableSegment}
    (hsegment : segment ∈ p.tables) {id : NameId} (hid : id ∈ segment.entries) :
    ∃ g ∈ p.functions, g.name = id := by
  obtain ⟨scope, imported, defined, hstages, hfunctions, -⟩ := stages_of_ofModule hp
  obtain ⟨hentries, hbounds⟩ := hstages.tableEntries
  have hmem : segment.entries ∈ m.elements.map (·.functions.map NameId.mk) :=
    hentries ▸ List.mem_map_of_mem hsegment
  obtain ⟨element, helement, heq⟩ := List.mem_map.1 hmem
  obtain ⟨index, hindex, rfl⟩ := List.mem_map.1 (heq ▸ hid)
  have hname : (⟨index⟩ : NameId) ∈ p.functions.map (·.name) := by
    rw [hfunctions, hstages.functionNames]
    exact List.mem_map_of_mem (List.mem_range.2 (hbounds element helement index hindex))
  exact List.mem_map.1 hname

/-- A table holds the index of a function if the function is an entry of it. -/
theorem isInTable_functionIndex (hp : ofModule? m = .ok p) (hf : f ∈ p.functions) :
    p.isInTable (p.functionIndex f) = p.inTable f := by
  rw [Bool.eq_iff_iff, inTable_iff, isInTable]
  simp only [List.any_eq_true, beq_iff_eq]
  constructor
  · rintro ⟨segment, hsegment, id, hid, hindex⟩
    obtain ⟨g, hg, rfl⟩ := exists_of_entry hp hsegment hid
    have hindex : p.functionIndex g = p.functionIndex f := hindex
    rw [name_eq_functionIndex hp hf, ← hindex, ← name_eq_functionIndex hp hg]
    exact ⟨segment, hsegment, hid⟩
  · rintro ⟨segment, hsegment, hid⟩
    exact ⟨segment, hsegment, f.name, hid, rfl⟩

/-- Functions of an expanded program with the same index are the same. -/
theorem eq_of_functionIndex (hp : ofModule? m = .ok p) {g : Function} (hf : f ∈ p.functions)
    (hg : g ∈ p.functions) (hindex : p.functionIndex f = p.functionIndex g) : f = g := by
  have hplace := getElem?_functionIndex hp hf
  rw [hindex, getElem?_functionIndex hp hg] at hplace
  exact (Option.some.inj hplace).symm

end Program

namespace Listing

variable {m : Module} {p : Program} {f : Function}

/-! ## The lines of the tables -/

/-- A text is cut in one way only at the last occurrence of a character. -/
theorem cut_last {c : Char} {a a' b b' : List Char} (hb : c ∉ b) (hb' : c ∉ b')
    (h : a ++ c :: b = a' ++ c :: b') : a = a' ∧ b = b' := by
  rcases List.append_eq_append_iff.1 h with ⟨d, rfl, hd⟩ | ⟨d, rfl, hd⟩
  · cases d with
    | nil => exact ⟨(List.append_nil a).symm, (List.cons.inj hd).2⟩
    | cons _ d => exact absurd ((List.cons.inj hd).2 ▸ by simp) hb
  · cases d with
    | nil => exact ⟨List.append_nil a', ((List.cons.inj hd).2).symm⟩
    | cons _ d => exact absurd ((List.cons.inj hd).2 ▸ by simp) hb'

theorem commaList_plain (tys : List Ty) : '(' ∉ (Text.commaList (tys.map Ty.name)).toList := by
  have hname : ∀ ty : Ty, '(' ∉ ty.name.toList := by
    intro ty
    cases ty <;> decide
  rw [Text.commaList, String.toList_intercalate, List.map_map]
  induction tys with
  | nil => simp [List.intercalate]
  | cons ty rest ih =>
    cases rest with
    | nil => simpa [List.intercalate] using hname ty
    | cons ty' rest => simpa [List.intercalate, hname ty] using ih

/-- What a line holds before its index. -/
def lineHead (identifier : Identifier) : List Char :=
  identifier.name.toList ++ ", // $fun".toList

theorem tableLine_toList (identifier : Identifier) (f : Function) :
    (tableLine identifier f).toList =
      (((lineHead identifier ++ 'c' :: Nat.toDigits 10 identifier.index) ++
          ' ' :: f.result.name.toList) ++ [' ']) ++
        '(' :: ((Text.commaList (f.params.map Ty.name)).toList ++ [')']) := by
  simp [tableLine, lineHead, Nat.toString_eq_ofList_toDigits, -Nat.toString_eq_repr]
  rfl

/-- The line of a function tells its index: the name may be any text, but what comes after it can be
read from the end of the line. -/
theorem tableLine_index {i j : Identifier} {f g : Function}
    (h : tableLine i f = tableLine j g) : i.index = j.index := by
  have hparams : ∀ f : Function,
      '(' ∉ (Text.commaList (f.params.map Ty.name)).toList ++ [')'] := by
    intro f
    simp [commaList_plain]
  have hresult : ∀ ty : Ty, ' ' ∉ ty.name.toList := by
    intro ty
    cases ty <;> decide
  have hdigits : ∀ n, 'c' ∉ Nat.toDigits 10 n := by
    intro n hc
    have hdigit := Nat.isDigit_of_mem_toDigits (by decide) (by decide) hc
    cases hdigit
  have h := congrArg String.toList h
  rw [tableLine_toList, tableLine_toList] at h
  have h := List.append_cancel_right (cut_last (hparams f) (hparams g) h).1
  have h := (cut_last (hresult _) (hresult _) h).1
  exact Names.toDigits_injective (cut_last (hdigits _) (hdigits _) h).2

theorem tableLine_ne_null {i : Identifier} {f : Function} : tableLine i f ≠ "NULL," := by
  intro h
  have hmem : '(' ∈ (tableLine i f).toList := by simp [tableLine_toList]
  rw [h] at hmem
  revert hmem
  decide

/-- A table entry is printed as the line of the function whose name it is. -/
theorem tableEntry_eq (hp : Program.ofModule? m = .ok p) (hf : f ∈ p.functions) :
    tableEntry p f.name = .ok (tableLine (p.names.get f.name) f) := by
  have hplace : p.functions[(p.names.get f.name).index]? = some f :=
    Program.getElem?_functionIndex hp hf
  simp only [tableEntry, hplace]

/-- The lines of a segment hold the line of a function if the function is an entry of the
segment. -/
theorem tableLine_mem_iff (hp : Program.ofModule? m = .ok p) (hf : f ∈ p.functions)
    {segment : TableSegment} (hsegment : segment ∈ p.tables) {number : Nat} {lines : List String}
    (hlines : tableEntries p number segment = .ok lines) :
    tableLine (p.names.get f.name) f ∈ lines ↔ f.name ∈ segment.entries := by
  unfold tableEntries at hlines
  split at hlines
  · cases hlines
  · next offset _ =>
    obtain ⟨entries, hentries, hreturn⟩ := bind_eq_ok.1 hlines
    cases hreturn
    rw [mapM_eq_ok] at hentries
    rw [List.mem_append]
    constructor
    · rintro (hnull | hentry)
      · exact absurd (List.eq_of_mem_replicate hnull) tableLine_ne_null
      · have hentry : Except.ok (tableLine (p.names.get f.name) f) ∈
            segment.entries.map (tableEntry p) := hentries ▸ List.mem_map_of_mem hentry
        obtain ⟨id, hid, heq⟩ := List.mem_map.1 hentry
        obtain ⟨g, hg, rfl⟩ := Program.exists_of_entry hp hsegment hid
        rw [tableEntry_eq hp hg] at heq
        have hindex := tableLine_index (Except.ok.inj heq)
        rwa [← Program.eq_of_functionIndex hp hg hf hindex]
    · intro hid
      have hentry := List.mem_map_of_mem (f := tableEntry p) hid
      rw [hentries, tableEntry_eq hp hf] at hentry
      obtain ⟨line, hline, heq⟩ := List.mem_map.1 hentry
      cases heq
      exact .inr hline

/-- The texts of the tables are the blocks of their lines. -/
theorem tableTexts_eq_ok {number : Nat} {tables : List TableSegment} {texts : List String}
    (htexts : tableTexts p number tables = .ok texts) :
    ∃ lines : List (List String),
      (tables.zipIdx number).map (fun entry => tableEntries p entry.2 entry.1) = lines.map .ok ∧
        texts = (lines.zipIdx number).map fun entry => tableBlock entry.2 entry.1 := by
  induction tables generalizing number texts with
  | nil =>
    cases htexts
    exact ⟨[], rfl, rfl⟩
  | cons segment rest ih =>
    obtain ⟨text, htext, hrest⟩ := bind_eq_ok.1 htexts
    obtain ⟨texts', htexts', hreturn⟩ := bind_eq_ok.1 hrest
    cases hreturn
    obtain ⟨lines, hlines, hreturn⟩ := bind_eq_ok.1 htext
    cases hreturn
    obtain ⟨others, hothers, rfl⟩ := ih htexts'
    exact ⟨lines :: others, by simp [hlines, hothers], rfl⟩

/-- A function is an entry of a table if its line is printed in a table. -/
theorem printed_iff (hp : Program.ofModule? m = .ok p) (hf : f ∈ p.functions)
    {tables : List (List String)}
    (htables : p.tables.zipIdx.map (fun entry => tableEntries p entry.2 entry.1) =
      tables.map .ok) :
    p.inTable f = true ↔ ∃ lines ∈ tables, tableLine (p.names.get f.name) f ∈ lines := by
  rw [Program.inTable_iff]
  constructor
  · rintro ⟨segment, hsegment, hentry⟩
    obtain ⟨number, hnumber⟩ := List.mem_iff_getElem?.1 hsegment
    have hentry' : (segment, number) ∈ p.tables.zipIdx := List.mem_zipIdx_iff_getElem?.2 hnumber
    have hlines := List.mem_map_of_mem (f := fun entry => tableEntries p entry.2 entry.1) hentry'
    rw [htables] at hlines
    obtain ⟨lines, hmem, heq⟩ := List.mem_map.1 hlines
    exact ⟨lines, hmem, (tableLine_mem_iff hp hf hsegment heq.symm).2 hentry⟩
  · rintro ⟨lines, hmem, hline⟩
    have hlines := List.mem_map_of_mem (f := Except.ok (ε := Cause)) hmem
    rw [← htables] at hlines
    obtain ⟨⟨segment, number⟩, hentry, heq⟩ := List.mem_map.1 hlines
    have hsegment : segment ∈ p.tables :=
      List.mem_of_getElem? (List.mem_zipIdx_iff_getElem?.1 hentry)
    exact ⟨segment, hsegment, (tableLine_mem_iff hp hf hsegment heq).1 hline⟩

/-! ## The fragments -/

theorem listedFunctions_false : listedFunctions p false = p.functions := by
  simp [listedFunctions]

theorem listedFunctions_true (hp : Program.ofModule? m = .ok p) :
    listedFunctions p true = p.functions.filter p.inTable := by
  refine List.filter_congr fun f hf => ?_
  simp [Program.isInTable_functionIndex hp hf]

/-- The results of some of the steps are some of the results. -/
theorem map_filter_eq {α β γ : Type} {xs : List α} {bs : List β} {f : α → γ} {g : β → γ}
    (keep : α → Bool) (h : xs.map f = bs.map g) :
    (xs.filter keep).map f =
      (((xs.zip bs).filter fun entry => keep entry.1).map (·.2)).map g := by
  induction xs generalizing bs with
  | nil => simp
  | cons x xs ih =>
    match bs with
    | b :: bs =>
      obtain ⟨hx, hxs⟩ := List.cons.inj h
      cases hkeep : keep x <;> simp [hkeep, hx, ih hxs]

theorem programResult_eq_ok {gadgets : Bool} {text : String} :
    programResult p gadgets = .ok text ↔
      p.backend.isSupported = true ∧ ∃ memory fragments rest,
        MemoryImage.ofSegments p.segments = .ok memory ∧
        (listedFunctions p gadgets).map (fun f => (fragment p memory f).start.1) =
          fragments.map .ok ∧
        tail p memory = .ok rest ∧ text = String.join fragments ++ rest := by
  unfold programResult
  cases hsupported : p.backend.isSupported
  · simp
  · simp only [if_true, bind_eq_ok, mapError_eq_ok, mapM_eq_ok, true_and]
    constructor
    · rintro ⟨memory, hmemory, fragments, hfragments, rest, hrest, hreturn⟩
      cases hreturn
      exact ⟨memory, fragments, rest, hmemory, hfragments, hrest, rfl⟩
    · rintro ⟨memory, fragments, rest, hmemory, hfragments, hrest, rfl⟩
      exact ⟨memory, hmemory, fragments, hfragments, rest, hrest, rfl⟩

/-- The listing of an expanded program in gadgets mode is the full listing without the fragments of
the functions that are no entry of any table. If there is a full listing, there is one in gadgets
mode, too: it has the same tail, and of the same fragments, in the same order, those of the table
entries. These are the functions whose lines the tables print. -/
theorem gadgets_filter (hp : Program.ofModule? m = .ok p) {full : String}
    (hfull : (program p false).start.1 = .ok full) :
    ∃ (memory : MemoryImage) (fragments : List String) (tables : List (List String))
        (rest : String),
      MemoryImage.ofSegments p.segments = .ok memory ∧
      p.functions.map (fun f => (fragment p memory f).start.1) = fragments.map .ok ∧
      full = String.join fragments ++ rest ∧
      (program p true).start.1 = .ok (String.join
        (((p.functions.zip fragments).filter fun entry => p.inTable entry.1).map (·.2)) ++ rest) ∧
      rest = String.join (tables.zipIdx.map fun entry => tableBlock entry.2 entry.1) ++
        (if memory.isEmpty then "" else memory.dump) ∧
      p.tables.zipIdx.map (fun entry => tableEntries p entry.2 entry.1) = tables.map .ok ∧
      ∀ f ∈ p.functions, p.inTable f = true ↔
        ∃ lines ∈ tables, tableLine (p.names.get f.name) f ∈ lines := by
  rw [program_start, programResult_eq_ok, listedFunctions_false] at hfull
  obtain ⟨hsupported, memory, fragments, rest, hmemory, hfragments, hrest, rfl⟩ := hfull
  obtain ⟨texts, htexts, hreturn⟩ := bind_eq_ok.1 hrest
  obtain ⟨tables, htables, rfl⟩ := tableTexts_eq_ok htexts
  cases hreturn
  refine ⟨memory, fragments, tables, _, hmemory, hfragments, rfl, ?_, rfl, htables, ?_⟩
  · rw [program_start, programResult_eq_ok, listedFunctions_true hp]
    exact ⟨hsupported, memory, _, _, hmemory, map_filter_eq p.inTable hfragments, hrest, rfl⟩
  · intro f hf
    exact printed_iff hp hf htables

/-- A module of two functions, of which the second is kept in a table. -/
def halfTabled : Module where
  types := [⟨[.i32], [.i32]⟩]
  functions := [⟨0, [], [0x20, 0x00, 0x0b]⟩, ⟨0, [], [0x20, 0x00, 0x0b]⟩]
  globals := [⟨.i32, true, .value (.i32 65536)⟩]
  elements := [⟨.value (.i32 1), [1]⟩]

theorem gadgets_filter_halfTabled :
    ∃ p first second rest, Program.ofModule? halfTabled = .ok p ∧
      (program p false).start.1 = .ok (first ++ second ++ rest) ∧
      (program p true).start.1 = .ok (second ++ rest) := by
  let signature : FuncType := ⟨[.i32], [.i32]⟩
  let scope : Scope := ⟨[signature], [signature, signature], [⟨0⟩, ⟨1⟩], [.i32]⟩
  have hstages : Program.Stages halfTabled scope []
      [⟨⟨0⟩, [.i32], .i32, .defined [] (.localGet 0 .i32), none⟩,
        ⟨⟨1⟩, [.i32], .i32, .defined [] (.localGet 0 .i32), none⟩]
      [⟨.const (.i32 1), [⟨1⟩]⟩] := by
    refine ⟨rfl, rfl, rfl, rfl, rfl, rfl, ?_⟩
    exact Program.tableSegments_run [.i32] (Program.ofModule_raws_nodup halfTabled)
      (by rw [Names.ofModule_length]; decide)
  obtain ⟨names, hnames, -⟩ := hstages.bound
  have hp := Program.ofModule?_eq_ok.2 ⟨scope, _, _, _, names, hstages, hnames, rfl⟩
  have hoffset : ∀ segment ∈ [(⟨.const (.i32 1), [⟨1⟩]⟩ : TableSegment)], HasOffset segment := by
    simp only [List.forall_mem_cons, ← tableOffset?_isSome]
    exact ⟨by decide, nofun⟩
  obtain ⟨full, log, hrun, -⟩ := program_returns hp false nofun rfl hoffset [] trivial
  have hfull : (program _ false).start.1 = .ok full := congrArg Prod.fst hrun
  obtain ⟨memory, fragments, tables, rest, -, hfragments, rfl, hgadgets, -⟩ :=
    gadgets_filter hp hfull
  obtain ⟨first, second, rfl⟩ : ∃ first second, fragments = [first, second] :=
    List.length_eq_two.1 (by simpa using (congrArg List.length hfragments).symm)
  refine ⟨_, first, second, rest, hp, ?_, ?_⟩
  · simpa using hfull
  · simpa [Program.inTable] using hgadgets

end Listing

end WasmLift
