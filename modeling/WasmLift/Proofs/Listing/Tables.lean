import Mathlib.Algebra.Group.Nat.Defs
import WasmLift.Proofs.Listing.Gadgets

/-!
# Positions in the function table

An element segment fills the function table from its offset on. It is printed as an array that
begins at zero, so that each of its functions stands at its own position (`Listing.Placed`). The
offset is read with a sign: a segment whose offset is a 32-bit constant is printed if the constant
is in the lower half, and in the upper half it is refused as if the offset were no constant. Nothing
else about a table stops the listing of an expanded program (`Listing.tables_placed`).
-/

namespace WasmLift

/-! ## From element segments to tables -/

namespace Program

variable {m : Module} {p : Program}

/-- The tables of an expanded program are the element segments, in order, with the names of their
functions for entries. -/
theorem tables_eq (hp : ofModule? m = .ok p) :
    ∃ globalTypes, p.tables = m.elements.map fun element =>
      ⟨initExpr globalTypes element.offset, element.functions.map NameId.mk⟩ := by
  obtain ⟨scope, imported, defined, hstages, -, -⟩ := stages_of_ofModule hp
  obtain ⟨-, hbounds⟩ := hstages.tableEntries
  rw [← Names.ofModule_length] at hbounds
  have hrun := tableSegments_run scope.globalTypes (ofModule_raws_nodup m) hbounds
  rw [hstages.tables] at hrun
  exact ⟨scope.globalTypes, (Prod.mk.inj (Except.ok.inj hrun)).1⟩

end Program

namespace Listing

variable {m : Module} {p : Program} {segment : TableSegment}

/-! ## Entries -/

/-- An entry is printed as the line of the function with the index that the entry is. -/
theorem tableEntry_mk (hp : Program.ofModule? m = .ok p) (hsegment : segment ∈ p.tables)
    {index : Nat} (hindex : ⟨index⟩ ∈ segment.entries) :
    ∃ f, p.functions[index]? = some f ∧
      tableEntry p ⟨index⟩ = .ok (tableLine ⟨p.functionName f, index⟩ f) := by
  obtain ⟨f, hf, hname⟩ := Program.exists_of_entry hp hsegment hindex
  have hown : p.functionIndex f = index :=
    NameId.mk.inj ((Program.name_eq_functionIndex hp hf).symm.trans hname)
  have hidentifier : p.names.get f.name = ⟨p.functionName f, p.functionIndex f⟩ := rfl
  have hplace := Program.getElem?_functionIndex hp hf
  have hline := tableEntry_eq hp hf
  rw [hidentifier, hname, hown] at hline
  rw [hown] at hplace
  exact ⟨f, hplace, hline⟩

/-- The lines of functions from a position on: `NULL` up to the position, and then the line of each
function, with its name, its index and its signature. -/
structure Placed (p : Program) (position : Nat) (functions : List Nat) (lines : List String) :
    Prop where
  length : lines.length = position + functions.length
  null : ∀ i < position, lines[i]? = some "NULL,"
  entry : ∀ k index, functions[k]? = some index → ∃ f, p.functions[index]? = some f ∧
    lines[position + k]? = some (tableLine ⟨p.functionName f, index⟩ f)

theorem placed_of_mapM (hp : Program.ofModule? m = .ok p) (hsegment : segment ∈ p.tables)
    {functions : List Nat} (hfunctions : segment.entries = functions.map NameId.mk)
    {entries : List String} (hentries : segment.entries.mapM (tableEntry p) = .ok entries)
    (position : Nat) :
    Placed p position functions (List.replicate position "NULL," ++ entries) := by
  rw [mapM_eq_ok, hfunctions, List.map_map] at hentries
  have hlength : functions.length = entries.length := by
    simpa using congrArg List.length hentries
  refine ⟨by simp [hlength], fun i hi => ?_, fun k index hk => ?_⟩
  · rw [List.getElem?_append_left (by simpa using hi), List.getElem?_replicate_of_lt hi]
  · have hmem : (⟨index⟩ : NameId) ∈ segment.entries :=
      hfunctions ▸ List.mem_map_of_mem (List.mem_of_getElem? hk)
    obtain ⟨f, hf, hline⟩ := tableEntry_mk hp hsegment hmem
    have hplace := congrArg (·[k]?) hentries
    simp only [List.getElem?_map, hk, Option.map_some, Function.comp_apply, hline] at hplace
    obtain ⟨line, hentry, heq⟩ := Option.map_eq_some_iff.1 hplace.symm
    cases heq
    refine ⟨f, hf, ?_⟩
    rw [List.getElem?_append_right (by simp), List.length_replicate, Nat.add_sub_cancel_left,
      hentry]

/-! ## Offsets -/

theorem toNat?_eq_none {n : Int} : n.toNat? = none ↔ n < 0 := by
  cases n with
  | ofNat n => exact iff_of_false (by simp [Int.toNat?]) (Int.not_lt.2 (Int.natCast_nonneg n))
  | negSucc n => exact iff_of_true rfl (Int.negSucc_lt_zero n)

/-- The position of a segment at a 32-bit constant. -/
theorem tableOffset?_i32 {word : BitVec 32} (h : segment.offset = .const (.i32 word)) :
    tableOffset? segment = if word.toNat < 2 ^ 31 then some word.toNat else none := by
  have hoffset : tableOffset? segment = Int.toNat? word.toInt := by
    simp [tableOffset?, h, Value.asInteger?]
  rw [hoffset]
  split
  · next hlow => exact Int.mem_toNat?.2 (BitVec.toInt_eq_toNat_of_lt (by omega))
  · next hhigh => exact toNat?_eq_none.2 (BitVec.toInt_neg_iff.2 (by omega))

/-- A segment without a position is not at an integer constant, or at a negative one. -/
theorem negative_of_tableOffset? {value : Value} {n : Int} (h : tableOffset? segment = none)
    (hoffset : segment.offset = .const value) (hvalue : value.asInteger? = some n) : n < 0 := by
  simp only [tableOffset?, hoffset, hvalue, Option.bind_some] at h
  exact toNat?_eq_none.1 h

/-! ## Texts -/

/-- A segment with a position is printed with its functions from there on. -/
theorem tableText_placed (hp : Program.ofModule? m = .ok p) (hsegment : segment ∈ p.tables)
    {functions : List Nat} (hfunctions : segment.entries = functions.map NameId.mk) {position : Nat}
    (hposition : tableOffset? segment = some position) (number : Nat) :
    ∃ lines, tableText p number segment = .ok (tableBlock number lines) ∧
      Placed p position functions lines := by
  obtain ⟨text, htext⟩ := (tableText_ok_iff
    (fun _ hid => Program.indexOf_lt_of_entry hp hsegment hid) number).2
    (tableOffset?_isSome.1 (by simp [hposition]))
  obtain ⟨lines, hlines, hreturn⟩ := bind_eq_ok.1 htext
  cases hreturn
  refine ⟨lines, htext, ?_⟩
  rw [tableEntries, hposition] at hlines
  obtain ⟨entries, hentries, hreturn⟩ := bind_eq_ok.1 hlines
  cases hreturn
  exact placed_of_mapM hp hsegment hfunctions hentries position

/-- A segment without a position is refused. -/
theorem tableText_refused (hposition : tableOffset? segment = none) (number : Nat) :
    tableText p number segment = .error (.tableOffset number) := by
  rw [tableText, tableEntries, hposition]
  rfl

/-- A segment is refused for no other reason. -/
theorem tableText_error {number : Nat} {cause : Cause}
    (hentries : ∀ id ∈ segment.entries, p.indexOf id < p.functions.length)
    (h : tableText p number segment = .error cause) :
    cause = .tableOffset number ∧ tableOffset? segment = none := by
  cases hposition : tableOffset? segment with
  | some position =>
    obtain ⟨text, htext⟩ := (tableText_ok_iff hentries number).2
      (tableOffset?_isSome.1 (by simp [hposition]))
    cases h.symm.trans htext
  | none =>
    cases h.symm.trans (tableText_refused hposition number)
    exact ⟨rfl, rfl⟩

/-- If the tables cannot be printed, one of them has no position, and its number is reported. -/
theorem tableTexts_error {tables : List TableSegment} {number : Nat} {cause : Cause}
    (hentries : ∀ segment ∈ tables, ∀ id ∈ segment.entries, p.indexOf id < p.functions.length)
    (h : tableTexts p number tables = .error cause) :
    ∃ i segment, tables[i]? = some segment ∧ cause = .tableOffset (number + i) ∧
      tableOffset? segment = none := by
  induction tables generalizing number with
  | nil => cases h
  | cons segment rest ih =>
    obtain ⟨hsegment, hrest⟩ := List.forall_mem_cons.1 hentries
    obtain herror | ⟨text, -, herror⟩ := bind_eq_error.1 h
    · obtain ⟨hcause, hposition⟩ := tableText_error hsegment herror
      exact ⟨0, segment, rfl, hcause, hposition⟩
    · obtain herror | ⟨texts, -, hreturn⟩ := bind_eq_error.1 herror
      · obtain ⟨i, other, hother, hcause, hposition⟩ := ih hrest herror
        exact ⟨i + 1, other, hother, by rw [hcause, Nat.add_assoc, Nat.add_comm 1], hposition⟩
      · cases hreturn

/-- If a program with a known toolchain and a memory that can be laid out cannot be listed, one of
its tables has no position, and its number is reported. -/
theorem program_error (hp : Program.ofModule? m = .ok p) (hbackend : p.backend ≠ .unknown)
    {memory : MemoryImage} (hmemory : MemoryImage.ofSegments p.segments = .ok memory)
    {gadgets : Bool} {e : Error} (h : (program p gadgets).start.1 = .error e) :
    ∃ number segment, p.tables[number]? = some segment ∧ e = .ofCause (.tableOffset number) ∧
      tableOffset? segment = none := by
  rw [program_start, programResult, if_pos (isSupported_iff.2 hbackend)] at h
  obtain herror | ⟨memory', hmemory', hfragments⟩ := bind_eq_error.1 h
  · obtain ⟨cause, herror, -⟩ := mapError_eq_error.1 herror
    cases herror.symm.trans hmemory
  obtain herror | ⟨fragments, -, hrest⟩ := bind_eq_error.1 hfragments
  · -- no function stops the listing
    obtain ⟨f, hf, herror⟩ := mapM_eq_error herror
    have hf : f ∈ p.functions := (List.mem_filter.1 hf).1
    obtain ⟨text, log, hreturns, -⟩ := fragment_returns (Program.inRange_of_mem hp hf) memory'
      (Program.getElem?_functionIndex hp hf) [] trivial
    cases herror.symm.trans (congrArg Prod.fst hreturns)
  obtain herror | ⟨text, -, hreturn⟩ := bind_eq_error.1 hrest
  · obtain ⟨cause, htail, rfl⟩ := mapError_eq_error.1 herror
    obtain htables | ⟨texts, -, hreturn⟩ := bind_eq_error.1 htail
    · obtain ⟨number, segment, hsegment, rfl, hposition⟩ := tableTexts_error
        (fun _ hsegment _ hid => Program.indexOf_lt_of_entry hp hsegment hid) htables
      exact ⟨number, segment, hsegment, by rw [Nat.zero_add], hposition⟩
    · cases hreturn
  · cases hreturn

/-- In an expanded program with a known toolchain and a memory that can be laid out, every element
segment at a 32-bit constant in the lower half is printed with all its functions at their positions,
and one in the upper half is refused. The listing stops only at a segment whose offset is not an
integer constant, or a negative one, and reports its number. -/
theorem tables_placed (hp : Program.ofModule? m = .ok p) (hbackend : p.backend ≠ .unknown)
    {memory : MemoryImage} (hmemory : MemoryImage.ofSegments p.segments = .ok memory) :
    (∀ number element word, m.elements[number]? = some element →
      element.offset = .value (.i32 word) → ∃ segment, p.tables[number]? = some segment ∧
        (word.toNat < 2 ^ 31 → ∃ lines, tableText p number segment = .ok (tableBlock number lines) ∧
          Placed p word.toNat element.functions lines) ∧
        (2 ^ 31 ≤ word.toNat → tableText p number segment = .error (.tableOffset number))) ∧
    ∀ gadgets e, (program p gadgets).start.1 = .error e →
      ∃ number element, m.elements[number]? = some element ∧ e = .ofCause (.tableOffset number) ∧
        ∀ value n, element.offset = .value value → value.asInteger? = some n → n < 0 := by
  obtain ⟨globalTypes, htables⟩ := Program.tables_eq hp
  refine ⟨fun number element word helement hoffset => ?_, fun gadgets e herror => ?_⟩
  · let segment : TableSegment :=
      ⟨Program.initExpr globalTypes element.offset, element.functions.map NameId.mk⟩
    have hsegment : p.tables[number]? = some segment := by simp [htables, helement, segment]
    have hconst : segment.offset = .const (.i32 word) := by
      simp [segment, hoffset, Program.initExpr]
    have hposition := tableOffset?_i32 hconst
    refine ⟨segment, hsegment, fun hlow => ?_, fun hhigh => ?_⟩
    · rw [if_pos hlow] at hposition
      exact tableText_placed hp (List.mem_of_getElem? hsegment) rfl hposition number
    · rw [if_neg (Nat.not_lt.2 hhigh)] at hposition
      exact tableText_refused hposition number
  · obtain ⟨number, segment, hsegment, rfl, hposition⟩ := program_error hp hbackend hmemory herror
    rw [htables, List.getElem?_map] at hsegment
    obtain ⟨element, helement, rfl⟩ := Option.map_eq_some_iff.1 hsegment
    refine ⟨number, element, helement, rfl, fun value n hoffset hvalue => ?_⟩
    exact negative_of_tableOffset? hposition (by rw [hoffset]; rfl) hvalue

/-- Two functions, of which the table holds the second twice, from an offset on. -/
def sharing (offset : BitVec 32) : Module where
  types := [⟨[.i32], [.i32]⟩, ⟨[], []⟩]
  functions := [⟨0, [], [0x20, 0x00, 0x0b]⟩, ⟨1, [], [0x0b]⟩]
  globals := [⟨.i32, true, .value (.i32 65536)⟩]
  elements := [⟨.value (.i32 offset), [1, 0, 1]⟩]

/-- The two functions, as they are rebuilt. -/
def sharedFunctions : List Function :=
  [⟨⟨0⟩, [.i32], .i32, .defined [] (.localGet 0 .i32), none⟩,
    ⟨⟨1⟩, [], .void, .defined [] .nop, none⟩]

theorem sharing_expands (offset : BitVec 32) :
    ∃ names, Program.ofModule? (sharing offset) = .ok ⟨sharedFunctions,
      Program.globalsOf (sharing offset) [.i32], [⟨.const (.i32 offset), [⟨1⟩, ⟨0⟩, ⟨1⟩]⟩], [],
      names⟩ := by
  have hstages : Program.Stages (sharing offset) ⟨[⟨[.i32], [.i32]⟩, ⟨[], []⟩],
      [⟨[.i32], [.i32]⟩, ⟨[], []⟩], [⟨0⟩, ⟨1⟩], [.i32]⟩ [] sharedFunctions
      [⟨.const (.i32 offset), [⟨1⟩, ⟨0⟩, ⟨1⟩]⟩] := by
    have hbounds : ∀ segment ∈ (sharing offset).elements, ∀ index ∈ segment.functions,
        index < (Names.ofModule (sharing offset)).length := by
      rw [Names.ofModule_length]
      exact List.forall_mem_singleton.2 (show ∀ index ∈ [1, 0, 1], index < 2 by decide)
    refine ⟨rfl, rfl, rfl, rfl, rfl, rfl, ?_⟩
    exact Program.tableSegments_run [.i32] (Program.ofModule_raws_nodup _) hbounds
  obtain ⟨names, hnames, -⟩ := hstages.bound
  exact ⟨names, Program.ofModule?_eq_ok.2 ⟨_, _, _, _, names, hstages, hnames, rfl⟩⟩

/-- At a constant in the lower half, each entry stands at its position, also one that is
repeated. -/
theorem tables_placed_lower :
    ∃ p segment lines f g, Program.ofModule? (sharing 2) = .ok p ∧ p.tables = [segment] ∧
      p.functions = [f, g] ∧ tableText p 0 segment = .ok (tableBlock 0 lines) ∧
      lines.length = 5 ∧ lines[1]? = some "NULL," ∧
      lines[2]? = some (tableLine ⟨p.functionName g, 1⟩ g) ∧
      lines[3]? = some (tableLine ⟨p.functionName f, 0⟩ f) ∧ lines[4]? = lines[2]? := by
  obtain ⟨names, hp⟩ := sharing_expands 2
  obtain ⟨hplaced, -⟩ := tables_placed hp (show Backend.llvm32 0 ≠ .unknown by decide) rfl
  obtain ⟨segment, hsegment, hlower, -⟩ := hplaced 0 _ 2 rfl rfl
  cases hsegment
  obtain ⟨lines, htext, hlines⟩ := hlower (by decide)
  obtain ⟨_, ⟨⟩, hsecond⟩ := hlines.entry 0 1 rfl
  obtain ⟨_, ⟨⟩, hfirst⟩ := hlines.entry 1 0 rfl
  obtain ⟨_, ⟨⟩, hthird⟩ := hlines.entry 2 1 rfl
  exact ⟨_, _, lines, _, _, hp, rfl, rfl, htext, hlines.length, hlines.null 1 (by decide), hsecond,
    hfirst, hthird.trans hsecond.symm⟩

/-- At a constant in the upper half, the listing stops as if the offset were no constant. -/
theorem tables_refused_upper :
    ∃ p segment, Program.ofModule? (sharing 0x80000000) = .ok p ∧ p.backend = .llvm32 0 ∧
      MemoryImage.ofSegments p.segments = .ok {} ∧ p.tables = [segment] ∧
      segment.offset = .const (.i32 0x80000000) ∧
      tableText p 0 segment = .error (.tableOffset 0) ∧
      (program p false).start.1 = .error (.ofCause (.tableOffset 0)) := by
  obtain ⟨names, hp⟩ := sharing_expands 0x80000000
  have hrefused : tableOffset? ⟨.const (.i32 0x80000000), [⟨1⟩, ⟨0⟩, ⟨1⟩]⟩ = none := by decide
  have hno : ¬HasOffset ⟨.const (.i32 0x80000000), [⟨1⟩, ⟨0⟩, ⟨1⟩]⟩ := by
    rw [← tableOffset?_isSome, hrefused]
    decide
  obtain ⟨e, log, hfails⟩ := program_fails hp false (.inr (.inr ⟨_, .head _, hno⟩)) []
  have herror : (program _ false).start.1 = .error e := congrArg Prod.fst hfails
  obtain ⟨number, segment, hsegment, rfl, -⟩ :=
    program_error hp (show Backend.llvm32 0 ≠ .unknown by decide) rfl herror
  cases number with
  | succ => cases hsegment
  | zero =>
    exact ⟨_, _, hp, rfl, rfl, rfl, rfl, tableText_refused hrefused 0, herror⟩

end Listing

end WasmLift
