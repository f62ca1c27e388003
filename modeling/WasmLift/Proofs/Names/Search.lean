import WasmLift.Proofs.Names.Distinct

/-!
# The search for a name

For each function names are tried one after the other, until the shown form of one can be inserted
into those seen so far. A run of this search (`Names.Search`) counts its insertions. As the names
that are tried have distinct shown forms, every search ends after at most one insertion more than
there are forms seen, and it takes the name that `Names.uniqueName` gives. So the search for each
function of a module ends, the names that are taken have distinct shown forms, and a function keeps
the name it was given exactly if no earlier function is shown in its form
(`Names.ofModule_searches`).
-/

namespace WasmLift.Names

/-- What is tried after a name that is shown like an earlier one: the given name with the index, and
from the second time on with a counter too. -/
def retry (name : String) (index counter : Nat) : String :=
  if counter = 0 then s!"{name}.{index}" else s!"{name}.{index}.{counter}"

/-- A run of the search, from a name that is tried and the counter for the next one to the name that
is taken, with the number of insertions it makes. -/
inductive Search (seen : List String) (name : String) (index : Nat) :
    (tried : String) → (counter insertions : Nat) → (found : String) → Prop where
  | inserted {tried : String} {counter : Nat} (hnew : displayForm tried ∉ seen) :
    Search seen name index tried counter 1 tried
  | refused {tried found : String} {counter insertions : Nat} (hseen : displayForm tried ∈ seen)
    (later : Search seen name index (retry name index counter) (counter + 1) insertions found) :
    Search seen name index tried counter (insertions + 1) found

section
variable {seen : List String} {name tried found found' : String}
  {index counter insertions insertions' : Nat}

/-! ## One search -/

/-- The candidates are what is tried. -/
theorem retry_eq_candidate (name : String) (index n : Nat) :
    retry name index n = candidate name index (n + 1) := by
  cases n <;> rfl

/-- A search has one end. -/
theorem Search.unique (h : Search seen name index tried counter insertions found)
    (h' : Search seen name index tried counter insertions' found') :
    insertions' = insertions ∧ found' = found := by
  induction h generalizing insertions' with
  | inserted hnew =>
    cases h' with
    | inserted => exact ⟨rfl, rfl⟩
    | refused hseen => exact absurd hseen hnew
  | refused hseen _ ih =>
    cases h' with
    | inserted hnew => exact absurd hseen hnew
    | refused _ later =>
      obtain ⟨rfl, rfl⟩ := ih later
      exact ⟨rfl, rfl⟩

/-- If one of the next `fuel + 1` candidates is new, the search ends with the first that is, after
at most as many insertions. -/
theorem search_firstUnseen {fuel n : Nat}
    (h : ∃ k ≤ fuel, displayForm (candidate name index (n + k)) ∉ seen) :
    ∃ insertions ≤ fuel + 1, Search seen name index (candidate name index n) n insertions
      (firstUnseen seen name index fuel n) := by
  induction fuel generalizing n with
  | zero =>
    obtain ⟨k, hk, hnew⟩ := h
    obtain rfl : k = 0 := by omega
    exact ⟨1, Nat.le_refl 1, .inserted hnew⟩
  | succ fuel ih =>
    rw [firstUnseen]
    split
    next hseen =>
      have hseen : displayForm (candidate name index n) ∈ seen := by simpa using hseen
      obtain ⟨k, hk, hnew⟩ := h
      cases k with
      | zero => exact absurd hseen hnew
      | succ k =>
        obtain ⟨insertions, hle, hsearch⟩ :=
          ih (n := n + 1) ⟨k, by omega, by rwa [Nat.add_right_comm, Nat.add_assoc]⟩
        rw [← retry_eq_candidate] at hsearch
        exact ⟨insertions + 1, by omega, .refused hseen hsearch⟩
    next hseen => exact ⟨1, by omega, .inserted (by simpa using hseen)⟩

/-- The search ends after at most one insertion more than there are forms seen. -/
theorem search_uniqueName (seen : List String) (name : String) (index : Nat) :
    ∃ insertions ≤ seen.length + 1,
      Search seen name index name 0 insertions (uniqueName seen name index) := by
  obtain ⟨k, hk, hnew⟩ := exists_unseen seen name index
  exact search_firstUnseen ⟨k, hk, by rwa [Nat.zero_add]⟩

/-- Only the forms seen count, not their order. -/
theorem Search.congr {seen' : List String} (hseen : ∀ s, s ∈ seen ↔ s ∈ seen')
    (h : Search seen name index tried counter insertions found) :
    Search seen' name index tried counter insertions found := by
  induction h with
  | inserted hnew => exact .inserted fun hmem => hnew ((hseen _).2 hmem)
  | refused hmem _ ih => exact .refused ((hseen _).1 hmem) ih

/-- The name that is taken is shown in a new form. -/
theorem Search.found_new (h : Search seen name index tried counter insertions found) :
    displayForm found ∉ seen := by
  induction h with
  | inserted hnew => exact hnew
  | refused _ _ ih => exact ih

/-- The given name is taken exactly if its shown form is new. -/
theorem Search.found_eq_given (h : Search seen name index name 0 insertions found) :
    found = name ↔ displayForm name ∉ seen := by
  constructor
  · rintro rfl
    exact h.found_new
  · intro hnew
    exact (h.unique (.inserted hnew)).2.symm

end

/-! ## All searches -/

/-- The forms seen before a function are those of the names before it, the latest first. -/
theorem getElem?_distinct (index : Nat) (names seen : List String) (i : Nat) :
    (distinct index names seen)[i]? = names[i]?.map fun name =>
      uniqueName ((((distinct index names seen).take i).map displayForm).reverse ++ seen) name
        (index + i) := by
  induction names generalizing index seen i with
  | nil => rfl
  | cons name rest ih =>
    cases i with
    | zero => rfl
    | succ i =>
      simp only [distinct, List.getElem?_cons_succ, ih, List.take_succ_cons, List.map_cons,
        List.reverse_cons, List.append_assoc, List.singleton_append, Nat.add_right_comm,
        Nat.add_assoc]

/-- The name given to a function is the first that is tried for it. -/
theorem search_ofModule (m : Module) {i : Nat} (hi : i < (ofModule m).length) :
    ∃ insertions ≤ (((ofModule m).take i).map displayForm).length + 1,
      Search (((ofModule m).take i).map displayForm) (givenName m i) i (givenName m i) 0 insertions
        (ofModule m)[i] := by
  have hfunction : i < m.functionTypes.length := by simpa using hi
  have hname := getElem?_distinct 0 ((List.range m.functionTypes.length).map (givenName m)) [] i
  rw [List.append_nil, Nat.zero_add, List.getElem?_map, List.getElem?_range hfunction] at hname
  have hunique : (ofModule m)[i] =
      uniqueName (((ofModule m).take i).map displayForm).reverse (givenName m i) i :=
    (List.getElem_eq_iff hi).2 hname
  obtain ⟨insertions, hle, hsearch⟩ :=
    search_uniqueName (((ofModule m).take i).map displayForm).reverse (givenName m i) i
  rw [List.length_reverse] at hle
  rw [hunique]
  exact ⟨insertions, hle, hsearch.congr fun _ => List.mem_reverse⟩

/-- For every module, with any functions and any names in its name section: what is tried for a
function are the candidates, the given name, that with the index, and that with the index and 1, 2
and so on, and no two of them are shown in the same form. Function by function, the search among the
forms of the names before it comes to an end, with the name that the function gets, after at most
one insertion more than there are such forms; they are all different. A function keeps the name it
is given exactly if no earlier one is shown in its form. -/
theorem ofModule_searches (m : Module) :
    (∀ name index, candidate name index 0 = name ∧
      (∀ n, candidate name index (n + 1) = retry name index n) ∧
      Function.Injective fun n => displayForm (candidate name index n)) ∧
    (ofModule m).length = m.functionTypes.length ∧
    (∀ i (hi : i < (ofModule m).length),
      let seen := ((ofModule m).take i).map displayForm
      seen.length = i ∧
      (∃ insertions ≤ seen.length + 1, ∀ k found,
        Search seen (givenName m i) i (givenName m i) 0 k found ↔
          k = insertions ∧ found = (ofModule m)[i]) ∧
      ((ofModule m)[i] = givenName m i ↔ displayForm (givenName m i) ∉ seen)) ∧
    ((ofModule m).map displayForm).Nodup := by
  refine ⟨fun name index => ⟨rfl, fun n => (retry_eq_candidate name index n).symm,
    displayForm_candidate_injective name index⟩, ofModule_length m, fun i hi => ?_,
    ofModule_nodup m⟩
  obtain ⟨insertions, hle, hsearch⟩ := search_ofModule m hi
  have hseen := List.length_take_of_le (Nat.le_of_lt hi)
  refine ⟨by rw [List.length_map, hseen], ⟨insertions, hle, fun k found => ⟨hsearch.unique, ?_⟩⟩,
    hsearch.found_eq_given⟩
  rintro ⟨rfl, rfl⟩
  exact hsearch

/-- Three functions, the last two of which are given the same name. What the third one is called
next is already the name of the first. -/
def homonyms : Module where
  types := [⟨[], []⟩]
  functions := List.replicate 3 ⟨0, [], [0x0b]⟩
  functionNames := [(0, "a.2"), (1, "a"), (2, "a")]

/-- The third function gets a name after three insertions, as many as the bound allows. -/
theorem ofModule_searches_homonyms :
    2 < (ofModule homonyms).length ∧ ofModule homonyms = ["a.2", "a", "a.2.1"] ∧
      ∀ k found, Search ["a.2", "a"] "a" 2 "a" 0 k found ↔ k = 3 ∧ found = "a.2.1" := by
  have hnames : ofModule homonyms = ["a.2", "a", "a.2.1"] := by decide +kernel
  have hlast : 2 < (ofModule homonyms).length := by rw [hnames]; decide
  have hseen : ((ofModule homonyms).take 2).map displayForm = ["a.2", "a"] := by
    rw [hnames]
    decide +kernel
  have hthird : (ofModule homonyms)[2] = "a.2.1" := by simp [hnames]
  have hrun : Search ["a.2", "a"] "a" 2 "a" 0 3 "a.2.1" :=
    .refused (by decide +kernel) (.refused (by decide +kernel) (.inserted (by decide +kernel)))
  obtain ⟨-, -, hsearches, -⟩ := ofModule_searches homonyms
  obtain ⟨-, ⟨insertions, -, hends⟩, -⟩ := hsearches 2 hlast
  have hgiven : givenName homonyms 2 = "a" := rfl
  rw [hseen, hthird, hgiven] at hends
  obtain ⟨rfl, -⟩ := (hends 3 _).1 hrun
  exact ⟨hlast, hnames, hends⟩

end WasmLift.Names
