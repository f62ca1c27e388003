import Mathlib.Data.List.Nodup
import Mathlib.Data.List.Perm.Subperm
import WasmLift.Names.Function

/-!
# Distinct names

The names tried for a function have distinct shown forms (`Names.displayForm_candidate_injective`):
each appends another text to the one that was given, and no escape reaches across the dot in front
of it. So one of them has not been seen among fewer names than there are candidates, and the names
that all functions end up with are distinct as they are shown (`Names.distinct_nodup`).
-/

namespace WasmLift.Names

/-! ## Escapes -/

/-- A character is copied unless it is a backslash with two hexadecimal digits behind it. -/
theorem decodeEscapes_cons {c : Char} {cs : List Char}
    (hc : c = '\\' → ∀ high low rest, cs = high :: low :: rest →
      (Text.hexValue? high).isSome → Text.hexValue? low = none) :
    decodeEscapes (c :: cs) = c :: decodeEscapes cs := by
  rw [decodeEscapes.eq_def]
  split
  next high low rest heq =>
    cases heq
    split
    next h l hh hl => simp [hc rfl high low rest rfl (by simp [hh])] at hl
    next => rfl
  next c' rest' _ heq =>
    cases heq
    rfl
  next heq => cases heq

/-- No escape reaches across a character that is not a hexadecimal digit. -/
theorem decodeEscapes_append (cs : List Char) {ds : List Char}
    (hds : ∀ d ∈ ds.head?, Text.hexValue? d = none) :
    decodeEscapes (cs ++ ds) = decodeEscapes cs ++ decodeEscapes ds := by
  fun_induction decodeEscapes cs with
  | case1 high low rest h l hh hl ih => simp [decodeEscapes, hh, hl, ih]
  | case2 high low rest hno ih =>
    simp only [List.cons_append] at ih ⊢
    rw [decodeEscapes_cons, ih]
    rintro - _ _ _ ⟨⟩ hhigh
    obtain ⟨h, hh⟩ := Option.isSome_iff_exists.1 hhigh
    exact Option.eq_none_iff_forall_ne_some.2 fun l hl => hno h l hh hl
  | case3 c rest hc ih =>
    simp only [List.cons_append]
    rw [decodeEscapes_cons, ih]
    rintro rfl high low rest' hrest hhigh
    -- The backslash has fewer than two characters behind it in `cs`, so one of the two is in `ds`.
    match rest, ds with
    | [], d :: _ =>
      cases hrest
      simp [hds high rfl] at hhigh
    | [_], d :: _ =>
      cases hrest
      exact hds low rfl
    | high :: low :: rest, _ => exact (hc high low rest rfl rfl).elim
  | case4 => rfl

/-- A text without backslashes stands for itself. -/
theorem decodeEscapes_of_plain {cs : List Char} (hcs : ∀ c ∈ cs, c ≠ '\\') :
    decodeEscapes cs = cs := by
  induction cs with
  | nil => rfl
  | cons c rest ih =>
    rw [decodeEscapes_cons fun heq => (hcs c (.head _) heq).elim,
      ih fun d hd => hcs d (.tail _ hd)]

/-! ## Candidates -/

/-- What a candidate appends to the given name. -/
def addition (index : Nat) : Nat → List Char
  | 0 => []
  | 1 => '.' :: Nat.toDigits 10 index
  | n + 2 => '.' :: (Nat.toDigits 10 index ++ '.' :: Nat.toDigits 10 (n + 1))

theorem candidate_toList (name : String) (index n : Nat) :
    (candidate name index n).toList = name.toList ++ addition index n := by
  have hname : toString name = name := rfl
  have hdot : (toString ".").toList = ['.'] := rfl
  fun_cases candidate name index n <;>
    simp [addition, hname, hdot, Nat.toString_eq_ofList_toDigits, -Nat.toString_eq_repr]

theorem toDigits_injective {m n : Nat} (h : Nat.toDigits 10 m = Nat.toDigits 10 n) : m = n := by
  rw [← Nat.ofDigitChars_ten_toDigits (n := m), h, Nat.ofDigitChars_ten_toDigits]

theorem addition_plain (index n : Nat) : ∀ c ∈ addition index n, c ≠ '\\' := by
  have hdigit : ∀ k, ∀ c ∈ Nat.toDigits 10 k, c ≠ '\\' := by
    rintro k _ hc rfl
    have := Nat.isDigit_of_mem_toDigits (by decide) (by decide) hc
    simp at this
  fun_cases addition index n <;> simp [or_imp, forall_and] <;> grind

theorem addition_head (index n : Nat) :
    ∀ d ∈ (addition index n).head?, Text.hexValue? d = none := by
  fun_cases addition index n <;> simp <;> decide

theorem dot_mem_addition (index n : Nat) : '.' ∈ addition index (n + 1) := by
  cases n <;> simp [addition]

theorem addition_injective (index : Nat) : Function.Injective (addition index) := by
  have hone (n : Nat) : addition index 1 ≠ addition index (n + 2) := by
    intro h
    have := congrArg List.length h
    simp [addition] at this
  intro m n h
  match m, n with
  | 0, 0 | 1, 1 => rfl
  | 0, n + 1 => exact absurd (h ▸ dot_mem_addition index n) List.not_mem_nil
  | m + 1, 0 => exact absurd (h ▸ dot_mem_addition index m) List.not_mem_nil
  | 1, n + 2 => exact (hone n h).elim
  | m + 2, 1 => exact (hone m h.symm).elim
  | m + 2, n + 2 =>
    have h := (List.append_cancel_left (List.tail_eq_of_cons_eq h))
    have := toDigits_injective (List.tail_eq_of_cons_eq h)
    omega

/-- An escape in the given name does not reach into what a candidate appends. -/
theorem decodeEscapes_candidate (name : String) (index n : Nat) :
    decodeEscapes (candidate name index n).toList =
      decodeEscapes name.toList ++ addition index n := by
  rw [candidate_toList, decodeEscapes_append _ (addition_head index n),
    decodeEscapes_of_plain (addition_plain index n)]

theorem isNumber_of_dot {cs : List Char} (hcs : '.' ∈ cs) : isNumber cs = false := by
  simp only [isNumber, Bool.and_eq_false_iff]
  exact .inr (List.all_eq_false.2 ⟨'.', hcs, by decide⟩)

/-- What is shown is never what is shown of a longer candidate: of a number, `$func` comes first. -/
theorem displayDecoded_ne {cs extra : List Char} (hdot : '.' ∈ extra) :
    displayDecoded cs ≠ displayDecoded (cs ++ extra) := by
  rw [displayDecoded, displayDecoded, isNumber_of_dot (List.mem_append_right _ hdot)]
  intro h
  split at h
  next hnumber =>
    match cs with
    | [] => simp [isNumber] at hnumber
    | c :: rest =>
      have hc : '$' = c := (List.cons.inj h).1
      simp [isNumber, ← hc] at hnumber
  next =>
    have hextra : extra = [] := by simpa using h
    simp [hextra] at hdot

/-- The candidates of a name have distinct shown forms. -/
theorem displayForm_candidate_injective (name : String) (index : Nat) :
    Function.Injective fun n => displayForm (candidate name index n) := by
  intro m n h
  have h : displayDecoded (decodeEscapes (candidate name index m).toList) =
      displayDecoded (decodeEscapes (candidate name index n).toList) := String.ofList_injective h
  rw [decodeEscapes_candidate, decodeEscapes_candidate] at h
  match m, n with
  | 0, 0 => rfl
  | 0, n + 1 =>
    exact (displayDecoded_ne (dot_mem_addition index n) (by simpa [addition] using h)).elim
  | m + 1, 0 =>
    exact (displayDecoded_ne (dot_mem_addition index m) (by simpa [addition] using h.symm)).elim
  | m + 1, n + 1 =>
    rw [displayDecoded, displayDecoded,
      isNumber_of_dot (List.mem_append_right _ (dot_mem_addition index m)),
      isNumber_of_dot (List.mem_append_right _ (dot_mem_addition index n))] at h
    exact addition_injective index (List.append_cancel_left h)

/-! ## Choosing among them -/

/-- The search finds a new name if there is one among those it tries. -/
theorem firstUnseen_unseen {seen : List String} {name : String} {index fuel n : Nat}
    (h : ∃ k ≤ fuel, displayForm (candidate name index (n + k)) ∉ seen) :
    displayForm (firstUnseen seen name index fuel n) ∉ seen := by
  induction fuel generalizing n with
  | zero =>
    obtain ⟨k, hk, hnew⟩ := h
    obtain rfl : k = 0 := by omega
    exact hnew
  | succ fuel ih =>
    rw [firstUnseen]
    split
    next hseen =>
      obtain ⟨k, hk, hnew⟩ := h
      match k with
      | 0 => exact (hnew (by simpa using hseen)).elim
      | k + 1 => exact ih ⟨k, by omega, by rwa [Nat.add_right_comm, Nat.add_assoc]⟩
    next hseen => simpa using hseen

/-- More different names than have been seen cannot all have been seen. -/
theorem exists_unseen (seen : List String) (name : String) (index : Nat) :
    ∃ k ≤ seen.length, displayForm (candidate name index k) ∉ seen := by
  by_contra hall
  push Not at hall
  have hnodup : ((List.range (seen.length + 1)).map fun k =>
      displayForm (candidate name index k)).Nodup :=
    List.nodup_range.map (displayForm_candidate_injective name index)
  have hseen : (List.range (seen.length + 1)).map (fun k =>
      displayForm (candidate name index k)) ⊆ seen := by
    intro s hs
    obtain ⟨k, hk, rfl⟩ := List.mem_map.1 hs
    exact hall k (by simpa [Nat.lt_succ_iff] using hk)
  have hlength := (List.subperm_of_subset hnodup hseen).length_le
  simp only [List.length_map, List.length_range] at hlength
  omega

theorem uniqueName_unseen (seen : List String) (name : String) (index : Nat) :
    displayForm (uniqueName seen name index) ∉ seen := by
  refine firstUnseen_unseen ?_
  obtain ⟨k, hk, hnew⟩ := exists_unseen seen name index
  exact ⟨k, hk, by rwa [Nat.zero_add]⟩

@[simp] theorem distinct_length (index : Nat) (names seen : List String) :
    (distinct index names seen).length = names.length := by
  induction names generalizing index seen with
  | nil => rfl
  | cons name rest ih => simp [distinct, ih]

/-- The names are shown in forms that differ from each other and from those seen before. -/
theorem distinct_nodup (index : Nat) (names seen : List String) :
    ((distinct index names seen).map displayForm).Nodup ∧
      ∀ s ∈ (distinct index names seen).map displayForm, s ∉ seen := by
  induction names generalizing index seen with
  | nil => exact ⟨.nil, nofun⟩
  | cons name rest ih =>
    obtain ⟨hnodup, hnew⟩ := ih (index + 1) (displayForm (uniqueName seen name index) :: seen)
    simp only [distinct, List.map_cons, List.nodup_cons, List.mem_cons, forall_eq_or_imp]
    refine ⟨⟨fun hmem => hnew _ hmem (.head _), hnodup⟩, uniqueName_unseen seen name index, ?_⟩
    exact fun s hs hseen => hnew s hs (.tail _ hseen)

/-- All functions are shown with different names. -/
theorem ofModule_nodup (m : Module) : ((ofModule m).map displayForm).Nodup :=
  (distinct_nodup 0 _ []).1

@[simp] theorem ofModule_length (m : Module) : (ofModule m).length = m.functionTypes.length := by
  simp [ofModule]

end WasmLift.Names
