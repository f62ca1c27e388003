import WasmLift.Proofs.Names.Binding

/-!
# Names of functions, before and after renaming

Any names may be collected, the same one several times and different ones that are shown in the same
form. Each identity stands for the name that it was given for (`NamePool.internAll_stands`). If the
functions bear collected names, then resolving succeeds exactly if they are shown with different
names and every collected name is shown as that of a function. Every name then goes to the function
that is shown with it, and differs from what it was only if it was made up for an import
(`NamePool.resolve_iff_distinct`).
-/

namespace WasmLift

namespace NamePool

/-- The form in which the name of an identity is shown. -/
def shownAs (pool : NamePool) (id : NameId) : String :=
  pool.displayNames.getD id.slot ""

section
variable {pool pool' : NamePool} {ids : List NameId} {raws : List String} {bearers : List Bearer}
  {table : NameTable}

theorem shownAs_eq {id : NameId} {raw : String} (h : pool.raws[id.slot]? = some raw) :
    pool.shownAs id = Names.displayForm raw := by
  simp [shownAs, displayNames, h]

/-! ## Collecting any names -/

/-- A name that is collected has been there under its identity, or is added at the end. -/
theorem intern_cases (pool : NamePool) (raw : String) :
    (∃ slot, pool.raws[slot]? = some raw ∧ pool.intern raw = (⟨slot⟩, pool)) ∨
      pool.intern raw = (⟨pool.raws.length⟩, ⟨pool.raws ++ [raw]⟩) := by
  unfold intern
  cases hfind : pool.raws.findIdx? (· == raw) with
  | none => exact .inr rfl
  | some slot =>
    obtain ⟨hslot, hraw, -⟩ := List.findIdx?_eq_some_iff_getElem.1 hfind
    exact .inl ⟨slot, List.getElem?_eq_some_iff.2 ⟨hslot, beq_iff_eq.1 hraw⟩, rfl⟩

/-- Each identity stands for the name that it was given for, the names that were there before keep
their identities, and there are no others. -/
theorem internAll_stands (h : pool.internAll raws = (ids, pool')) :
    List.Forall₂ (fun raw id => pool'.raws[id.slot]? = some raw) raws ids ∧
      pool.raws <+: pool'.raws ∧ ∀ s ∈ pool'.raws, s ∈ pool.raws ∨ s ∈ raws := by
  induction raws generalizing pool ids with
  | nil =>
    cases h
    exact ⟨.nil, List.prefix_refl _, fun _ => .inl⟩
  | cons raw rest ih =>
    cases hfirst : pool.intern raw with | mk id pool₁
    cases hrest : pool₁.internAll rest with | mk ids' pool₂
    simp only [internAll, hfirst, hrest] at h
    cases h
    obtain ⟨heach, hkept, honly⟩ := ih hrest
    have hone : pool₁.raws[id.slot]? = some raw ∧ pool.raws <+: pool₁.raws ∧
        ∀ s ∈ pool₁.raws, s ∈ pool.raws ∨ s = raw := by
      obtain ⟨slot, hraw, heq⟩ | heq := intern_cases pool raw
      · cases hfirst.symm.trans heq
        exact ⟨hraw, List.prefix_refl _, fun _ => .inl⟩
      · cases hfirst.symm.trans heq
        exact ⟨by simp, List.prefix_append _ _, by simp⟩
    obtain ⟨hraw, hleads, hnew⟩ := hone
    obtain ⟨hslot, hget⟩ := List.getElem?_eq_some_iff.1 hraw
    have hraw' : pool'.raws[id.slot]? = some raw := by
      rw [List.prefix_iff_getElem?.1 hkept id.slot hslot, hget]
    refine ⟨.cons hraw' heach, hleads.trans hkept, fun s hs => ?_⟩
    rcases honly s hs with hs | hs
    · rcases hnew s hs with hs | rfl
      · exact .inl hs
      · exact .inr (.head _)
    · exact .inr (.tail _ hs)

/-! ## Resolving them -/

/-- What resolving the names of functions gives. Every function has its own index, under names that
differ. Every name goes to the function that is shown with it, and is another one than it was only
if it was made up for an import and is now that of what is imported. -/
structure Resolves (pool : NamePool) (ids : List NameId) (bearers : List Bearer)
    (table : NameTable) : Prop where
  own : ∀ i bearer, bearers[i]? = some bearer → (table.get bearer.name).index = i
  distinct : (bearers.map fun bearer => (table.get bearer.name).name).Nodup
  borne : ∀ id ∈ ids, ∃ bearer, bearers[(table.get id).index]? = some bearer ∧
    pool.shownAs bearer.name = pool.shownAs id
  renamed : ∀ id ∈ ids, (table.get id).name ≠ pool.shownAs id →
    "fimport$".toList <+: (pool.shownAs id).toList ∧ ∃ bearer base,
      bearers[(table.get id).index]? = some bearer ∧ bearer.imported = some base ∧
        Names.isBareIdentifier base = true ∧ (table.get id).name = "fimport_" ++ base

/-- The entry of a collected name in the table. -/
theorem bindsTo_get {map : List (String × Nat)} {taken : List String}
    (hbound : Bound bearers map pool.displayNames taken table) {id : NameId}
    (hid : id.slot < pool.raws.length) :
    BindsTo bearers map (pool.shownAs id) (table.get id) := by
  have hslot : id.slot < pool.displayNames.length := by simpa [displayNames] using hid
  have htable : id.slot < table.length := hbound.length_eq ▸ hslot
  have heach := (List.forall₂_iff_get.1 hbound.each).2 id.slot hslot htable
  simpa [shownAs, NameTable.get, List.getD_eq_getElem?_getD, hslot, htable] using heach

theorem resolves_of_bind (hids : ∀ id ∈ ids, id.slot < pool.raws.length)
    (hbearers : ∀ bearer ∈ bearers, bearer.name ∈ ids)
    (hnodup : (shown pool.displayNames bearers).Nodup)
    (hbind : bind bearers ((shown pool.displayNames bearers).zipIdx 0) pool.displayNames
      (shown pool.displayNames bearers) = .ok table) : Resolves pool ids bearers table := by
  have hbound := bind_bound hbind fun name hname =>
    isSome_lookup_zipIdx.1 (bind_isOk_iff.1 ⟨table, hbind⟩ name hname)
  have hslots : ∀ bearer ∈ bearers, bearer.name.slot < pool.displayNames.length := fun b hb => by
    simpa [displayNames] using hids b.name (hbearers b hb)
  -- A name goes to the function at its index, which is shown with it.
  have hborne : ∀ id ∈ ids, ∃ bearer, bearers[(table.get id).index]? = some bearer ∧
      pool.shownAs bearer.name = pool.shownAs id := by
    intro id hid
    obtain ⟨-, hshown⟩ := lookup_zipIdx (bindsTo_get hbound (hids id hid)).index
    rw [Nat.sub_zero, shown, List.getElem?_map, Option.map_eq_some_iff] at hshown
    exact hshown
  refine ⟨fun i bearer hbearer => ?_, ?_, hborne, fun id hid hne => ?_⟩
  · have hmem := List.mem_of_getElem? hbearer
    obtain ⟨other, hother, hsame⟩ := hborne _ (hbearers bearer hmem)
    obtain ⟨hi, hget⟩ := List.getElem?_eq_some_iff.1 hbearer
    obtain ⟨hj, hget'⟩ := List.getElem?_eq_some_iff.1 hother
    have hlength : (shown pool.displayNames bearers).length = bearers.length := by simp [shown]
    have hi' : i < (shown pool.displayNames bearers).length := hlength ▸ hi
    have hj' : (table.get bearer.name).index < (shown pool.displayNames bearers).length :=
      hlength ▸ hj
    have hij : (shown pool.displayNames bearers)[(table.get bearer.name).index] =
        (shown pool.displayNames bearers)[i] := by
      simpa [shown, shownAs, hget, hget'] using hsame
    exact hnodup.getElem_inj_iff.1 hij
  · have hnames : shown (table.map (·.name)) bearers =
        bearers.map fun bearer => (table.get bearer.name).name := by
      refine List.map_congr_left fun bearer _ => ?_
      cases h : table[bearer.name.slot]? <;> simp [NameTable.get, h]
    exact hnames ▸ hbound.shown_nodup hslots hnodup
  · obtain ⟨taken, hrename⟩ := (bindsTo_get hbound (hids id hid)).renamed hne
    obtain ⟨hleads, -, hbase⟩ := rename?_eq_some.1 hrename
    exact ⟨hleads, hbase⟩

/-- Resolving succeeds exactly if the functions are shown with different names and every collected
name is that of a function. The check after renaming is passed whenever it is come to. -/
theorem resolve_iff_distinct (hpool : internAll {} raws = (ids, pool))
    (hbearers : ∀ bearer ∈ bearers, bearer.name ∈ ids) :
    List.Forall₂ (fun raw id => pool.shownAs id = Names.displayForm raw) raws ids ∧
    ((∃ table, pool.resolve bearers = .ok table) ↔
      (bearers.map fun bearer => pool.shownAs bearer.name).Nodup ∧
        ∀ raw ∈ raws, ∃ bearer ∈ bearers, pool.shownAs bearer.name = Names.displayForm raw) ∧
    (∀ claimed table, claim pool.displayNames 0 bearers [] = .ok claimed →
      bind bearers claimed pool.displayNames (claimed.map (·.1)) = .ok table →
        ∃ again, claim (table.map (·.name)) 0 bearers [] = .ok again) ∧
    ∀ table, pool.resolve bearers = .ok table → Resolves pool ids bearers table := by
  obtain ⟨heach, -, honly⟩ := internAll_stands hpool
  have hids : ∀ id ∈ ids, id.slot < pool.raws.length := by
    intro id hid
    obtain ⟨i, hi, rfl⟩ := List.getElem_of_mem hid
    have hraw := (List.forall₂_iff_get.1 heach).2 i (heach.length_eq ▸ hi) hi
    exact (List.getElem?_eq_some_iff.1 hraw).1
  have hmem : ∀ raw ∈ raws, Names.displayForm raw ∈ pool.displayNames := by
    intro raw hraw
    obtain ⟨i, hi, rfl⟩ := List.getElem_of_mem hraw
    have hraw := (List.forall₂_iff_get.1 heach).2 i hi (heach.length_eq ▸ hi)
    exact List.mem_map_of_mem (List.mem_of_getElem? hraw)
  have hslots : ∀ bearer ∈ bearers, bearer.name.slot < pool.raws.length :=
    fun bearer hbearer => hids _ (hbearers bearer hbearer)
  refine ⟨heach.imp fun _ _ => shownAs_eq, ?_, ?_, ?_⟩
  · simp only [resolve_eq_ok hslots, exists_and_left, bind_isOk_iff, isSome_lookup_zipIdx]
    refine and_congr_right fun _ => ⟨fun h raw hraw => ?_, fun h name hname => ?_⟩
    · exact List.mem_map.1 (h _ (hmem raw hraw))
    · obtain ⟨raw, hraw, rfl⟩ := List.mem_map.1 hname
      exact List.mem_map.2 (h raw ((honly raw hraw).resolve_left List.not_mem_nil))
  · intro claimed table hclaim hbind
    have hnodup : (shown pool.displayNames bearers).Nodup := by
      simpa using claim_nodup (by simp) hclaim
    have hclaim' : claim pool.displayNames 0 bearers [] = .ok
        ([] ++ (shown pool.displayNames bearers).zipIdx 0) := claim_ok (by simpa using hnodup)
    cases hclaim.symm.trans hclaim'
    have hresolve := (resolve_eq_ok hslots).2 ⟨hnodup, by simpa using hbind⟩
    obtain ⟨_, -, hrest⟩ := bind_eq_ok.1 hresolve
    obtain ⟨table', -, hrest⟩ := bind_eq_ok.1 hrest
    obtain ⟨again, hagain, ⟨⟩⟩ := bind_eq_ok.1 hrest
    exact ⟨again, hagain⟩
  · intro table htable
    obtain ⟨hnodup, hbind⟩ := (resolve_eq_ok hslots).1 htable
    exact resolves_of_bind hids hbearers hnodup hbind

/-- Two imports of one thing, the first of them under a name that has been collected in two
spellings and that is borne in the second: the first spelling takes the new name, and both functions
keep theirs. -/
theorem resolve_iff_distinct_spellings :
    ∃ table, (internAll {} ["fimport$0", "\\66import$0", "fimport$1", "2"]).2.resolve
        [⟨⟨1⟩, some "puts"⟩, ⟨⟨2⟩, some "puts"⟩, ⟨⟨3⟩, none⟩] = .ok table ∧
      (table.get ⟨0⟩).name = "fimport_puts" ∧ (table.get ⟨0⟩).index = 0 ∧
      Resolves (internAll {} ["fimport$0", "\\66import$0", "fimport$1", "2"]).2
        [⟨0⟩, ⟨1⟩, ⟨2⟩, ⟨3⟩] [⟨⟨1⟩, some "puts"⟩, ⟨⟨2⟩, some "puts"⟩, ⟨⟨3⟩, none⟩] table := by
  have hpool : internAll {} ["fimport$0", "\\66import$0", "fimport$1", "2"] =
      ([⟨0⟩, ⟨1⟩, ⟨2⟩, ⟨3⟩], ⟨["fimport$0", "\\66import$0", "fimport$1", "2"]⟩) := by
    decide +kernel
  have hbearers : ∀ bearer ∈ ([⟨⟨1⟩, some "puts"⟩, ⟨⟨2⟩, some "puts"⟩, ⟨⟨3⟩, none⟩] : List Bearer),
      bearer.name ∈ ([⟨0⟩, ⟨1⟩, ⟨2⟩, ⟨3⟩] : List NameId) := by decide
  have htable : (internAll {} ["fimport$0", "\\66import$0", "fimport$1", "2"]).2.resolve
      [⟨⟨1⟩, some "puts"⟩, ⟨⟨2⟩, some "puts"⟩, ⟨⟨3⟩, none⟩] =
      .ok [⟨"fimport_puts", 0⟩, ⟨"fimport$0", 0⟩, ⟨"fimport$1", 1⟩, ⟨"$func2", 2⟩] := by
    decide +kernel
  obtain ⟨-, -, -, hresolves⟩ := resolve_iff_distinct hpool hbearers
  rw [hpool] at htable ⊢
  exact ⟨_, htable, rfl, rfl, hresolves _ htable⟩

end

end NamePool

end WasmLift
