import Mathlib.Data.List.Nodup
import Mathlib.Data.Option.Basic
import WasmLift.Names.Binding
import WasmLift.Proofs.Outcomes

/-!
# Bound names

Names that differ are collected under identities that count up (`NamePool.internAll_new`), and one
that is collected again keeps its identity (`NamePool.internAll_again`). A name that is renamed is
new to all others, so two names become the same only if both are kept (`NamePool.Bound`), and
binding succeeds if the functions are shown with different names and every collected name is that of
a function (`NamePool.resolve_eq_ok`). If the functions bear the collected names in order, every
name is bound to the function that bears it (`NamePool.resolve_ok`).
-/

namespace WasmLift

namespace NamePool

/-! ## Collecting -/

theorem intern_new {pool : NamePool} {raw : String} (hraw : raw ∉ pool.raws) :
    pool.intern raw = (⟨pool.raws.length⟩, ⟨pool.raws ++ [raw]⟩) := by
  have hnone : pool.raws.findIdx? (· == raw) = none := by
    rw [List.findIdx?_eq_none_iff]
    exact fun s hs => beq_false_of_ne fun heq => hraw (heq ▸ hs)
  rw [intern, hnone]

theorem intern_again {pool : NamePool} {raw : String} {k : Nat} (hnodup : pool.raws.Nodup)
    (hraw : pool.raws[k]? = some raw) : pool.intern raw = (⟨k⟩, pool) := by
  obtain ⟨hk, hget⟩ := List.getElem?_eq_some_iff.1 hraw
  have hsome : pool.raws.findIdx? (· == raw) = some k := by
    rw [List.findIdx?_eq_some_iff_getElem]
    refine ⟨hk, by simp [hget], fun j hj hbeq => ?_⟩
    have heq : pool.raws[j] = pool.raws[k] := by rw [hget, beq_iff_eq.1 hbeq]
    have := (hnodup.getElem_inj_iff).1 heq
    omega
  rw [intern, hsome]

/-- New names are collected under identities that count up. -/
theorem internAll_new {pool : NamePool} {names : List String} (h : (pool.raws ++ names).Nodup) :
    pool.internAll names =
      ((List.range' pool.raws.length names.length).map NameId.mk, ⟨pool.raws ++ names⟩) := by
  induction names generalizing pool with
  | nil => simp [internAll]
  | cons raw rest ih =>
    have hraw : raw ∉ pool.raws := fun hmem =>
      List.disjoint_of_nodup_append h hmem (.head _)
    have hrest : ((pool.raws ++ [raw]) ++ rest).Nodup := by simpa using h
    simp [internAll, intern_new hraw, @ih ⟨pool.raws ++ [raw]⟩ hrest, List.range'_succ]

/-- Names that have been collected keep their identities, and nothing else is collected. -/
theorem internAll_again {pool : NamePool} {indices : List Nat} {names : List String}
    (hnodup : pool.raws.Nodup) (hnames : indices.map (pool.raws[·]?) = names.map some) :
    pool.internAll names = (indices.map NameId.mk, pool) := by
  induction names generalizing indices with
  | nil =>
    obtain rfl : indices = [] := by simpa using hnames
    rfl
  | cons raw rest ih =>
    match indices with
    | k :: indices =>
      obtain ⟨hraw, hrest⟩ := List.cons.inj hnames
      simp [internAll, intern_again hnodup hraw, ih hrest]

/-! ## Binding -/

/-- The shown names of the functions. -/
def shown (names : List String) (bearers : List Bearer) : List String :=
  bearers.map fun bearer => names.getD bearer.name.slot ""

theorem lookup_eq_none_iff_not_mem {map : List (String × Nat)} {name : String} :
    map.lookup name = none ↔ name ∉ map.map (·.1) := by
  rw [List.lookup_eq_none_iff]
  constructor
  · intro h hmem
    obtain ⟨entry, hentry, rfl⟩ := List.mem_map.1 hmem
    exact bne_iff_ne.1 (h entry hentry) rfl
  · exact fun h entry hentry => bne_iff_ne.2 fun heq => h (heq ▸ List.mem_map_of_mem hentry)

/-- Functions with different names claim them in order. -/
theorem claim_ok {names : List String} {index : Nat} {bearers : List Bearer}
    {map : List (String × Nat)} (h : (map.map (·.1) ++ shown names bearers).Nodup) :
    claim names index bearers map = .ok (map ++ (shown names bearers).zipIdx index) := by
  induction bearers generalizing index map with
  | nil => simp [claim, shown]
  | cons bearer rest ih =>
    have hnone : map.lookup (names.getD bearer.name.slot "") = none :=
      lookup_eq_none_iff_not_mem.2 fun hmem => List.disjoint_of_nodup_append h hmem (.head _)
    have hrest : ((map ++ [(names.getD bearer.name.slot "", index)]).map (·.1) ++
        shown names rest).Nodup := by
      simpa [shown] using h
    simp only [claim, hnone, ih hrest]
    simp [shown]

/-- Functions claim their names only if these are different. -/
theorem claim_nodup {names : List String} {index : Nat} {bearers : List Bearer}
    {map claimed : List (String × Nat)} (hmap : (map.map (·.1)).Nodup)
    (h : claim names index bearers map = .ok claimed) :
    (map.map (·.1) ++ shown names bearers).Nodup := by
  induction bearers generalizing index map with
  | nil => simpa [shown] using hmap
  | cons bearer rest ih =>
    rw [claim] at h
    cases hlookup : map.lookup (names.getD bearer.name.slot "") with
    | some first =>
      simp only [hlookup] at h
      cases h
    | none =>
      simp only [hlookup] at h
      have hnew := lookup_eq_none_iff_not_mem.1 hlookup
      have hmap' : ((map ++ [(names.getD bearer.name.slot "", index)]).map (·.1)).Nodup := by
        rw [List.map_append]
        exact hmap.append (List.nodup_singleton _) (by simpa using hnew)
      simpa [shown] using ih hmap' h

theorem lookup_zipIdx {names : List String} {name : String} {k index : Nat}
    (h : (names.zipIdx k).lookup name = some index) :
    k ≤ index ∧ names[index - k]? = some name := by
  induction names generalizing k with
  | nil => cases h
  | cons first rest ih =>
    rw [List.zipIdx_cons, List.lookup_cons] at h
    cases hfirst : name == first with
    | true =>
      simp only [hfirst] at h
      cases h
      simp [beq_iff_eq.1 hfirst]
    | false =>
      simp only [hfirst] at h
      obtain ⟨hle, hname⟩ := ih h
      have hsub : index - k = index - (k + 1) + 1 := by omega
      exact ⟨by omega, by rw [hsub, List.getElem?_cons_succ, hname]⟩

theorem isSome_lookup_zipIdx {names : List String} {name : String} :
    ((names.zipIdx 0).lookup name).isSome ↔ name ∈ names := by
  have hnone := @lookup_eq_none_iff_not_mem (names.zipIdx 0) name
  rw [List.zipIdx_map_fst] at hnone
  rw [← Option.ne_none_iff_isSome, Ne, hnone, not_not]

/-- A made-up name of an import is renamed after what it imports, if that is a bare identifier and
the new name is not taken. -/
theorem rename?_eq_some {bearers : List Bearer} {taken : List String} {name renamed : String}
    {index : Nat} : rename? bearers taken name index = some renamed ↔
      "fimport$".toList <+: name.toList ∧ renamed ∉ taken ∧ ∃ bearer base,
        bearers[index]? = some bearer ∧ bearer.imported = some base ∧
          Names.isBareIdentifier base = true ∧ renamed = "fimport_" ++ base := by
  simp only [rename?, Option.bind_eq_bind, Option.bind_eq_some_iff]
  constructor
  · rintro ⟨_, hleads, bearer, hbearer, base, hbase, _, hguard, ⟨⟩⟩
    have hfree := Bool.and_eq_true_iff.1 ((Option.guard_eq_some' _).1 hguard)
    refine ⟨List.isPrefixOf_iff_prefix.1 ((Option.guard_eq_some' _).1 hleads), ?_, bearer, base,
      hbearer, hbase, hfree.1, rfl⟩
    simpa using hfree.2
  · rintro ⟨hleads, hfree, bearer, base, hbearer, hbase, hbare, rfl⟩
    refine ⟨(), (Option.guard_eq_some' _).2 (List.isPrefixOf_iff_prefix.2 hleads), bearer, hbearer,
      base, hbase, (), (Option.guard_eq_some' _).2 ?_, rfl⟩
    simpa [hbare] using hfree

/-- A name is bound where the map says, and keeps its form unless it is renamed. -/
structure BindsTo (bearers : List Bearer) (map : List (String × Nat)) (name : String)
    (identifier : Identifier) : Prop where
  index : map.lookup name = some identifier.index
  renamed : identifier.name ≠ name →
    ∃ taken, rename? bearers taken name identifier.index = some identifier.name

/-- The outcome of binding. Names that are renamed are new to `taken`, and no two names become the
same unless both are kept. -/
structure Bound (bearers : List Bearer) (map : List (String × Nat)) (names taken : List String)
    (table : NameTable) : Prop where
  each : List.Forall₂ (BindsTo bearers map) names table
  fresh : ∀ entry ∈ names.zip table, entry.2.name = entry.1 ∨ entry.2.name ∉ taken
  apart : (names.zip table).Pairwise fun a b =>
    a.2.name = b.2.name → a.2.name = a.1 ∧ b.2.name = b.1

theorem bind_bound {bearers : List Bearer} {map : List (String × Nat)} {names taken : List String}
    {table : NameTable} (h : bind bearers map names taken = .ok table) (htaken : names ⊆ taken) :
    Bound bearers map names taken table := by
  induction names generalizing taken table with
  | nil =>
    cases h
    exact ⟨.nil, List.forall_mem_nil _, .nil⟩
  | cons name rest ih =>
    obtain ⟨hname, hrest⟩ := List.cons_subset.1 htaken
    rw [bind] at h
    cases hindex : map.lookup name with
    | none =>
      simp only [hindex] at h
      cases h
    | some index =>
      simp only [hindex] at h
      cases hrename : rename? bearers taken name index with
      | none =>
        simp only [hrename] at h
        obtain ⟨table, hbind, ⟨⟩⟩ := bind_eq_ok.1 h
        have hbound := ih hbind hrest
        refine ⟨.cons ⟨hindex, fun hne => (hne rfl).elim⟩ hbound.each, ?_, ?_⟩
        · exact List.forall_mem_cons.2 ⟨.inl rfl, hbound.fresh⟩
        · refine List.pairwise_cons.2 ⟨fun b hb heq => ⟨rfl, ?_⟩, hbound.apart⟩
          exact (hbound.fresh b hb).resolve_right fun hnew => hnew (heq ▸ hname)
      | some renamed =>
        simp only [hrename] at h
        obtain ⟨table, hbind, ⟨⟩⟩ := bind_eq_ok.1 h
        have hnew := (rename?_eq_some.1 hrename).2.1
        have hbound := ih hbind (List.Subset.trans hrest (List.subset_cons_self _ _))
        refine ⟨.cons ⟨hindex, fun _ => ⟨taken, hrename⟩⟩ hbound.each, ?_, ?_⟩
        · refine List.forall_mem_cons.2 ⟨.inr hnew, fun b hb => ?_⟩
          exact (hbound.fresh b hb).imp_right fun hb hmem => hb (.tail _ hmem)
        · refine List.pairwise_cons.2 ⟨fun b hb heq => ?_, hbound.apart⟩
          -- The later name would have been kept, so it would be one of those that are taken.
          have hkept := (hbound.fresh b hb).resolve_right fun hb => hb (heq ▸ .head _)
          have hmem : b.1 ∈ rest := (List.of_mem_zip hb).1
          have heq : renamed = b.2.name := heq
          exact absurd (hrest hmem) (by rwa [← hkept, ← heq])

/-- Names can be bound exactly if the map says where to. -/
theorem bind_isOk_iff {bearers : List Bearer} {map : List (String × Nat)}
    {names taken : List String} :
    (∃ table, bind bearers map names taken = .ok table) ↔
      ∀ name ∈ names, (map.lookup name).isSome := by
  induction names generalizing taken with
  | nil => exact iff_of_true ⟨[], rfl⟩ (List.forall_mem_nil _)
  | cons name rest ih =>
    rw [List.forall_mem_cons, bind]
    cases map.lookup name with
    | none => simp
    | some index =>
      cases hrename : rename? bearers taken name index with
      | none =>
        rw [← @ih taken]
        cases hbind : bind bearers map rest taken <;> simp [hrename]
      | some renamed =>
        rw [← @ih (renamed :: taken)]
        cases hbind : bind bearers map rest (renamed :: taken) <;> simp [hrename, hbind]

section
variable {pool : NamePool} {bearers : List Bearer} {map : List (String × Nat)}
  {names taken : List String} {table : NameTable}

theorem Bound.length_eq (h : Bound bearers map names taken table) :
    names.length = table.length :=
  h.each.length_eq

/-- Two names become the same only if both are kept. -/
theorem Bound.kept (h : Bound bearers map names taken table) {j k : Nat} (hjk : j ≠ k)
    {n m : String} {a b : Identifier} (hn : names[j]? = some n) (hm : names[k]? = some m)
    (ha : table[j]? = some a) (hb : table[k]? = some b) (heq : a.name = b.name) :
    a.name = n ∧ b.name = m := by
  have hentry {i : Nat} {s : String} {c : Identifier} (hs : names[i]? = some s)
      (hc : table[i]? = some c) : ∃ hi : i < (names.zip table).length,
        (names.zip table)[i] = (s, c) :=
    List.getElem?_eq_some_iff.1 (List.getElem?_zip_eq_some.2 ⟨hs, hc⟩)
  obtain ⟨hj, hj'⟩ := hentry hn ha
  obtain ⟨hk, hk'⟩ := hentry hm hb
  have hapart := List.pairwise_iff_getElem.1 h.apart
  rcases Nat.lt_or_gt_of_ne hjk with hlt | hlt
  · have h := hapart j k hj hk hlt
    rw [hj', hk'] at h
    exact h heq
  · have h := hapart k j hk hj hlt
    rw [hj', hk'] at h
    exact (h heq.symm).symm

/-- Functions that are shown with different names are so after binding. -/
theorem Bound.shown_nodup (h : Bound bearers map names taken table)
    (hslots : ∀ bearer ∈ bearers, bearer.name.slot < names.length)
    (hnodup : (shown names bearers).Nodup) : (shown (table.map (·.name)) bearers).Nodup := by
  refine List.pairwise_map.2 ((List.pairwise_map.1 hnodup).imp_of_mem fun {b c} hb hc hne => ?_)
  intro heq
  have hget {bearer : Bearer} (hbearer : bearer ∈ bearers) : ∃ n i,
      names[bearer.name.slot]? = some n ∧ table[bearer.name.slot]? = some i := by
    have hslot := hslots bearer hbearer
    exact ⟨_, _, List.getElem?_eq_getElem hslot, List.getElem?_eq_getElem (h.length_eq ▸ hslot)⟩
  obtain ⟨n, i, hn, hi⟩ := hget hb
  obtain ⟨m, j, hm, hj⟩ := hget hc
  simp only [List.getD_eq_getElem?_getD, List.getElem?_map, hn, hm, hi, hj, Option.map_some,
    Option.getD_some] at heq hne
  by_cases hslot : b.name.slot = c.name.slot
  · exact hne (Option.some.inj ((hn.symm.trans (by rw [hslot])).trans hm))
  · obtain ⟨hi, hj⟩ := h.kept hslot hn hm hi hj heq
    exact hne (hi.symm.trans (heq.trans hj))

/-- Names are resolved if the functions are shown with different names and all names can be bound to
them. The names that come of it differ too, so the second check is passed whenever the first is. -/
theorem resolve_eq_ok (hslots : ∀ bearer ∈ bearers, bearer.name.slot < pool.raws.length) :
    pool.resolve bearers = .ok table ↔ (shown pool.displayNames bearers).Nodup ∧
      bind bearers ((shown pool.displayNames bearers).zipIdx 0) pool.displayNames
        (shown pool.displayNames bearers) = .ok table := by
  have hclaim (hnodup : (shown pool.displayNames bearers).Nodup) :
      claim pool.displayNames 0 bearers [] = .ok ((shown pool.displayNames bearers).zipIdx 0) := by
    rw [claim_ok (by simpa using hnodup), List.nil_append]
  constructor
  · intro h
    obtain ⟨claimed, hfirst, h⟩ := bind_eq_ok.1 h
    have hnodup : (shown pool.displayNames bearers).Nodup := by
      simpa using claim_nodup (by simp) hfirst
    obtain ⟨table', hbind, h⟩ := bind_eq_ok.1 h
    obtain ⟨_, -, ⟨⟩⟩ := bind_eq_ok.1 h
    cases (hclaim hnodup).symm.trans hfirst
    exact ⟨hnodup, by simpa using hbind⟩
  · rintro ⟨hnodup, hbind⟩
    have htaken : pool.displayNames ⊆ shown pool.displayNames bearers := fun name hname =>
      isSome_lookup_zipIdx.1 (bind_isOk_iff.1 ⟨table, hbind⟩ name hname)
    have hbound := bind_bound hbind htaken
    have hagain := hbound.shown_nodup (by simpa [displayNames] using hslots) hnodup
    refine bind_eq_ok.2 ⟨_, hclaim hnodup, bind_eq_ok.2 ⟨table, by simpa using hbind, ?_⟩⟩
    refine bind_eq_ok.2 ⟨_, claim_ok (by simpa using hagain), rfl⟩

/-- The functions bear the collected names in order. -/
def InOrder (pool : NamePool) (bearers : List Bearer) : Prop :=
  bearers.map (·.name) = (List.range pool.raws.length).map NameId.mk

theorem InOrder.slots (h : pool.InOrder bearers) :
    ∀ bearer ∈ bearers, bearer.name.slot < pool.raws.length := by
  intro bearer hbearer
  have hname : bearer.name ∈ (List.range pool.raws.length).map NameId.mk :=
    h ▸ List.mem_map_of_mem hbearer
  obtain ⟨slot, hslot, hname⟩ := List.mem_map.1 hname
  rw [← hname]
  exact List.mem_range.1 hslot

theorem InOrder.shown (h : pool.InOrder bearers) (hlength : names.length = pool.raws.length) :
    shown names bearers = names := by
  have hmap : NamePool.shown names bearers =
      (bearers.map (·.name)).map fun id => names.getD id.slot "" := by
    simp [NamePool.shown]
  rw [hmap, h, ← hlength]
  exact List.ext_getElem (by simp) fun i _ hi => by simp [List.getElem?_eq_getElem hi]

/-- Binding succeeds: every name goes to the function that bears it, and no two functions are shown
with the same name. -/
theorem resolve_ok (hnodup : pool.displayNames.Nodup) (hbearers : pool.InOrder bearers) :
    ∃ table, pool.resolve bearers = .ok table ∧ (table.map (·.name)).Nodup ∧
      table.map (·.index) = List.range pool.raws.length := by
  have hlength : pool.displayNames.length = pool.raws.length := by simp [displayNames]
  have hshown := hbearers.shown hlength
  obtain ⟨table, hbind⟩ : ∃ table, bind bearers (pool.displayNames.zipIdx 0) pool.displayNames
      pool.displayNames = .ok table := bind_isOk_iff.2 fun _ => isSome_lookup_zipIdx.2
  have hbound := bind_bound hbind (List.Subset.refl _)
  have htable : (table.map (·.name)).length = pool.raws.length := by
    rw [List.length_map, ← hbound.length_eq, hlength]
  refine ⟨table, (resolve_eq_ok hbearers.slots).2 (by rw [hshown]; exact ⟨hnodup, hbind⟩), ?_, ?_⟩
  · rw [← hbearers.shown htable]
    exact hbound.shown_nodup (by simpa [hlength] using hbearers.slots) (by rwa [hshown])
  · refine List.ext_getElem (by simpa using htable) fun i hi _ => ?_
    rw [List.length_map] at hi
    have hname := (List.forall₂_iff_get.1 hbound.each).2 i (hbound.length_eq ▸ hi) hi
    obtain ⟨-, hindex⟩ := lookup_zipIdx hname.index
    rw [Nat.sub_zero, List.get_eq_getElem] at hindex
    obtain ⟨hlt, hget⟩ := List.getElem?_eq_some_iff.1 hindex
    have heq := hnodup.getElem_inj_iff.1 hget
    simpa using heq

end

end NamePool

end WasmLift
