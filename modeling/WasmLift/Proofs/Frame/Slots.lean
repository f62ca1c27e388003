import Mathlib.Data.List.Pairwise
import WasmLift.Frame.Layout

/-!
# Stack slots after any number of accesses

A layout grows by one access at a time, and nothing in it ever moves. Whatever is accessed, no slot
begins inside another but at its start, and two slots begin at one byte only if the first of them
ends where no signed 64-bit number reaches (`FrameLayout.Sound`). So the place of a byte is the same
whenever it is asked for (`Sound.holds_unique`).

Where all slots end in reach, they are byte ranges that do not overlap (`Exact.apart`). What an
access is given then depends on the slots that it meets and on nothing else (`Exact.resolve_inside`,
`Exact.resolve_touching`, `Exact.resolve_apart`). The order of discovery decides where the slots
are, and from then on every byte of a slot is found in it (`FrameLayout.resolve_slots`).
-/

namespace WasmLift

/-! ## Sums of 64 bits -/

/-- A number in range is left as it is. -/
theorem wrap64_of_fits {n : Int} (hlower : -0x8000000000000000 ≤ n)
    (hupper : n < 0x8000000000000000) : wrap64 n = n :=
  Int.bmod_eq_of_le_mul_two (by omega) (by omega)

/-- A sum of natural numbers never grows by wrapping around. -/
theorem wrap64_le {n : Int} (hn : 0 ≤ n) : wrap64 n ≤ n := by
  unfold wrap64 Int.bmod
  dsimp only
  split <;> omega

/-- An access to the frame: at least one byte, as a value of the given type, that ends where a
signed 64-bit number reaches. -/
structure FrameAccess where
  offset : Nat
  bytes : Nat
  ty : Ty
  bytes_pos : 0 < bytes := by decide
  fits : offset + bytes < 0x8000000000000000 := by decide

namespace FrameAccess

/-- The offset after the last byte. -/
def stop (a : FrameAccess) : Nat :=
  a.offset + a.bytes

/-- The slot that an access finds where there is none. -/
def slot (a : FrameAccess) : Slot :=
  ⟨a.offset, a.bytes, a.ty⟩

end FrameAccess

namespace Slot

/-- The offset after the last byte, however large it is. -/
def limit (s : Slot) : Nat :=
  s.offset + s.size

/-- The slot ends where a signed 64-bit number reaches. -/
def Fits (s : Slot) : Prop :=
  s.limit < 0x8000000000000000

/-- All bytes of an access belong to the slot. -/
def Covers (s : Slot) (a : FrameAccess) : Prop :=
  s.offset ≤ a.offset ∧ a.stop ≤ s.limit

/-- Some byte of an access belongs to the slot. -/
def Meets (s : Slot) (a : FrameAccess) : Prop :=
  s.offset < a.stop ∧ a.offset < s.limit

/-- No byte belongs to both slots. -/
def Apart (s t : Slot) : Prop :=
  s.limit ≤ t.offset ∨ t.limit ≤ s.offset

instance (s : Slot) : Decidable s.Fits :=
  inferInstanceAs (Decidable (_ < _))

instance (s : Slot) (a : FrameAccess) : Decidable (s.Covers a) :=
  inferInstanceAs (Decidable (_ ∧ _))

instance (s : Slot) (a : FrameAccess) : Decidable (s.Meets a) :=
  inferInstanceAs (Decidable (_ ∧ _))

section
variable {s t : Slot} {a : FrameAccess} {offset : Nat}

theorem stop_of_fits (h : s.Fits) : s.stop = s.limit := by
  unfold Fits at h
  unfold stop limit at *
  rw [wrap64_of_fits (by omega) (by omega)]
  rfl

theorem stop_le (s : Slot) : s.stop ≤ s.limit :=
  wrap64_le (by omega)

theorem contains_iff : s.contains offset = true ↔ s.offset ≤ offset ∧ offset < s.stop := by
  simp [contains]

/-- A byte of a slot lies in front of its end. -/
theorem lt_limit (h : s.contains offset = true) : offset < s.limit := by
  have hstop := s.stop_le
  have hlast := (contains_iff.1 h).2
  omega

theorem contains_iff_of_fits (h : s.Fits) :
    s.contains offset = true ↔ s.offset ≤ offset ∧ offset < s.limit := by
  rw [contains_iff, stop_of_fits h, Int.ofNat_lt]

theorem Apart.symm (h : s.Apart t) : t.Apart s :=
  h.elim .inr .inl

end

end Slot

namespace FrameLayout

/-- The layout has the place: at the start of a slot or at another byte that is found in it. -/
def Holds (layout : FrameLayout) (place : SlotPlace) : Prop :=
  ∃ s ∈ layout.slots, s.offset = place.offset ∧ place.diff < s.size ∧
    (place.diff = 0 ∨ s.contains (place.offset + place.diff) = true)

/-- The slots of a layout are not empty, none begins inside another but at its start, and none
begins where one begins that was found before it and ends in reach. -/
structure Sound (layout : FrameLayout) : Prop where
  size_pos : ∀ s ∈ layout.slots, 0 < s.size
  anchored : ∀ s ∈ layout.slots, ∀ t ∈ layout.slots, s.contains t.offset = true →
    s.offset = t.offset
  distinct : layout.slots.Pairwise fun s t => s.Fits → s.offset ≠ t.offset

/-- All slots of a layout end in reach, too. -/
structure Exact (layout : FrameLayout) : Prop extends layout.Sound where
  fits : ∀ s ∈ layout.slots, s.Fits

theorem sound_empty : Sound {} :=
  ⟨by simp, by simp, .nil⟩

theorem exact_empty : Exact {} :=
  ⟨sound_empty, by simp⟩

section
variable {layout layout' : FrameLayout} {s t : Slot} {offset bytes : Nat} {ty : Ty}
  {place place' : SlotPlace}

/-- A slot that is found at an offset holds the byte there. -/
theorem find?_some (hfind : layout.find? offset = some s) :
    s ∈ layout.slots ∧ s.contains offset = true := by
  unfold FrameLayout.find? at hfind
  exact ⟨List.mem_of_find?_eq_some hfind, by simpa using List.find?_some hfind⟩

/-! ## One access, wherever it ends -/

/-- An access that has a place lies in a slot found before it, which stays alone, or it is given a
new slot where it does not begin in one and no other begins further inside it. -/
theorem place_cases (h : layout.place offset bytes ty = .inside place layout') :
    (∃ s ∈ layout.slots, s.contains offset = true ∧ ¬s.stop < wrap64 (offset + bytes) ∧
      place = ⟨s.offset, offset - s.offset⟩ ∧ layout' = layout) ∨
    ((∀ s ∈ layout.slots, s.contains offset = false) ∧
      (∀ s ∈ layout.slots, offset < s.offset → ¬s.offset < wrap64 (offset + bytes)) ∧
      place = ⟨offset, 0⟩ ∧ layout' = ⟨layout.slots ++ [⟨offset, bytes, ty⟩]⟩) := by
  unfold FrameLayout.place at h
  split at h
  · next s hfind =>
    obtain ⟨hs, hcontains⟩ := find?_some hfind
    split at h
    · cases h
    · next hlast =>
      cases h
      exact .inl ⟨s, hs, hcontains, hlast, rfl, rfl⟩
  · next hfind =>
    split at h
    · cases h
    · next hobstacle =>
      cases h
      refine .inr ⟨fun s hs => ?_, fun s hs hlt hend => ?_, rfl, rfl⟩
      · simpa using List.find?_eq_none.1 hfind s hs
      · exact List.find?_eq_none.1 hobstacle s hs (by simp [hlt, hend])

/-- An access is placed at its own offset. -/
theorem place_sum (h : layout.place offset bytes ty = .inside place layout') :
    place.offset + place.diff = offset := by
  obtain ⟨s, -, hcontains, -, rfl, -⟩ | ⟨-, -, rfl, -⟩ := place_cases h
  · exact Nat.add_sub_cancel' (Slot.contains_iff.1 hcontains).1
  · rfl

/-- Slots stay, and at most that of the access is new. -/
theorem place_slots (h : layout.place offset bytes ty = .inside place layout') :
    layout.slots ⊆ layout'.slots ∧
      ∀ s ∈ layout'.slots, s ∈ layout.slots ∨ s = ⟨offset, bytes, ty⟩ := by
  obtain ⟨-, -, -, -, -, rfl⟩ | ⟨-, -, -, rfl⟩ := place_cases h
  · exact ⟨fun _ hs => hs, fun _ hs => .inl hs⟩
  · exact ⟨List.subset_append_left _ _, by simp⟩

/-- A byte that is found in a slot is a place in it. -/
theorem holds_of_contains (hs : s ∈ layout.slots) (hcontains : s.contains offset = true) :
    layout.Holds ⟨s.offset, offset - s.offset⟩ := by
  have hfirst := (Slot.contains_iff.1 hcontains).1
  have hlimit : offset < s.offset + s.size := Slot.lt_limit hcontains
  refine ⟨s, hs, rfl, by dsimp only; omega, .inr ?_⟩
  dsimp only
  rwa [Nat.add_sub_cancel' hfirst]

/-- From now on the layout has the place, and that of the last byte of the access, too, if it ends
in reach. -/
theorem place_holds (hbytes : 0 < bytes)
    (h : layout.place offset bytes ty = .inside place layout') :
    layout'.Holds place ∧
      (offset + bytes < 0x8000000000000000 →
        layout'.Holds ⟨place.offset, place.diff + bytes - 1⟩) := by
  obtain ⟨s, hs, hcontains, hlast, rfl, rfl⟩ | ⟨-, -, rfl, rfl⟩ := place_cases h
  · refine ⟨holds_of_contains hs hcontains, fun hfits => ?_⟩
    have hfirst := (Slot.contains_iff.1 hcontains).1
    rw [wrap64_of_fits (by omega) (by omega)] at hlast
    have hend : s.contains (offset + bytes - 1) = true := Slot.contains_iff.2 ⟨by omega, by omega⟩
    have hdiff : offset - s.offset + bytes - 1 = offset + bytes - 1 - s.offset := by omega
    dsimp only
    rw [hdiff]
    exact holds_of_contains hs hend
  · have hmem : (⟨offset, bytes, ty⟩ : Slot) ∈ layout.slots ++ [⟨offset, bytes, ty⟩] := by simp
    refine ⟨⟨_, hmem, rfl, hbytes, .inl rfl⟩, fun hfits => ⟨_, hmem, rfl, ?_, .inr ?_⟩⟩
    · dsimp only
      omega
    · have hend : Slot.Fits ⟨offset, bytes, ty⟩ := hfits
      refine (Slot.contains_iff_of_fits hend).2 ⟨Nat.le_add_right _ _, ?_⟩
      dsimp only [Slot.limit]
      omega

/-- A layout stays sound, whatever is accessed. -/
theorem Sound.of_place (hsound : layout.Sound) (hbytes : 0 < bytes)
    (h : layout.place offset bytes ty = .inside place layout') : layout'.Sound := by
  obtain ⟨-, -, -, -, -, rfl⟩ | ⟨houtside, hbeyond, -, rfl⟩ := place_cases h
  · exact hsound
  refine ⟨?_, ?_, ?_⟩
  · simpa [or_imp, forall_and, hbytes] using hsound.size_pos
  · intro s hs t ht hcontains
    rcases List.mem_append.1 hs with hs | hs <;> rcases List.mem_append.1 ht with ht | ht
    · exact hsound.anchored s hs t ht hcontains
    · rw [List.mem_singleton.1 ht] at hcontains
      exact absurd hcontains (by simp [houtside s hs])
    · -- A slot that begins further inside the access would stand in its way.
      rw [List.mem_singleton.1 hs] at hcontains ⊢
      obtain ⟨hfirst, hlast⟩ := Slot.contains_iff.1 hcontains
      rcases Nat.eq_or_lt_of_le hfirst with heq | hlt
      · exact heq
      · exact absurd hlast (hbeyond t ht hlt)
    · rw [List.mem_singleton.1 hs, List.mem_singleton.1 ht]
  · refine List.pairwise_append.2 ⟨hsound.distinct, List.pairwise_singleton _ _, ?_⟩
    intro s hs t ht hfits heq
    rw [List.mem_singleton.1 ht] at heq
    have hpos := hsound.size_pos s hs
    have hcontains : s.contains offset = true :=
      (Slot.contains_iff_of_fits hfits).2
        ⟨Nat.le_of_eq heq, by unfold Slot.limit; dsimp only at heq; omega⟩
    exact absurd hcontains (by simp [houtside s hs])

/-- A byte has one place. -/
theorem Sound.holds_unique (h : layout.Sound) (hplace : layout.Holds place)
    (hplace' : layout.Holds place')
    (hsum : place.offset + place.diff = place'.offset + place'.diff) : place = place' := by
  obtain ⟨s, hs, hstart, -, hfound⟩ := hplace
  obtain ⟨t, ht, hstart', -, hfound'⟩ := hplace'
  -- Where one is at the start of its slot, the other finds this start in its own.
  have hoffset : s.offset = t.offset := by
    rcases hfound with hzero | hfound <;> rcases hfound' with hzero' | hfound'
    · omega
    · rw [← hsum, hzero, Nat.add_zero, ← hstart] at hfound'
      exact (h.anchored t ht s hs hfound').symm
    · rw [hsum, hzero', Nat.add_zero, ← hstart'] at hfound
      exact h.anchored s hs t ht hfound
    · rw [← hsum] at hfound'
      rw [Slot.contains_iff] at hfound hfound'
      rcases Nat.le_total s.offset t.offset with hle | hle
      · exact h.anchored s hs t ht (Slot.contains_iff.2 ⟨hle, by omega⟩)
      · exact (h.anchored t ht s hs (Slot.contains_iff.2 ⟨hle, by omega⟩)).symm
  have hdiff : place.diff = place'.diff := by omega
  exact congrArg₂ SlotPlace.mk (hstart.symm.trans (hoffset.trans hstart')) hdiff

end

/-! ## Slots that end in reach -/

/-- The place an access is given, if it is given one, and the layout after it. -/
def resolve (layout : FrameLayout) (a : FrameAccess) : Option SlotPlace × FrameLayout :=
  match layout.place a.offset a.bytes a.ty with
  | .inside place layout' => (some place, layout')
  | .outside _ => (none, layout)

/-- The layout after a list of accesses. -/
def after (layout : FrameLayout) (accesses : List FrameAccess) : FrameLayout :=
  accesses.foldl (fun l a => (l.resolve a).2) layout

@[simp] theorem after_nil (layout : FrameLayout) : layout.after [] = layout := rfl

@[simp] theorem after_cons (layout : FrameLayout) (a : FrameAccess) (rest : List FrameAccess) :
    layout.after (a :: rest) = (layout.resolve a).2.after rest := rfl

section
variable {layout : FrameLayout} {s t : Slot} {a : FrameAccess}

/-- Slots that end in reach do not overlap. -/
theorem Exact.apart (h : layout.Exact) : layout.slots.Pairwise Slot.Apart := by
  refine h.distinct.imp_of_mem fun {s t} hs ht hdistinct => ?_
  have hne := hdistinct (h.fits s hs)
  unfold Slot.Apart
  rcases Nat.lt_or_gt_of_ne hne with hlt | hlt
  · refine .inl (Nat.le_of_not_lt fun hinside => hne ?_)
    exact h.anchored s hs t ht
      ((Slot.contains_iff_of_fits (h.fits s hs)).2 ⟨Nat.le_of_lt hlt, hinside⟩)
  · refine .inr (Nat.le_of_not_lt fun hinside => hne.symm ?_)
    exact h.anchored t ht s hs
      ((Slot.contains_iff_of_fits (h.fits t ht)).2 ⟨Nat.le_of_lt hlt, hinside⟩)

/-- Two slots are apart. -/
theorem Exact.apart_of_ne (h : layout.Exact) (hs : s ∈ layout.slots) (ht : t ∈ layout.slots)
    (hne : s ≠ t) : s.Apart t :=
  have : Std.Symm Slot.Apart := ⟨fun _ _ => Slot.Apart.symm⟩
  h.apart.forall hs ht hne

/-- The slot that holds a byte is the one found there. -/
theorem Exact.find? (h : layout.Exact) {offset : Nat} (hs : s ∈ layout.slots)
    (hfirst : s.offset ≤ offset) (hlast : offset < s.limit) : layout.find? offset = some s := by
  have hso : s.contains offset = true :=
    (Slot.contains_iff_of_fits (h.fits s hs)).2 ⟨hfirst, hlast⟩
  cases hfind : layout.find? offset with
  | none =>
    have hnone := List.find?_eq_none.1 hfind s hs
    exact absurd hso hnone
  | some t =>
    obtain ⟨ht, hto⟩ := find?_some hfind
    by_cases hst : s = t
    · rw [hst]
    · have hapart := h.apart_of_ne hs ht hst
      rw [Slot.contains_iff_of_fits (h.fits t ht)] at hto
      unfold Slot.Apart at hapart
      omega

/-- Every byte of a slot is found in it. -/
theorem Exact.placeAt? (h : layout.Exact) (hs : s ∈ layout.slots) {offset : Int}
    (hfirst : s.offset ≤ offset) (hlast : offset < s.limit) :
    layout.placeAt? offset = some ⟨s.offset, (offset - s.offset).toNat⟩ := by
  have hpos : 0 ≤ offset := by omega
  have hfind : layout.find? offset.toNat = some s := h.find? hs (by omega) (by omega)
  have hdiff : offset.toNat - s.offset = (offset - s.offset).toNat := by omega
  rw [FrameLayout.placeAt?, if_pos hpos, hfind, Option.map_some, hdiff]

/-- The end of an access is not changed by wrapping around. -/
theorem wrap64_stop (a : FrameAccess) : wrap64 (a.offset + a.bytes) = a.stop := by
  have hfits := a.fits
  rw [wrap64_of_fits (by omega) (by omega)]
  rfl

/-- An access in a slot belongs to it, and nothing changes. -/
theorem Exact.resolve_inside (h : layout.Exact) (hs : s ∈ layout.slots) (ha : s.Covers a) :
    layout.resolve a = (some ⟨s.offset, a.offset - s.offset⟩, layout) := by
  have hpos := a.bytes_pos
  have hstop : a.stop = a.offset + a.bytes := rfl
  obtain ⟨hfirst, hlast⟩ := ha
  have hfind := h.find? hs hfirst (by omega)
  have hend : ¬ s.stop < wrap64 (a.offset + a.bytes) := by
    rw [wrap64_stop, Slot.stop_of_fits (h.fits s hs), Int.ofNat_lt]
    omega
  simp [resolve, FrameLayout.place, hfind, hend]

/-- An access that overlaps a slot without lying in it has no place, and nothing changes. -/
theorem Exact.resolve_touching (h : layout.Exact) (hs : s ∈ layout.slots) (hmeets : s.Meets a)
    (hcovers : ¬ s.Covers a) : layout.resolve a = (none, layout) := by
  obtain ⟨hbegins, hends⟩ := hmeets
  -- Either the access begins in some slot and runs past its end, or it runs into the next.
  cases hfind : layout.find? a.offset with
  | some t =>
    obtain ⟨ht, hto⟩ := find?_some hfind
    rw [Slot.contains_iff_of_fits (h.fits t ht)] at hto
    have hlast : t.stop < wrap64 (a.offset + a.bytes) := by
      rw [wrap64_stop, Slot.stop_of_fits (h.fits t ht), Int.ofNat_lt]
      by_cases hst : s = t
      · subst hst
        unfold Slot.Covers at hcovers
        omega
      · have hapart := h.apart_of_ne hs ht hst
        unfold Slot.Apart at hapart
        omega
    simp [resolve, FrameLayout.place, hfind, hlast]
  | none =>
    have hoff : ¬ (s.offset ≤ a.offset ∧ a.offset < s.limit) := by
      have hnone := List.find?_eq_none.1 hfind s hs
      rwa [Slot.contains_iff_of_fits (h.fits s hs)] at hnone
    have hobstacle : (layout.obstacle? a.offset a.bytes).isSome := by
      rw [obstacle?, List.find?_isSome, wrap64_stop]
      exact ⟨s, hs, by simp only [Bool.and_eq_true, decide_eq_true_eq]; omega⟩
    obtain ⟨t, ht⟩ := Option.isSome_iff_exists.1 hobstacle
    simp [resolve, FrameLayout.place, hfind, ht]

/-- An access that meets no slot finds a new one. -/
theorem Exact.resolve_apart (h : layout.Exact) (hnone : ∀ s ∈ layout.slots, ¬ s.Meets a) :
    layout.resolve a = (some ⟨a.offset, 0⟩, ⟨layout.slots ++ [a.slot]⟩) := by
  have hpos := a.bytes_pos
  have hstop : a.stop = a.offset + a.bytes := rfl
  have hfind : layout.find? a.offset = none := by
    refine List.find?_eq_none.2 fun s hs hcontains => hnone s hs ?_
    rw [Slot.contains_iff_of_fits (h.fits s hs)] at hcontains
    exact ⟨by omega, hcontains.2⟩
  have hobstacle : layout.obstacle? a.offset a.bytes = none := by
    refine List.find?_eq_none.2 fun s hs hbetween => hnone s hs ?_
    simp only [wrap64_stop, Bool.and_eq_true, decide_eq_true_eq] at hbetween
    exact ⟨by omega, by unfold Slot.limit; omega⟩
  simp [resolve, FrameLayout.place, hfind, hobstacle, FrameAccess.slot]

/-- What an access can find: a slot that it lies in, one that it overlaps without lying in it, or
none at all. -/
theorem resolve_cases (layout : FrameLayout) (a : FrameAccess) :
    (∃ s ∈ layout.slots, s.Covers a) ∨ (∃ s ∈ layout.slots, s.Meets a ∧ ¬ s.Covers a) ∨
      ∀ s ∈ layout.slots, ¬ s.Meets a := by
  by_cases hmeets : ∃ s ∈ layout.slots, s.Meets a
  · obtain ⟨s, hs, hmeets⟩ := hmeets
    by_cases hcovers : s.Covers a
    · exact .inl ⟨s, hs, hcovers⟩
    · exact .inr (.inl ⟨s, hs, hmeets, hcovers⟩)
  · exact .inr (.inr fun s hs h => hmeets ⟨s, hs, h⟩)

/-- An access keeps every slot, and they all end in reach. -/
theorem Exact.resolve (h : layout.Exact) (a : FrameAccess) :
    (layout.resolve a).2.Exact ∧ layout.slots ⊆ (layout.resolve a).2.slots := by
  unfold FrameLayout.resolve
  cases hplace : layout.place a.offset a.bytes a.ty with
  | outside event => exact ⟨h, fun _ hs => hs⟩
  | inside place layout' =>
    obtain ⟨hsubset, hnew⟩ := place_slots hplace
    refine ⟨⟨h.toSound.of_place a.bytes_pos hplace, fun s hs => ?_⟩, hsubset⟩
    rcases hnew s hs with hs | rfl
    · exact h.fits s hs
    · exact a.fits

/-- An access that is given a place lies in the slot that begins there, at its own offset. -/
theorem Exact.resolve_some (h : layout.Exact) {place : SlotPlace}
    (hplace : (layout.resolve a).1 = some place) :
    place.offset + place.diff = a.offset ∧
      ∃ s ∈ (layout.resolve a).2.slots, s.offset = place.offset ∧ s.Covers a := by
  obtain ⟨s, hs, ha⟩ | ⟨s, hs, hmeets, hcovers⟩ | hnone := resolve_cases layout a
  · rw [h.resolve_inside hs ha] at hplace ⊢
    cases hplace
    exact ⟨Nat.add_sub_cancel' ha.1, s, hs, rfl, ha⟩
  · rw [h.resolve_touching hs hmeets hcovers] at hplace
    cases hplace
  · rw [h.resolve_apart hnone] at hplace ⊢
    cases hplace
    exact ⟨rfl, a.slot, by simp, rfl, Nat.le_refl _, Nat.le_refl _⟩

/-- An access has no place exactly if it overlaps a slot without lying in it. -/
theorem Exact.resolve_eq_none_iff (h : layout.Exact) :
    (layout.resolve a).1 = none ↔ ∃ s ∈ layout.slots, s.Meets a ∧ ¬ s.Covers a := by
  constructor
  · intro hresolve
    obtain ⟨s, hs, ha⟩ | hfound | hnone := resolve_cases layout a
    · rw [h.resolve_inside hs ha] at hresolve
      cases hresolve
    · exact hfound
    · rw [h.resolve_apart hnone] at hresolve
      cases hresolve
  · rintro ⟨s, hs, hmeets, hcovers⟩
    rw [h.resolve_touching hs hmeets hcovers]

/-- An access without a place changes nothing. -/
theorem resolve_none (hresolve : (layout.resolve a).1 = none) :
    (layout.resolve a).2 = layout := by
  unfold FrameLayout.resolve at hresolve ⊢
  cases hplace : layout.place a.offset a.bytes a.ty with
  | outside event => rfl
  | inside place layout' =>
    rw [hplace] at hresolve
    cases hresolve

/-! ## Any number of accesses -/

/-- Accesses keep the slots apart, and every slot. -/
theorem Exact.after (h : layout.Exact) (accesses : List FrameAccess) :
    (layout.after accesses).Exact ∧ layout.slots ⊆ (layout.after accesses).slots := by
  induction accesses generalizing layout with
  | nil => exact ⟨h, fun _ hs => hs⟩
  | cons a rest ih =>
    obtain ⟨hexact, hkept⟩ := h.resolve a
    obtain ⟨hafter, hsubset⟩ := ih hexact
    exact ⟨hafter, fun _ hs => hsubset (hkept hs)⟩

end

/-- After any list of accesses to an empty frame, the slots are byte ranges that do not overlap. One
more access is given the slot it lies in, or none exactly if it overlaps a slot without lying in it,
and then nothing changes. A slot is there for good: after any more accesses, an access that lies in
it and a byte that belongs to it are found in it. -/
theorem resolve_slots (accesses : List FrameAccess) (a : FrameAccess) :
    let layout := FrameLayout.after {} accesses
    (∀ s ∈ layout.slots, 0 < s.size) ∧ layout.slots.Pairwise Slot.Apart ∧
    (∀ place, (layout.resolve a).1 = some place → place.offset + place.diff = a.offset ∧
      ∃ s ∈ (layout.resolve a).2.slots, s.offset = place.offset ∧ s.Covers a) ∧
    ((layout.resolve a).1 = none ↔ ∃ s ∈ layout.slots, s.Meets a ∧ ¬ s.Covers a) ∧
    ((layout.resolve a).1 = none → (layout.resolve a).2 = layout) ∧
    ∀ s ∈ layout.slots, ∀ later : List FrameAccess,
      s ∈ (layout.after later).slots ∧
      (∀ b : FrameAccess, s.Covers b →
        ((layout.after later).resolve b).1 = some ⟨s.offset, b.offset - s.offset⟩) ∧
      ∀ byte : Int, s.offset ≤ byte → byte < s.limit →
        (layout.after later).placeAt? byte = some ⟨s.offset, (byte - s.offset).toNat⟩ := by
  intro layout
  have hexact : layout.Exact := (exact_empty.after accesses).1
  refine ⟨hexact.size_pos, hexact.apart, fun _ => hexact.resolve_some,
    hexact.resolve_eq_none_iff, resolve_none, fun s hs later => ?_⟩
  obtain ⟨hlater, hsubset⟩ := hexact.after later
  refine ⟨hsubset hs, fun b hb => ?_, fun byte => hlater.placeAt? (hsubset hs)⟩
  rw [hlater.resolve_inside (hsubset hs) hb]

/-- A halfword that ends in a word found before has no place; the word keeps its last byte. -/
theorem resolve_slots_crossing :
    let layout := FrameLayout.after {} [⟨4, 4, .i32, by decide, by decide⟩,
      ⟨2, 1, .i32, by decide, by decide⟩]
    layout.resolve ⟨3, 2, .i32, by decide, by decide⟩ = (none, layout) ∧
      (layout.after [⟨8, 8, .f64, by decide, by decide⟩]).placeAt? 7 = some ⟨4, 3⟩ := by
  intro layout
  obtain ⟨-, -, -, hnone, hkeeps, hstays⟩ := resolve_slots
    [⟨4, 4, .i32, by decide, by decide⟩, ⟨2, 1, .i32, by decide, by decide⟩]
    ⟨3, 2, .i32, by decide, by decide⟩
  have hplace := hnone.2 ⟨⟨4, 4, .i32⟩, by decide, by decide, by decide⟩
  obtain ⟨-, -, hbytes⟩ := hstays ⟨4, 4, .i32⟩ (by decide)
    [⟨8, 8, .f64, by decide, by decide⟩]
  exact ⟨Prod.ext hplace (hkeeps hplace), hbytes 7 (by decide) (by decide)⟩

end FrameLayout

end WasmLift
