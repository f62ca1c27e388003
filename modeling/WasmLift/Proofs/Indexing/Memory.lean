import Mathlib.Data.Option.Basic
import WasmLift.Memory.Image
import WasmLift.Proofs.Outcomes

/-!
# The memory by positions

The image of the memory is filled by copying each segment into a stretch of bytes, and a text is
found by cutting bytes out of it. Here a copy fails if it would reach beyond the stretch, a cut if
it would, and a difference if it would be negative. None of them ever does
(`MemoryImage.ofSegmentsAt_eq`, `MemoryImage.stringCutAt_eq`).
-/

namespace WasmLift.MemoryImage

/-- The difference of two numbers, unless it is negative. -/
def difference? (a b : Nat) : Option Nat :=
  if b ≤ a then some (a - b) else none

/-- The bytes from one position up to another. There are none if the positions are not in order or
beyond the end. -/
def cut? (bytes : List UInt8) (i j : Nat) : Option (List UInt8) :=
  if i ≤ j ∧ j ≤ bytes.length then some ((bytes.drop i).take (j - i)) else none

/-- Copies a segment into the bytes from the address `min` on, unless it reaches beyond them. -/
def copyAt? (min : Nat) (bytes : List UInt8) (s : DataSegment) : Option (List UInt8) := do
  let start ← difference? s.offset min
  let _ ← cut? bytes start (start + s.bytes.length)
  return overlay bytes start s.bytes

/-- The image of a list of segments, by copying. It fails if a segment reaches beyond the image. -/
def ofSegmentsAt : List DataSegment → Option (Except Cause MemoryImage)
  | [] => some (.ok {})
  | first :: rest => do
    let segments := first :: rest
    let min := leastOffset rest first.offset
    match greatestEnd segments min with
    | .error cause => return .error cause
    | .ok max =>
      let span ← difference? max min
      if maxSpan < span then return .error (.malformed (.segmentSpan span))
      let bytes ← segments.foldlM (copyAt? min) (List.replicate span 0)
      return .ok ⟨min, max, bytes⟩

/-- The text at an address, by cutting. It fails if a cut reaches beyond the image. -/
def stringCutAt (image : MemoryImage) (address : Int) : Option (Option String) := do
  if !image.contains address then return none
  let start ← difference? address.toNat image.min
  let rest ← cut? image.bytes start image.bytes.length
  match rest.findIdx? (· = 0) with
  | none => return none
  | some length =>
    let text ← cut? image.bytes start (start + length)
    if 2 ≤ text.length && text.all isTextByte then return some (Text.escape text) else return none

/-! ## Copying -/

theorem length_overlay {bytes content : List UInt8} {start : Nat}
    (h : start + content.length ≤ bytes.length) :
    (overlay bytes start content).length = bytes.length := by
  simp only [overlay, List.length_append, List.length_take, List.length_drop]
  omega

theorem leastOffset_le (segments : List DataSegment) (min : Nat) :
    leastOffset segments min ≤ min ∧ ∀ s ∈ segments, leastOffset segments min ≤ s.offset := by
  induction segments generalizing min with
  | nil => exact ⟨Nat.le_refl min, nofun⟩
  | cons s rest ih =>
    obtain ⟨hmin, hrest⟩ := ih (Nat.min min s.offset)
    refine ⟨Nat.le_trans hmin (Nat.min_le_left _ _), ?_⟩
    exact List.forall_mem_cons.2 ⟨Nat.le_trans hmin (Nat.min_le_right _ _), hrest⟩

theorem greatestEnd_le {segments : List DataSegment} {min max : Nat}
    (hmax : greatestEnd segments min = .ok max) :
    min ≤ max ∧ ∀ s ∈ segments, s.offset + s.bytes.length ≤ max := by
  induction segments generalizing min with
  | nil =>
    cases hmax
    exact ⟨Nat.le_refl _, nofun⟩
  | cons s rest ih =>
    obtain ⟨last, hlast, hrest⟩ := bind_eq_ok.1 hmax
    obtain ⟨hle, hrest⟩ := ih hrest
    have hlast : s.offset + s.bytes.length = last := by
      unfold segmentEnd at hlast
      split at hlast
      · exact Except.ok.inj hlast
      · cases hlast
    refine ⟨Nat.le_trans (Nat.le_max_left _ _) hle, List.forall_mem_cons.2 ⟨?_, hrest⟩⟩
    rw [hlast]
    exact Nat.le_trans (Nat.le_max_right _ _) hle

theorem copyAt?_eq {min : Nat} {bytes : List UInt8} {s : DataSegment} (hmin : min ≤ s.offset)
    (hmax : s.offset + s.bytes.length ≤ min + bytes.length) :
    copyAt? min bytes s = some (overlay bytes (s.offset - min) s.bytes) := by
  have hcut : s.offset - min ≤ s.offset - min + s.bytes.length ∧
      s.offset - min + s.bytes.length ≤ bytes.length := by omega
  simp [copyAt?, difference?, hmin, cut?, hcut]

/-- Every segment can be copied, as the ones before it leave the stretch as long as it is. -/
theorem foldlM_copyAt? {min : Nat} {segments : List DataSegment} {bytes : List UInt8}
    (hsegments : ∀ s ∈ segments, min ≤ s.offset ∧
      s.offset + s.bytes.length ≤ min + bytes.length) :
    segments.foldlM (copyAt? min) bytes =
        some (segments.foldl (fun bytes s => overlay bytes (s.offset - min) s.bytes) bytes) ∧
      (segments.foldl (fun bytes s => overlay bytes (s.offset - min) s.bytes) bytes).length =
        bytes.length := by
  induction segments generalizing bytes with
  | nil => exact ⟨rfl, rfl⟩
  | cons s rest ih =>
    obtain ⟨⟨hmin, hmax⟩, hrest⟩ := List.forall_mem_cons.1 hsegments
    have hlength : (overlay bytes (s.offset - min) s.bytes).length = bytes.length :=
      length_overlay (by omega)
    obtain ⟨hfold, hsame⟩ := @ih (overlay bytes (s.offset - min) s.bytes) (by rwa [hlength])
    rw [List.foldlM_cons, copyAt?_eq hmin hmax, List.foldl_cons]
    exact ⟨hfold, hsame.trans hlength⟩

/-- The segments of an image lie within the stretch that is set up for them. -/
theorem segments_within {first : DataSegment} {rest : List DataSegment} {min max : Nat}
    (hmin : leastOffset rest first.offset = min)
    (hmax : greatestEnd (first :: rest) min = .ok max) :
    min ≤ max ∧ ∀ s ∈ first :: rest, min ≤ s.offset ∧
      s.offset + s.bytes.length ≤ min + (List.replicate (max - min) (0 : UInt8)).length := by
  obtain ⟨hle, hends⟩ := greatestEnd_le hmax
  obtain ⟨hfirst, hrest⟩ := leastOffset_le rest first.offset
  rw [hmin] at hfirst hrest
  have hoffsets : ∀ s ∈ first :: rest, min ≤ s.offset := List.forall_mem_cons.2 ⟨hfirst, hrest⟩
  refine ⟨hle, fun s hs => ⟨hoffsets s hs, ?_⟩⟩
  rw [List.length_replicate, Nat.add_sub_cancel' hle]
  exact hends s hs

/-- No copy reaches beyond the image, and the image is the one that the segments have. -/
theorem ofSegmentsAt_eq (segments : List DataSegment) :
    ofSegmentsAt segments = some (ofSegments segments) := by
  match segments with
  | [] => rfl
  | first :: rest =>
    rw [ofSegmentsAt, ofSegments]
    dsimp only
    generalize hmin : leastOffset rest first.offset = min
    cases hmax : greatestEnd (first :: rest) min with
    | error cause => rfl
    | ok max =>
      obtain ⟨hle, hwithin⟩ := segments_within hmin hmax
      have hdifference : difference? max min = some (max - min) := if_pos hle
      obtain ⟨hfold, -⟩ := foldlM_copyAt? hwithin
      simp only [hdifference]
      by_cases hspan : maxSpan < max - min
      · show (if maxSpan < max - min then _ else _) = some (if maxSpan < max - min then _ else _)
        rw [if_pos hspan, if_pos hspan]
        rfl
      · show (if maxSpan < max - min then _ else _) = some (if maxSpan < max - min then _ else _)
        rw [if_neg hspan, if_neg hspan, hfold]
        rfl

/-- An image is as long as the stretch from its least address to its greatest. -/
theorem length_ofSegments {segments : List DataSegment} {image : MemoryImage}
    (himage : ofSegments segments = .ok image) : image.min + image.bytes.length = image.max := by
  match segments with
  | [] =>
    cases himage
    rfl
  | first :: rest =>
    obtain ⟨max, hmax, himage⟩ := bind_eq_ok.1 himage
    obtain ⟨hle, hwithin⟩ := segments_within rfl hmax
    obtain ⟨-, hlength⟩ := foldlM_copyAt? hwithin
    split at himage
    · cases himage
    · cases himage
      rw [List.length_replicate] at hlength
      simp only [hlength]
      omega

/-! ## Cutting -/

theorem beforeZero?_eq (bytes : List UInt8) :
    beforeZero? bytes = (bytes.findIdx? (· = 0)).map bytes.take := by
  induction bytes with
  | nil => rfl
  | cons b rest ih =>
    rw [beforeZero?, List.findIdx?_cons, ih]
    by_cases hb : b = 0
    · simp [hb]
    · simp [hb, Function.comp_def]

/-- No cut reaches beyond the image, and the text is the one that the image has. -/
theorem stringCutAt_eq {segments : List DataSegment} {image : MemoryImage}
    (himage : ofSegments segments = .ok image) (address : Int) :
    stringCutAt image address = some (image.stringAt? address) := by
  have hlength := length_ofSegments himage
  rw [stringCutAt, stringAt?]
  by_cases hcontains : image.contains address = true
  · have hrange : image.min ≤ address ∧ address < image.max := by
      simpa [contains] using hcontains
    have hdifference : difference? address.toNat image.min = some (address.toNat - image.min) :=
      if_pos (by omega)
    obtain ⟨start, hstart⟩ : ∃ start, address.toNat - image.min = start := ⟨_, rfl⟩
    have hrest : cut? image.bytes start image.bytes.length = some (image.bytes.drop start) := by
      have hle : start ≤ image.bytes.length := by omega
      simp [cut?, hle, List.take_of_length_le]
    simp only [hcontains, hdifference, hstart, Option.bind_eq_bind, Option.bind_some, hrest,
      beforeZero?_eq]
    cases hzero : (image.bytes.drop start).findIdx? (· = 0) with
    | none => rfl
    | some length =>
      have hbefore := (List.findIdx?_eq_some_iff_findIdx_eq.1 hzero).1
      have hcut : cut? image.bytes start (start + length) =
          some ((image.bytes.drop start).take length) := by
        have hle : start + length ≤ image.bytes.length := by
          rw [List.length_drop] at hbefore
          omega
        simp [cut?, hle]
      simp only [hcut, Option.bind_some, Option.map_some]
      generalize (image.bytes.drop start).take length = text
      by_cases htext : (2 ≤ text.length && text.all isTextByte) = true
      · rw [htext]
        rfl
      · rw [Bool.not_eq_true] at htext
        rw [htext]
        rfl
  · rw [Bool.not_eq_true] at hcontains
    rw [hcontains]
    rfl

end WasmLift.MemoryImage
