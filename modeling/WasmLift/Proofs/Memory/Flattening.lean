import Mathlib.Algebra.Group.Nat.Defs
import WasmLift.Proofs.Indexing.Memory
import WasmLift.Proofs.Memory.Quoted

/-!
# Segments laid over each other

What the image of a list of segments is, said of the segments themselves. It reaches from the lowest
offset to the highest end, each address holds the byte of the last segment that covers it
(`MemoryImage.lastByteAt`), and there is no image exactly if a segment ends beyond the address space
or the segments lie too far apart. A text is found at an address exactly if it stands there
(`MemoryImage.Shows`). Main statement: `MemoryImage.ofSegments_flattens`.
-/

namespace WasmLift

namespace DataSegment

/-- The address after the last byte. -/
def stop (s : DataSegment) : Nat :=
  s.offset + s.bytes.length

/-- The byte that the segment puts at an address, if it covers the address. -/
def byteAt? (s : DataSegment) (address : Nat) : Option UInt8 :=
  if s.offset ≤ address then s.bytes[address - s.offset]? else none

end DataSegment

namespace MemoryImage

/-- The least offset of the segments. -/
def lowest (segments : List DataSegment) : Nat :=
  (segments.map (·.offset)).min?.getD 0

/-- The greatest end of the segments. -/
def highest (segments : List DataSegment) : Nat :=
  (segments.map (·.stop)).max?.getD 0

/-- The byte of the last segment that covers an address, or zero if none does. -/
def lastByteAt (segments : List DataSegment) (address : Nat) : UInt8 :=
  (segments.reverse.findSome? (·.byteAt? address)).getD 0

/-! ## Bounds -/

theorem leastOffset_eq (segments : List DataSegment) (min : Nat) :
    leastOffset segments min = min ∨ ∃ s ∈ segments, leastOffset segments min = s.offset := by
  induction segments generalizing min with
  | nil => exact .inl rfl
  | cons s rest ih =>
    obtain hmin | ⟨t, ht, hoffset⟩ := ih (Nat.min min s.offset)
    · obtain hcase | hcase : Nat.min min s.offset = min ∨ Nat.min min s.offset = s.offset := by
        unfold Nat.min
        omega
      · exact .inl (hmin.trans hcase)
      · exact .inr ⟨s, .head _, hmin.trans hcase⟩
    · exact .inr ⟨t, .tail _ ht, hoffset⟩

/-- The image begins at the lowest offset. -/
theorem leastOffset_lowest (first : DataSegment) (rest : List DataSegment) :
    leastOffset rest first.offset = lowest (first :: rest) := by
  obtain ⟨hfirst, hrest⟩ := leastOffset_le rest first.offset
  have hmin : ((first :: rest).map (·.offset)).min? = some (leastOffset rest first.offset) := by
    refine List.min?_eq_some_iff.2 ⟨?_, ?_⟩
    · obtain heq | ⟨s, hs, heq⟩ := leastOffset_eq rest first.offset
      · rw [heq]
        exact List.mem_map_of_mem (.head _)
      · rw [heq]
        exact List.mem_map_of_mem (.tail _ hs)
    · exact List.forall_mem_map.2 (List.forall_mem_cons.2 ⟨hfirst, hrest⟩)
  rw [lowest, hmin]
  rfl

theorem segmentEnd_ok {s : DataSegment} (h : s.stop < 2 ^ 64) : segmentEnd s = .ok s.stop :=
  if_pos h

theorem segmentEnd_error {s : DataSegment} (h : 2 ^ 64 ≤ s.stop) :
    segmentEnd s = .error (.malformed (.segmentEnd s.offset)) :=
  if_neg (Nat.not_lt.2 h)

/-- The greatest end is known exactly if every segment ends within the address space. -/
theorem greatestEnd_ok_iff {segments : List DataSegment} (min : Nat) :
    (∃ max, greatestEnd segments min = .ok max) ↔ ∀ s ∈ segments, s.stop < 2 ^ 64 := by
  induction segments generalizing min with
  | nil => simp [greatestEnd]
  | cons s rest ih =>
    rw [List.forall_mem_cons, greatestEnd]
    by_cases hs : s.stop < 2 ^ 64
    · rw [segmentEnd_ok hs, ok_bind, ih]
      exact ⟨fun hrest => ⟨hs, hrest⟩, And.right⟩
    · rw [segmentEnd_error (Nat.not_lt.1 hs), error_bind]
      exact ⟨by rintro ⟨max, ⟨⟩⟩, fun hall => absurd hall.1 hs⟩

theorem greatestEnd_eq {segments : List DataSegment} {min max : Nat}
    (hmax : greatestEnd segments min = .ok max) : max = min ∨ ∃ s ∈ segments, max = s.stop := by
  induction segments generalizing min with
  | nil =>
    cases hmax
    exact .inl rfl
  | cons s rest ih =>
    obtain ⟨last, hlast, hrest⟩ := bind_eq_ok.1 hmax
    have hlast : last = s.stop := by
      by_cases hs : s.stop < 2 ^ 64
      · rw [segmentEnd_ok hs] at hlast
        exact (Except.ok.inj hlast).symm
      · rw [segmentEnd_error (Nat.not_lt.1 hs)] at hlast
        cases hlast
    obtain heq | ⟨t, ht, heq⟩ := ih hrest
    · obtain hcase | hcase : Nat.max min last = min ∨ Nat.max min last = last := by
        unfold Nat.max
        omega
      · exact .inl (heq.trans hcase)
      · exact .inr ⟨s, .head _, (heq.trans hcase).trans hlast⟩
    · exact .inr ⟨t, .tail _ ht, heq⟩

/-- The image ends at the highest end. -/
theorem greatestEnd_highest {first : DataSegment} {rest : List DataSegment} {max : Nat}
    (hmax : greatestEnd (first :: rest) (leastOffset rest first.offset) = .ok max) :
    max = highest (first :: rest) := by
  obtain ⟨-, hends⟩ := greatestEnd_le hmax
  have hmem : max ∈ (first :: rest).map (·.stop) := by
    obtain heq | ⟨s, hs, heq⟩ := greatestEnd_eq hmax
    · -- no segment ends after the least offset, so the first is empty and ends there
      obtain ⟨hfirst, -⟩ := leastOffset_le rest first.offset
      have hend := hends first (.head _)
      have hstop : max = first.stop := by
        unfold DataSegment.stop
        omega
      rw [hstop]
      exact List.mem_map_of_mem (.head _)
    · rw [heq]
      exact List.mem_map_of_mem hs
  have hhighest : ((first :: rest).map (·.stop)).max? = some max :=
    List.max?_eq_some_iff.2 ⟨hmem, List.forall_mem_map.2 hends⟩
  rw [highest, hhighest]
  rfl

/-- Once the greatest end is known, there is an image unless it would be too long. -/
theorem ofSegments_cons {first : DataSegment} {rest : List DataSegment} {min max : Nat}
    (hmin : leastOffset rest first.offset = min)
    (hmax : greatestEnd (first :: rest) min = .ok max) :
    ofSegments (first :: rest) =
      if maxSpan < max - min then .error (.malformed (.segmentSpan (max - min)))
      else .ok ⟨min, max, (first :: rest).foldl
        (fun bytes s => overlay bytes (s.offset - min) s.bytes) (List.replicate (max - min) 0)⟩ := by
  subst hmin
  simp only [ofSegments, hmax, ok_bind]
  split <;> rfl

/-- There is no image exactly if a segment ends beyond the address space, or if the lowest offset
and the highest end are too far apart. -/
theorem ofSegments_error_iff (segments : List DataSegment) :
    (∃ cause, ofSegments segments = .error cause) ↔
      (∃ s ∈ segments, 2 ^ 64 ≤ s.stop) ∨ 2 ^ 32 < highest segments - lowest segments := by
  match segments with
  | [] => simp [ofSegments, highest, lowest]
  | first :: rest =>
    by_cases hends : ∀ s ∈ first :: rest, s.stop < 2 ^ 64
    · obtain ⟨max, hmax⟩ := (greatestEnd_ok_iff (leastOffset rest first.offset)).2 hends
      have hnone : ¬∃ s ∈ first :: rest, 2 ^ 64 ≤ s.stop := by
        rintro ⟨s, hs, hstop⟩
        exact Nat.not_lt.2 hstop (hends s hs)
      rw [or_iff_right hnone, ← greatestEnd_highest hmax, ← leastOffset_lowest,
        ofSegments_cons rfl hmax]
      split
      next hspan => exact ⟨fun _ => hspan, fun _ => ⟨_, rfl⟩⟩
      next hspan => exact ⟨by rintro ⟨cause, ⟨⟩⟩, fun hlong => absurd hlong hspan⟩
    · obtain ⟨s, hs⟩ := not_forall.1 hends
      obtain ⟨hs, hstop⟩ := Classical.not_imp.1 hs
      refine iff_of_true ?_ (.inl ⟨s, hs, Nat.not_lt.1 hstop⟩)
      cases hmax : greatestEnd (first :: rest) (leastOffset rest first.offset) with
      | ok max => exact absurd ((greatestEnd_ok_iff _).1 ⟨max, hmax⟩) hends
      | error cause => exact ⟨cause, by rw [ofSegments, hmax]; rfl⟩

/-! ## Bytes -/

theorem getElem?_overlay {bytes content : List UInt8} {start : Nat}
    (h : start + content.length ≤ bytes.length) (i : Nat) :
    (overlay bytes start content)[i]? =
      (if start ≤ i then content[i - start]? else none).or bytes[i]? := by
  have htake : (bytes.take start).length = start := by
    rw [List.length_take]
    omega
  rw [overlay, List.append_assoc]
  by_cases hbefore : i < start
  · rw [List.getElem?_append_left (by omega), List.getElem?_take_of_lt hbefore,
      if_neg (Nat.not_le.2 hbefore), Option.none_or]
  · rw [Nat.not_lt] at hbefore
    rw [List.getElem?_append_right (by omega), htake, if_pos hbefore]
    by_cases hinside : i - start < content.length
    · rw [List.getElem?_append_left hinside, List.getElem?_eq_getElem hinside, Option.some_or]
    · rw [Nat.not_lt] at hinside
      have hposition : start + content.length + (i - start - content.length) = i := by omega
      rw [List.getElem?_append_right hinside, List.getElem?_drop, hposition,
        List.getElem?_eq_none hinside, Option.none_or]

/-- Laying a segment over bytes from an address on puts its own bytes where it covers them. -/
theorem getElem?_overlay_segment {min : Nat} {bytes : List UInt8} {s : DataSegment}
    (hmin : min ≤ s.offset) (hmax : s.stop ≤ min + bytes.length) (i : Nat) :
    (overlay bytes (s.offset - min) s.bytes)[i]? = (s.byteAt? (min + i)).or bytes[i]? := by
  unfold DataSegment.stop at hmax
  rw [getElem?_overlay (by omega), DataSegment.byteAt?]
  have hcovers : s.offset - min ≤ i ↔ s.offset ≤ min + i := by omega
  have hposition : i - (s.offset - min) = min + i - s.offset := by omega
  simp only [hcovers, hposition]

/-- Of the segments laid over bytes one after the other, the last one that covers a place shows. -/
theorem getElem?_foldl_overlay {min : Nat} {segments : List DataSegment} {bytes : List UInt8}
    (hsegments : ∀ s ∈ segments, min ≤ s.offset ∧ s.stop ≤ min + bytes.length) (i : Nat) :
    (segments.foldl (fun bytes s => overlay bytes (s.offset - min) s.bytes) bytes)[i]? =
      (segments.reverse.findSome? (·.byteAt? (min + i))).or bytes[i]? := by
  induction segments generalizing bytes with
  | nil => rfl
  | cons s rest ih =>
    obtain ⟨⟨hmin, hmax⟩, hrest⟩ := List.forall_mem_cons.1 hsegments
    have hlength : (overlay bytes (s.offset - min) s.bytes).length = bytes.length := by
      refine length_overlay ?_
      unfold DataSegment.stop at hmax
      omega
    rw [List.foldl_cons, ih (by rwa [hlength]), getElem?_overlay_segment hmin hmax,
      List.reverse_cons, List.findSome?_append, List.findSome?_singleton, Option.or_assoc]

/-- The image is that of the segments: it reaches from the lowest offset to the highest end, and
each address holds the byte of the last segment that covers it. -/
structure Flattens (segments : List DataSegment) (image : MemoryImage) : Prop where
  min : image.min = lowest segments
  max : image.max = highest segments
  length : image.bytes.length = image.max - image.min
  byte : ∀ address, image.min ≤ address → address < image.max →
    image.bytes[address - image.min]? = some (lastByteAt segments address)

theorem flattens_of_ofSegments {segments : List DataSegment} {image : MemoryImage}
    (himage : ofSegments segments = .ok image) : Flattens segments image := by
  have hlength := length_ofSegments himage
  match segments with
  | [] =>
    cases himage
    exact ⟨rfl, rfl, rfl, fun address _ hmax => absurd hmax (Nat.not_lt_zero address)⟩
  | first :: rest =>
    obtain ⟨max, hmax, -⟩ := bind_eq_ok.1 himage
    obtain ⟨-, hwithin⟩ := segments_within rfl hmax
    rw [ofSegments_cons rfl hmax] at himage
    split at himage
    · cases himage
    cases himage
    refine ⟨leastOffset_lowest first rest, greatestEnd_highest hmax, ?_, ?_⟩
    · exact Nat.eq_sub_of_add_eq' hlength
    · intro address hlow hhigh
      dsimp only at hlow hhigh ⊢
      rw [getElem?_foldl_overlay hwithin, Nat.add_sub_cancel' hlow,
        List.getElem?_replicate_of_lt (by omega), lastByteAt]
      cases (first :: rest).reverse.findSome? (·.byteAt? address) <;> rfl

/-- Every segment lies within the image. -/
theorem within_ofSegments {segments : List DataSegment} {image : MemoryImage} {s : DataSegment}
    (himage : ofSegments segments = .ok image) (hs : s ∈ segments) :
    image.min ≤ s.offset ∧ s.stop ≤ image.max := by
  match segments with
  | [] => cases hs
  | first :: rest =>
    obtain ⟨max, hmax, -⟩ := bind_eq_ok.1 himage
    obtain ⟨-, hends⟩ := greatestEnd_le hmax
    obtain ⟨-, hwithin⟩ := segments_within rfl hmax
    rw [ofSegments_cons rfl hmax] at himage
    split at himage
    · cases himage
    cases himage
    exact ⟨(hwithin s hs).1, hends s hs⟩

/-! ## Texts -/

/-- What comes before the first zero byte is what stands there followed by a zero byte, without one
inside. -/
theorem beforeZero?_eq_some {bytes text : List UInt8} :
    beforeZero? bytes = some text ↔ text ++ [0] <+: bytes ∧ 0 ∉ text := by
  induction bytes generalizing text with
  | nil => simp [beforeZero?]
  | cons b rest ih =>
    rw [beforeZero?]
    by_cases hb : b = 0
    · subst hb
      rw [if_pos rfl]
      cases text with
      | nil => simp
      | cons c text =>
        refine iff_of_false (by simp) ?_
        rintro ⟨hstarts, hzero⟩
        obtain ⟨hc, -⟩ := List.cons_prefix_cons.1 hstarts
        exact hzero (hc ▸ .head _)
    · rw [if_neg hb]
      cases text with
      | nil => simp [Ne.symm hb]
      | cons c text =>
        simp only [Option.map_eq_some_iff, ih, List.cons_append, List.cons_prefix_cons,
          List.mem_cons, List.cons.injEq]
        constructor
        · rintro ⟨text', ⟨hstarts, hzero⟩, rfl, rfl⟩
          exact ⟨⟨rfl, hstarts⟩, not_or.2 ⟨Ne.symm hb, hzero⟩⟩
        · rintro ⟨⟨rfl, hstarts⟩, hzero⟩
          exact ⟨text, ⟨hstarts, (not_or.1 hzero).2⟩, rfl, rfl⟩

/-- At an address of the image stands a text of at least two text bytes, followed by a zero byte. -/
structure Shows (image : MemoryImage) (address : Int) (text : List UInt8) : Prop where
  lower : image.min ≤ address
  upper : address < image.max
  starts : text ++ [0] <+: image.bytes.drop (address.toNat - image.min)
  long : 2 ≤ text.length
  legible : ∀ b ∈ text, isTextByte b = true
  ends : 0 ∉ text

/-- What is found at an address is a text that stands there, escaped. -/
theorem stringAt?_eq_some {image : MemoryImage} {address : Int} {found : String} :
    image.stringAt? address = some found ↔
      ∃ text, image.Shows address text ∧ found = Text.escape text := by
  unfold stringAt?
  constructor
  · intro h
    obtain ⟨_, hcontains, h⟩ := Option.bind_eq_some_iff.1 h
    obtain ⟨text, htext, h⟩ := Option.bind_eq_some_iff.1 h
    obtain ⟨_, hlegible, h⟩ := Option.bind_eq_some_iff.1 h
    obtain ⟨hlower, hupper⟩ : image.min ≤ address ∧ address < image.max := by
      simpa [contains] using of_guard hcontains
    obtain ⟨hlong, hbytes⟩ : 2 ≤ text.length ∧ ∀ b ∈ text, isTextByte b = true := by
      simpa using of_guard hlegible
    obtain ⟨hstarts, hends⟩ := beforeZero?_eq_some.1 htext
    exact ⟨text, ⟨hlower, hupper, hstarts, hlong, hbytes, hends⟩, (Option.some.inj h).symm⟩
  · rintro ⟨text, h, rfl⟩
    have hcontains : image.contains address = true := by simp [contains, h.lower, h.upper]
    have hlegible : (2 ≤ text.length && text.all isTextByte) = true := by
      simpa using ⟨h.long, h.legible⟩
    refine Option.bind_eq_some_iff.2 ⟨(), if_pos hcontains, ?_⟩
    refine Option.bind_eq_some_iff.2 ⟨text, beforeZero?_eq_some.2 ⟨h.starts, h.ends⟩, ?_⟩
    exact Option.bind_eq_some_iff.2 ⟨(), if_pos hlegible, rfl⟩

/-- A text is found at an address exactly if it stands there. -/
theorem stringAt?_eq_escape {image : MemoryImage} {address : Int} {text : List UInt8} :
    image.stringAt? address = some (Text.escape text) ↔ image.Shows address text := by
  rw [stringAt?_eq_some]
  constructor
  · rintro ⟨text', h, hescape⟩
    exact Text.escape_injective hescape ▸ h
  · exact fun h => ⟨text, h, rfl⟩

/-- Nothing is found at an address exactly if no text stands there. -/
theorem stringAt?_eq_none {image : MemoryImage} {address : Int} :
    image.stringAt? address = none ↔ ∀ text, ¬image.Shows address text := by
  constructor
  · intro h text hshows
    rw [stringAt?_eq_escape.2 hshows] at h
    cases h
  · intro h
    cases hfound : image.stringAt? address with
    | none => rfl
    | some found =>
      obtain ⟨text, hshows, -⟩ := stringAt?_eq_some.1 hfound
      exact absurd hshows (h text)

/-- For every list of segments: there is no image exactly if a segment ends beyond the address space
or the lowest offset and the highest end are more than the longest stretch apart. Otherwise the
image is that of the segments, and at every address a text is found, escaped, exactly if it stands
there. -/
theorem ofSegments_flattens (segments : List DataSegment) :
    ((∃ cause, ofSegments segments = .error cause) ↔
      (∃ s ∈ segments, 2 ^ 64 ≤ s.stop) ∨ 2 ^ 32 < highest segments - lowest segments) ∧
    ∀ image, ofSegments segments = .ok image → Flattens segments image ∧
      ∀ address, (∀ text, image.stringAt? address = some (Text.escape text) ↔
          image.Shows address text) ∧
        (image.stringAt? address = none ↔ ∀ text, ¬image.Shows address text) := by
  refine ⟨ofSegments_error_iff segments, fun image himage => ?_⟩
  exact ⟨flattens_of_ofSegments himage, fun _ => ⟨fun _ => stringAt?_eq_escape, stringAt?_eq_none⟩⟩

/-- Two segments, of which the second begins before the first and reaches into it. -/
def overlapping : List DataSegment :=
  [⟨18, [0x61, 0x62, 0x00]⟩, ⟨16, [0x68, 0x69, 0x6a]⟩]

theorem ofSegments_flattens_overlapping :
    ∃ image, ofSegments overlapping = .ok image ∧ Flattens overlapping image ∧
      image = ⟨16, 21, [0x68, 0x69, 0x6a, 0x62, 0x00]⟩ ∧
      image.Shows 16 [0x68, 0x69, 0x6a, 0x62] ∧ ∀ text, ¬image.Shows 19 text := by
  obtain ⟨-, hflattens⟩ := ofSegments_flattens overlapping
  obtain ⟨himage, htexts⟩ := hflattens ⟨16, 21, [0x68, 0x69, 0x6a, 0x62, 0x00]⟩ rfl
  refine ⟨_, rfl, himage, rfl, ((htexts 16).1 _).1 (by decide), ?_⟩
  exact (htexts 19).2.1 (by decide)

end MemoryImage

end WasmLift
