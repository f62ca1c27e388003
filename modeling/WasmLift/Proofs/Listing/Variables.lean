import Mathlib.Algebra.Group.Nat.Defs
import WasmLift.Proofs.Frame.Slots
import WasmLift.Proofs.Listing.Everywhere
import WasmLift.Proofs.Propagation.Steps

/-!
# The variables of statements

Locals and stack slots are discovered while statements are written, and what was written stays: a
node may be recorded long before the slot that comes next is found. A dialect tracks its variables
(`Dialect.Tracks`) if each step leaves those known so far and writes only what is known after it. So
at the end of the walk all statements name known variables only (`Walk.function_tracks`). Both
dialects track their variables: for an unoptimized function, the known ones are the locals that are
printed and the slots of the layout, with the places inside them.
-/

namespace WasmLift

/-- A local or a place in a stack slot, as statements name it. -/
inductive Mention where
  | plain (index : Nat)
  | slot (place : SlotPlace)
deriving DecidableEq, Repr

namespace Code

/-- The variable that a node is. -/
def named? : Code → Option Mention
  | .localVar index => some (.plain index)
  | .slot place => some (.slot place)
  | _ => none

/-- All variables in the node are known. -/
def Uses (known : Mention → Prop) : Code → Prop :=
  Every fun c => ∀ m, c.named? = some m → known m

section
variable {known known' : Mention → Prop}

/-- Code uses what more is known of, too. -/
theorem Uses.mono (himp : ∀ m, known m → known' m) {c : Code} (h : c.Uses known) :
    c.Uses known' :=
  Every.mono (fun _ hc m hm => himp m (hc m hm)) h

/-- A node that is no variable uses those of its children. -/
theorem Uses.of_children {c : Code} (hnamed : c.named? = none)
    (h : ∀ x ∈ c.children, x.Uses known) : c.Uses known :=
  .node (by simp [hnamed]) h

/-- A local that is known may be used. -/
theorem uses_localVar {index : Nat} (h : known (.plain index)) : (localVar index).Uses known :=
  .node (by rintro _ ⟨⟩; exact h) nofun

/-- A slot that is known may be used. -/
theorem uses_slot {place : SlotPlace} (h : known (.slot place)) : (slot place).Uses known :=
  .node (by rintro _ ⟨⟩; exact h) nofun

/-- An assignment uses what is known if its target and value do. -/
theorem uses_assign {target value : Code} (htarget : target.Uses known)
    (hvalue : value.Uses known) : (assign target value).Uses known :=
  .of_children rfl (by simpa [children] using ⟨htarget, hvalue⟩)

/-- A binary operation uses what is known if its operands do. -/
theorem uses_binary {op : BinOp} {left right : Code} (hleft : left.Uses known)
    (hright : right.Uses known) : (binary op left right).Uses known :=
  .of_children rfl (by simpa [children] using ⟨hleft, hright⟩)

/-- An access uses what is known if its address does. -/
theorem uses_deref {address : Code} {arg : MemArg} {ty : Ty} (haddress : address.Uses known) :
    (deref address arg ty).Uses known :=
  .of_children rfl (List.forall_mem_singleton.2 haddress)

end

end Code

/-! ## The walk -/

/-- The state still has its property, and what was known is still known. -/
structure Grown {σ : Type} (P : σ → Prop) (K : σ → Mention → Prop) (st st' : σ) : Prop where
  holds : P st'
  keeps : ∀ m, K st m → K st' m

section
variable {σ : Type} {P : σ → Prop} {K : σ → Mention → Prop} {st st' : σ}

/-- A state has grown from itself. -/
theorem Grown.refl (hst : P st) : Grown P K st st :=
  ⟨hst, fun _ hm => hm⟩

variable (P K) in
/-- The dialect writes only variables that are known from then on. -/
structure Dialect.Tracks (d : Dialect σ) : Prop where
  localGet : ∀ {index st c st'}, P st → d.localGet index st = (.ok c, st') →
    Grown P K st st' ∧ c.Uses (K st')
  localSet : ∀ {index value tee st c st'}, P st → value.Uses (K st) →
    d.localSet index value tee st = (.ok c, st') → Grown P K st st' ∧ c.Uses (K st')
  globalGet : ∀ {known index}, (d.globalGet index).Uses known
  globalSet : ∀ {known index value}, value.Uses known → (d.globalSet index value).Uses known
  const : ∀ {known value}, (d.const value).Uses known
  binary : ∀ {known op left right}, left.Uses known → right.Uses known →
    (d.binary op left right).Uses known
  load : ∀ {address arg ty st c st'}, 0 < arg.bytes → P st → address.Uses (K st) →
    d.load address arg ty st = (.ok c, st') → Grown P K st st' ∧ c.Uses (K st')
  store : ∀ {address value ty arg st c st'}, 0 < arg.bytes → P st → address.Uses (K st) →
    value.Uses (K st) → d.store address value ty arg st = (.ok c, st') →
    Grown P K st st' ∧ c.Uses (K st')

/-- What is known in a state that has grown still is. -/
theorem Grown.upheld (h : Grown P K st st') :
    Upheld P (fun st c => ∀ m, c.named? = some m → K st m) st st' :=
  ⟨h.holds, fun _ hc m hm => h.keeps m (hc m hm)⟩

/-- A dialect that tracks its variables upholds that every variable is known. -/
theorem Dialect.Tracks.upholds {d : Dialect σ} (hd : d.Tracks P K) :
    d.Upholds P fun st c => ∀ m, c.named? = some m → K st m where
  common c hc m hm := by
    cases c with
    | localVar | slot => cases hc
    | _ => cases hm
  localGet hst h := (hd.localGet hst h).imp Grown.upheld id
  localSet hst hvalue h := (hd.localSet hst hvalue h).imp Grown.upheld id
  globalGet := hd.globalGet
  globalSet hvalue := hd.globalSet hvalue
  const := hd.const
  binary hleft hright := hd.binary hleft hright
  load hbytes hst haddress h := (hd.load hbytes hst haddress h).imp Grown.upheld id
  store hbytes hst haddress hvalue h :=
    (hd.store hbytes hst haddress hvalue h).imp Grown.upheld id

/-- The statements of a function name what is known at the end. -/
theorem Walk.function_tracks {p : Program} {d : Dialect σ} (hd : d.Tracks P K) {f : Function}
    {nodes : List Code} (hf : ∀ body, f.body? = some body → body.All Expr.Proper) (hst : P st)
    (hwrite : function p d f st = (.ok nodes, st')) : P st' ∧ ∀ c ∈ nodes, c.Uses (K st') :=
  function_upholds hd.upholds hf hst hwrite

end

/-! ## The plain dialect -/

namespace Direct

variable {p : Program} {f : Function}

/-- The locals of a function, and nothing else. -/
def Known (f : Function) : Mention → Prop
  | .plain index => f.params.length ≤ index ∧ index < f.params.length + f.locals.length
  | .slot _ => False

/-- A variable of the plain dialect is known. -/
theorem variableOf_uses {index : Nat} {st st' : Unit} {c : Code}
    (h : variableOf f index st = (.ok c, st')) : c.Uses (Known f) := by
  obtain rfl | ⟨rfl, hown⟩ := variableOf_cases h
  · exact .of_children rfl nofun
  · exact Code.uses_localVar hown

/-- The plain dialect tracks its variables, which are known from the start. -/
theorem dialect_tracks : (dialect p f).Tracks (fun _ => True) fun _ => Known f where
  localGet hst h := ⟨.refl hst, variableOf_uses h⟩
  localSet hst hvalue h := by
    obtain ⟨target, st₁, htarget, hpure⟩ := bind_ok h
    cases hpure
    exact ⟨.refl hst, Code.uses_assign (variableOf_uses htarget) hvalue⟩
  globalGet := .of_children rfl nofun
  globalSet hvalue := Code.uses_assign (.of_children rfl nofun) hvalue
  const := .of_children rfl nofun
  binary hleft hright := Code.uses_binary hleft hright
  load _ hst haddress h := by
    cases h
    exact ⟨.refl hst, Code.uses_deref haddress⟩
  store _ hst haddress hvalue h := by
    cases h
    exact ⟨.refl hst, Code.uses_assign (Code.uses_deref haddress) hvalue⟩

end Direct

/-! ## Unoptimized functions -/

namespace Framed

/-- The locals that are printed, and the places in the slots found so far. -/
def Known (st : FrameState) : Mention → Prop
  | .plain index => index ∈ st.plain
  | .slot place => st.layout.Holds place

/-- The state of a walk over an unoptimized function: printed locals are in ascending order and the
function's own, the layout is sound and its slots begin in the address space, and registers hold
nodes whose variables are known. -/
structure Tracked (s : Surroundings) (st : FrameState) : Prop where
  registered : Registered s st
  sorted : st.plain.Pairwise (· < ·)
  owned : ∀ index ∈ st.plain, s.function.params.length ≤ index ∧
    index < s.function.params.length + s.function.locals.length
  sound : st.layout.Sound
  addressed : ∀ slot ∈ st.layout.slots, slot.offset < 2 ^ 63
  recorded : ∀ c, some c ∈ st.registers → c.Uses (Known st)

section
variable {s : Surroundings} {st st' : FrameState}

/-- What is known stays known as long as locals and slots are only added. -/
theorem known_mono (hplain : st.plain ⊆ st'.plain) (hslots : st.layout.slots ⊆ st'.layout.slots) :
    ∀ m, Known st m → Known st' m
  | .plain _, hm => hplain hm
  | .slot _, ⟨slot, hslot, hplace⟩ => ⟨slot, hslots hslot, hplace⟩

theorem insertSorted_sorted {n : Nat} {ns : List Nat} (h : ns.Pairwise (· < ·)) :
    (insertSorted n ns).Pairwise (· < ·) := by
  induction ns with
  | nil => exact List.pairwise_singleton _ _
  | cons m rest ih =>
    obtain ⟨hm, hrest⟩ := List.pairwise_cons.1 h
    unfold insertSorted
    split
    next hlt =>
      refine List.pairwise_cons.2 ⟨List.forall_mem_cons.2 ⟨hlt, fun k hk => ?_⟩, h⟩
      exact Nat.lt_trans hlt (hm k hk)
    next hnot =>
      split
      · exact h
      next hne =>
        refine List.pairwise_cons.2 ⟨fun k hk => ?_, ih hrest⟩
        rcases mem_insertSorted.1 hk with rfl | hk
        · omega
        · exact hm k hk

/-- From now on a local of the function is printed. -/
theorem Tracked.reveal (h : Tracked s st) {index : Nat} (howned : Owned s st index)
    {registers : List (Option Code)} (hlength : registers.length = st.registers.length)
    (hregisters : ∀ c, some c ∈ registers → some c ∈ st.registers) :
    Grown (Tracked s) Known st
      { st with plain := insertSorted index st.plain, registers := registers } := by
  have hplain : st.plain ⊆ insertSorted index st.plain := fun i hi => mem_insertSorted.2 (.inr hi)
  have hkeeps : ∀ m, Known st m → Known
      { st with plain := insertSorted index st.plain, registers := registers } m :=
    known_mono hplain fun _ hslot => hslot
  refine ⟨⟨hlength.trans h.registered, insertSorted_sorted h.sorted, fun i hi => ?_, h.sound,
    h.addressed, fun c hc => (h.recorded c (hregisters c hc)).mono hkeeps⟩, hkeeps⟩
  rcases mem_insertSorted.1 hi with rfl | hi
  · have hupper := howned.upper
    rw [h.registered] at hupper
    exact ⟨howned.lower, hupper⟩
  · exact h.owned i hi

/-- A read of a local uses what is known after it. -/
theorem Gets.tracks {index : Nat} {c : Code} (hst : Tracked s st) (h : Gets s index st c st') :
    Grown (Tracked s) Known st st' ∧ c.Uses (Known st') := by
  cases h with
  | param => exact ⟨.refl hst, .of_children rfl nofun⟩
  | plain hplain => exact ⟨.refl hst, Code.uses_localVar hplain⟩
  | recorded hregister => exact ⟨.refl hst, hst.recorded c hregister⟩
  | unknown howned =>
    refine ⟨hst.reveal howned rfl fun _ hc => hc, Code.uses_localVar ?_⟩
    exact mem_insertSorted.2 (.inl rfl)

/-- An assignment of a local uses what is known after it. -/
theorem Sets.tracks {index : Nat} {value c : Code} {tee : Bool} (hst : Tracked s st)
    (hvalue : value.Uses (Known st)) (h : Sets s index value tee st c st') :
    Grown (Tracked s) Known st st' ∧ c.Uses (Known st') := by
  cases h with
  | param => exact ⟨.refl hst, Code.uses_assign (.of_children rfl nofun) hvalue⟩
  | assigned howned =>
    have hgrown := hst.reveal howned
      (List.length_set (i := index - s.function.params.length) (a := none))
      fun c hc => (List.mem_or_eq_of_mem_set hc).resolve_right nofun
    refine ⟨hgrown, Code.uses_assign (Code.uses_localVar ?_) (hvalue.mono hgrown.keeps)⟩
    exact mem_insertSorted.2 (.inl rfl)
  | recorded =>
    refine ⟨⟨⟨?_, hst.sorted, hst.owned, hst.sound, hst.addressed, fun c hc => ?_⟩,
      fun m hm => hm⟩, ?_⟩
    · exact List.length_set.trans hst.registered
    · rcases List.mem_or_eq_of_mem_set hc with hc | hc
      · exact hst.recorded c hc
      · cases hc
        exact hvalue
    · cases tee with
      | true => exact hvalue
      | false => exact .of_children rfl nofun

/-- An offset in the frame fits into 64 bits. -/
theorem frameOffset?_lt {address : Code} {n offset : Nat}
    (h : frameOffset? address n = some offset) : offset < 2 ^ 63 := by
  have hbound {base : Int} (hsum : (do
      guard (n < 2 ^ 63)
      let sum := base + n
      guard (0 ≤ sum && sum < 2 ^ 63)
      return sum.toNat) = some offset) : offset < 2 ^ 63 := by
    obtain ⟨_, -, hsum⟩ := Option.bind_eq_some_iff.1 hsum
    obtain ⟨_, hguard, hoffset⟩ := Option.bind_eq_some_iff.1 hsum
    have hrange : 0 ≤ base + n ∧ base + n < 2 ^ 63 := by simpa using of_guard hguard
    cases hoffset
    omega
  unfold frameOffset? at h
  split at h
  · exact hbound h
  · exact hbound h
  · cases h

/-- An access to memory uses what is known after it, the slot it may have found included. -/
theorem Accesses.tracks {address c : Code} {arg : MemArg} {ty : Ty} (hbytes : 0 < arg.bytes)
    (hst : Tracked s st) (haddress : address.Uses (Known st))
    (h : Accesses address arg ty st c st') :
    Grown (Tracked s) Known st st' ∧ c.Uses (Known st') := by
  cases h with
  | deref =>
    refine ⟨⟨⟨hst.registered, hst.sorted, hst.owned, hst.sound, hst.addressed, hst.recorded⟩,
      fun m hm => hm⟩, Code.uses_deref haddress⟩
  | @slot offset place layout inFrame placed =>
    obtain ⟨hsubset, hnew⟩ := FrameLayout.place_slots placed
    have hkeeps : ∀ m, Known st m → Known { st with layout := layout } m :=
      known_mono (fun _ hi => hi) hsubset
    refine ⟨⟨⟨hst.registered, hst.sorted, hst.owned, hst.sound.of_place hbytes placed,
      fun t ht => ?_, fun c hc => (hst.recorded c hc).mono hkeeps⟩, hkeeps⟩,
      Code.uses_slot (FrameLayout.place_holds hbytes placed).1⟩
    rcases hnew t ht with ht | rfl
    · exact hst.addressed t ht
    · exact frameOffset?_lt inFrame

/-- The walk tracks its variables. -/
theorem dialect_tracks : (dialect s).Tracks (Tracked s) Known where
  localGet hst h := (localGet_cases h).tracks hst
  localSet hst hvalue h := (localSet_cases h).tracks hst hvalue
  globalGet {_ index} := by
    show (globalGet s index).Uses _
    unfold globalGet
    split <;> exact .of_children rfl nofun
  globalSet {_ index value} hvalue := by
    show (globalSet s index value).Uses _
    unfold globalSet
    split
    · exact .of_children rfl nofun
    · exact Code.uses_assign (.of_children rfl nofun) hvalue
  const := .of_children rfl nofun
  binary {_ op left right} hleft hright := by
    show (binary op left right).Uses _
    rcases binary_cases op left right with heq | ⟨heq, -⟩ | ⟨_, _, _, _, _, -, -, heq, -⟩
    · rw [heq]
      exact Code.uses_binary hleft hright
    · rw [heq]
      exact .of_children rfl nofun
    · rw [heq]
      exact .of_children rfl nofun
  load hbytes hst haddress h := (access_cases h).tracks hbytes hst haddress
  store hbytes hst haddress hvalue h := by
    obtain ⟨target, haccess, rfl⟩ := store_cases h
    obtain ⟨hgrown, htarget⟩ := haccess.tracks hbytes hst haddress
    exact ⟨hgrown, Code.uses_assign htarget (hvalue.mono hgrown.keeps)⟩

/-- The walk starts with no variable. -/
theorem initial_tracked : Tracked s (initial s) where
  registered := List.length_replicate
  sorted := .nil
  owned := nofun
  sound := FrameLayout.sound_empty
  addressed := nofun
  recorded c hc := by cases List.eq_of_mem_replicate hc

end

end Framed

end WasmLift
