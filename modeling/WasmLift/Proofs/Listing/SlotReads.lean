import WasmLift.Proofs.Listing.Declarations
import WasmLift.Proofs.Listing.Lines

/-!
# Reads of stack slots that print alike

A walk comes to every node of a body (`Walk.comes_of_mem_nodes`), and what is known when a node has
been written is known at the end (`Walk.Comes.upheld`). So all loads that are written as stack
slots, whenever that is, lie in slots of the layout at the end. The text of a slot gives the slot
and the distance into it, and nothing else: two such loads print alike exactly if they begin at the
same byte of the frame, and then they read the same bytes exactly if they are of one width
(`Framed.slotReads_alike`). Width and extension show nowhere (`Framed.slotReads_narrowed`).
-/

namespace WasmLift

/-! ## The way of a walk -/

namespace Walk

section
variable {σ : Type}

/-- From a state before some nodes, the walk comes to one of them or of the nodes below in another
state. Nodes are written one after the other, each with its children first. -/
inductive Comes (p : Program) (d : Dialect σ) : List Expr → σ → Expr → σ → Prop where
  | here {e : Expr} {rest : List Expr} {st : σ} : Comes p d (e :: rest) st e st
  | later {e x : Expr} {rest : List Expr} {c : Code} {st st₁ st' : σ}
      (hfirst : expr p d e st = (.ok c, st₁)) (hrest : Comes p d rest st₁ x st') :
      Comes p d (e :: rest) st x st'
  | inside {e x : Expr} {rest : List Expr} {st st' : σ}
      (hchildren : Comes p d e.children st x st') : Comes p d (e :: rest) st x st'

variable {p : Program} {d : Dialect σ} {e x : Expr} {es rest : List Expr} {c : Code}
  {cs : List Code} {st st₁ st' : σ}

/-- The children of a node are written first, and then the node is put together of them unless it is
made of statements. -/
theorem children_ok (h : expr p d e st = (.ok c, st')) :
    ∃ cs st₁, exprs p d e.children st = (.ok cs, st₁) ∧
      (compose p d e cs st₁ = (.ok c, st') ∨ st₁ = st') := by
  cases hsimple : e.isSimple with
  | true =>
    obtain ⟨cs, st₁, hcs, hcompose⟩ := simple_ok hsimple h
    exact ⟨cs, st₁, hcs, .inl hcompose⟩
  | false =>
    cases e with
    | block label children ty =>
      obtain ⟨-, cs, hcs⟩ := block_ok h
      exact ⟨cs, st', hcs, .inr rfl⟩
    | ite condition ifTrue ifFalse ty =>
      obtain ⟨-, c, st₁, t, st₂, fs, hcondition, htrue, hfalse⟩ := ite_ok h
      exact ⟨c :: t :: fs, st', exprs_cons hcondition (exprs_cons htrue hfalse), .inr rfl⟩
    | loop label body ty =>
      obtain ⟨-, c, hc⟩ := loop_ok h
      exact ⟨[c], st', exprs_single hc, .inr rfl⟩
    | _ => cases hsimple

theorem Comes.weaken (h : Comes p d [e] st x st') : Comes p d (e :: rest) st x st' := by
  cases h with
  | here => exact .here
  | later _ hrest => cases hrest
  | inside hchildren => exact .inside hchildren

/-- The way past nodes that are written. -/
theorem Comes.past (hwrite : exprs p d es st = (.ok cs, st₁)) (hrest : Comes p d rest st₁ x st') :
    Comes p d (es ++ rest) st x st' := by
  induction es generalizing st cs with
  | nil =>
    cases hwrite
    exact hrest
  | cons e es ih =>
    obtain ⟨c, st₂, cs, he, hes, -⟩ := exprs_cons_ok hwrite
    exact .later he (ih hes)

/-- A walk that succeeds comes to every node. -/
theorem comes_of_mem_nodes (hwrite : exprs p d es st = (.ok cs, st')) (he : e ∈ es)
    (hx : x ∈ e.nodes) : ∃ st₁, Comes p d es st x st₁ := by
  induction e using Expr.induct generalizing es st cs st' with
  | h e ih =>
  induction es generalizing st cs with
  | nil => cases he
  | cons first rest ihrest =>
    obtain ⟨c, st₁, cs', hfirst, hrest, -⟩ := exprs_cons_ok hwrite
    rcases List.mem_cons.1 he with rfl | he
    · rw [Expr.nodes_eq] at hx
      rcases List.mem_append.1 hx with hx | hx
      · obtain ⟨child, hchild, hx⟩ := List.mem_flatMap.1 hx
        obtain ⟨codes, st₂, hcodes, -⟩ := children_ok hfirst
        obtain ⟨st₃, hcomes⟩ := ih child hchild hcodes hchild hx
        exact ⟨st₃, .inside hcomes⟩
      · exact ⟨st, List.mem_singleton.1 hx ▸ .here⟩
    · obtain ⟨st₂, hcomes⟩ := ihrest hrest he
      exact ⟨st₂, .later hfirst hcomes⟩

variable {P : σ → Prop} {Q : σ → Code → Prop}

/-- A node that the walk comes to is written there, and what holds of codes after it holds of them
at the end. -/
theorem Comes.upheld (hd : d.Upholds P Q) (hcomes : Comes p d es st x st₁)
    (hes : ∀ e ∈ es, e.All Expr.Proper) (hst : P st)
    (hwrite : exprs p d es st = (.ok cs, st')) :
    P st₁ ∧ x.All Expr.Proper ∧ ∃ c st₂, expr p d x st₁ = (.ok c, st₂) ∧ Upheld P Q st₂ st' := by
  have hall {es : List Expr} {st st' : σ} {cs : List Code} (hes : ∀ e ∈ es, e.All Expr.Proper)
      (hst : P st) (hwrite : exprs p d es st = (.ok cs, st')) :
      Upheld P Q st st' ∧ ∀ c ∈ cs, c.Every (Q st') :=
    exprs_upholds (fun e he _ _ _ => expr_upholds hd (hes e he)) hst hwrite
  induction hcomes generalizing cs st' with
  | here =>
    obtain ⟨c, st₁, cs, hfirst, hrest, -⟩ := exprs_cons_ok hwrite
    obtain ⟨he, hes⟩ := List.forall_mem_cons.1 hes
    have hone := (expr_upholds hd he hst hfirst).1
    exact ⟨hst, he, c, st₁, hfirst, (hall hes hone.holds hrest).1⟩
  | later hfirst _ ih =>
    obtain ⟨c, st₁, cs, hfirst', hrest, -⟩ := exprs_cons_ok hwrite
    cases hfirst.symm.trans hfirst'
    obtain ⟨he, hes⟩ := List.forall_mem_cons.1 hes
    exact ih hes (expr_upholds hd he hst hfirst).1.holds hrest
  | inside hchildren ih =>
    obtain ⟨c, st₁, cs, hfirst, hrest, -⟩ := exprs_cons_ok hwrite
    obtain ⟨he, hes⟩ := List.forall_mem_cons.1 hes
    obtain ⟨codes, st₂, hcodes, hnode⟩ := children_ok hfirst
    obtain ⟨hbelow, hvalues⟩ := hall (fun e hchild => he.child hchild) hst hcodes
    obtain ⟨hst₁, hx, c', st₃, hc', hkept⟩ := ih (fun e hchild => he.child hchild) hst hcodes
    have habove : Upheld P Q st₂ st₁ := by
      rcases hnode with hcompose | rfl
      · exact (compose_upholds hd he.own hvalues hbelow.holds hcompose).1
      · exact .refl hbelow.holds
    exact ⟨hst₁, hx, c', st₃, hc', (hkept.trans habove).trans (hall hes habove.holds hrest).1⟩

end

end Walk

/-! ## Texts of slots -/

namespace Code

theorem digitChar_ne_plus : ∀ d < 16, Nat.digitChar d ≠ '+' := by
  decide

theorem plus_not_mem_toDigits {base : Nat} (hlow : 1 < base) (hhigh : base ≤ 16) (n : Nat) :
    '+' ∉ Nat.toDigits base n := by
  have hdigits : ∀ c ∈ Nat.toDigits base n, c ≠ '+' :=
    Text.toDigits_all hlow (fun d hd => digitChar_ne_plus d (by omega)) n
  exact fun hmem => hdigits _ hmem rfl

theorem plus_not_mem_slotName (offset : Int) : '+' ∉ (Spelling.slotName offset).toList := by
  rw [Spelling.slotName_toList]
  simp only [List.mem_append, List.mem_cons, not_or]
  exact ⟨by decide, by decide, plus_not_mem_toDigits (by decide) (by decide) _⟩

theorem slotText_start (start : Nat) : slotText ⟨start, 0⟩ = Spelling.slotName start :=
  rfl

theorem slotText_toList (start : Nat) {diff : Nat} (hdiff : diff ≠ 0) :
    (slotText ⟨start, diff⟩).toList =
      ("*(&".toList ++ (Spelling.slotName start).toList ++ [' ']) ++
        '+' :: (' ' :: Nat.toDigits 10 diff ++ [')']) := by
  have htext : slotText ⟨start, diff⟩ =
      "*(&" ++ Spelling.slotName start ++ " + " ++ toString diff ++ ")" := by
    simp [slotText, hdiff, Listing.Variable.toString_text, String.append_assoc]
  rw [htext]
  simp [Nat.toString_eq_ofList_toDigits, -Nat.toString_eq_repr]

/-- The text of a slot gives the slot and the distance into it. -/
theorem slotText_injective {a b : SlotPlace} (ha : a.offset < 2 ^ 63) (hb : b.offset < 2 ^ 63)
    (h : slotText a = slotText b) : a = b := by
  obtain ⟨start, diff⟩ := a
  obtain ⟨start', diff'⟩ := b
  -- A name begins with a letter, and a place further into a slot with a star.
  have hhead (i j : Nat) {k : Nat} (hk : k ≠ 0) : slotText ⟨i, 0⟩ ≠ slotText ⟨j, k⟩ := by
    intro heq
    have hlist := congrArg String.toList heq
    rw [slotText_start, Spelling.slotName_toList, slotText_toList j hk] at hlist
    simp at hlist
  by_cases hdiff : diff = 0 <;> by_cases hdiff' : diff' = 0
  · subst hdiff hdiff'
    exact congrArg (SlotPlace.mk · 0) (Spelling.slotName_injective ha hb h)
  · subst hdiff
    exact absurd h (hhead start start' hdiff')
  · subst hdiff'
    exact absurd h.symm (hhead start' start hdiff)
  · have hlist := congrArg String.toList h
    rw [slotText_toList start hdiff, slotText_toList start' hdiff'] at hlist
    have hfront : '+' ∉ "*(&".toList ++ (Spelling.slotName start).toList ++ [' '] := by
      simp only [List.mem_append, not_or]
      exact ⟨⟨by decide, plus_not_mem_slotName start⟩, by decide⟩
    have hback : '+' ∉ ' ' :: Nat.toDigits 10 diff ++ [')'] := by
      simp only [List.mem_append, List.mem_cons, not_or]
      exact ⟨⟨by decide, plus_not_mem_toDigits (by decide) (by decide) diff⟩, by decide⟩
    obtain ⟨hname, -, hdigits⟩ := (List.append_cons_inj_of_notMem hfront hback).1 hlist
    obtain rfl : start = start' := Spelling.slotName_injective ha hb
      (String.toList_injective (List.append_cancel_left (List.append_cancel_right hname)))
    obtain rfl : diff = diff' :=
      Names.toDigits_injective (List.cons.inj (List.append_cancel_right hdigits)).2
    rfl

end Code

/-! ## Reads -/

namespace Framed

/-- A load of a function that is written as a place in a stack slot. -/
structure SlotRead (s : Surroundings) where
  address : Expr
  arg : MemArg
  ty : Ty
  /-- The distance of its first byte from the frame base. -/
  offset : Nat
  place : SlotPlace
  written : ∃ body st c st₁ st₂, s.function.body? = some body ∧
    Walk.Comes s.program (dialect s) [body] (initial s) (.load address arg ty) st ∧
    write s address st = (.ok c, st₁) ∧ frameOffset? c arg.offset = some offset ∧
    access c arg ty st₁ = (.ok (.slot place), st₂)

namespace SlotRead

variable {s : Surroundings}

/-- How the load is printed. -/
def text (x : SlotRead s) (layout : FrameLayout) : String :=
  ((Code.render layout (.slot x.place)).run []).1.text

/-- The load reads the byte of the frame. -/
def Touches (x : SlotRead s) (byte : Nat) : Prop :=
  x.offset ≤ byte ∧ byte < x.offset + x.arg.bytes

/-- The place that the load is written as is one of the layout at the end of the walk, and so is
that of its last byte if it ends where a signed 64-bit number reaches. -/
theorem lies (x : SlotRead s) {nodes : List Code} {st : FrameState}
    (hproper : ∀ body, s.function.body? = some body → body.All Expr.Proper)
    (hnodes : statements s = (.ok nodes, st)) :
    0 < x.arg.bytes ∧ x.place.offset + x.place.diff = x.offset ∧ st.layout.Holds x.place ∧
      (x.offset + x.arg.bytes < 2 ^ 63 →
        st.layout.Holds ⟨x.place.offset, x.place.diff + x.arg.bytes - 1⟩) := by
  obtain ⟨body, st₀, c, st₁, st₂, hbody, hcomes, haddress, hoffset, haccess⟩ := x.written
  have hload : write s (.load x.address x.arg x.ty) st₀ = (.ok (.slot x.place), st₂) :=
    (bind_of_ok haddress _).trans haccess
  have hd := (dialect_tracks (s := s)).upholds
  obtain ⟨code, hcode⟩ := Walk.function_ok hbody hnodes
  obtain ⟨-, hx, _, _, hload', hkept⟩ := hcomes.upheld hd
    (List.forall_mem_singleton.2 (hproper body hbody)) initial_tracked (Walk.exprs_single hcode)
  cases hload.symm.trans hload'
  have hbytes := hx.own.access x.arg.bytes rfl
  cases access_cases haccess with
  | @slot offset place layout inFrame placed =>
    cases inFrame.symm.trans hoffset
    -- What is known of a place when the load has been written is known at the end.
    have hstays {place : SlotPlace} (hplace : layout.Holds place) : st.layout.Holds place :=
      hkept.keeps (.slot place) (by rintro _ ⟨⟩; exact hplace) _ rfl
    obtain ⟨hplace, hlast⟩ := FrameLayout.place_holds hbytes placed
    exact ⟨hbytes, FrameLayout.place_sum placed, hstays hplace, fun hfits => hstays (hlast hfits)⟩

theorem touches_iff {x y : SlotRead s} (h : x.offset = y.offset) :
    (∀ byte, x.Touches byte ↔ y.Touches byte) ↔ x.arg.bytes = y.arg.bytes := by
  constructor
  · intro hsame
    have hx := hsame (x.offset + x.arg.bytes)
    have hy := hsame (y.offset + y.arg.bytes)
    unfold Touches at hx hy
    omega
  · intro hbytes byte
    rw [Touches, Touches, h, hbytes]

end SlotRead

/-- In every function of an expanded program, each node of the body is written in one state of the
walk, and every load that is written as a stack slot begins in a slot of the layout at the end, and
lies in it if it ends where a signed 64-bit number reaches. Two of them print alike exactly if they
begin at the same byte of the frame. They then lie in the same slot, and read the same bytes exactly
if they are of one width. -/
theorem slotReads_alike {m : Module} {p : Program} (hp : Program.ofModule? m = .ok p) {f : Function}
    (hf : f ∈ p.functions) (memory : MemoryImage) :
    ∃ nodes st, statements (Listing.surroundings p memory f) = (.ok nodes, st) ∧
      (∀ body, f.body? = some body → ∀ x ∈ body.nodes, ∃ st,
        Walk.Comes p (dialect (Listing.surroundings p memory f)) [body]
          (initial (Listing.surroundings p memory f)) x st) ∧
      (∀ x : SlotRead (Listing.surroundings p memory f), ∃ slot ∈ st.layout.slots,
        slot.offset = x.place.offset ∧ slot.offset ≤ x.offset ∧
          x.offset < slot.offset + slot.size ∧
          (x.offset + x.arg.bytes < 2 ^ 63 →
            x.offset + x.arg.bytes ≤ slot.offset + slot.size)) ∧
      ∀ x y : SlotRead (Listing.surroundings p memory f),
        (x.text st.layout = y.text st.layout ↔ x.offset = y.offset) ∧
        (x.text st.layout = y.text st.layout → x.place.offset = y.place.offset ∧
          ((∀ byte, x.Touches byte ↔ y.Touches byte) ↔ x.arg.bytes = y.arg.bytes)) := by
  let s := Listing.surroundings p memory f
  have hproper : ∀ body, f.body? = some body → body.All Expr.Proper := fun _ hbody =>
    Program.proper_of_mem hp hf hbody
  obtain ⟨nodes, st, hnodes⟩ := statements_ok (s := s) (Program.inRange_of_mem hp hf)
  have hst := (Walk.function_tracks dialect_tracks hproper initial_tracked hnodes).1
  have hlies (x : SlotRead s) := x.lies hproper hnodes
  have haddressed (x : SlotRead s) : x.place.offset < 2 ^ 63 := by
    obtain ⟨-, -, ⟨slot, hslot, hstart, -⟩, -⟩ := hlies x
    exact hstart ▸ hst.addressed slot hslot
  have halike (x y : SlotRead s) : x.text st.layout = y.text st.layout ↔ x.offset = y.offset := by
    obtain ⟨-, hxsum, hx, -⟩ := hlies x
    obtain ⟨-, hysum, hy, -⟩ := hlies y
    constructor
    · intro htext
      have hplace : x.place = y.place :=
        Code.slotText_injective (haddressed x) (haddressed y) htext
      rw [← hxsum, ← hysum, hplace]
    · intro hoffset
      have hplace : x.place = y.place := hst.sound.holds_unique hx hy (by omega)
      rw [SlotRead.text, SlotRead.text, hplace]
  refine ⟨nodes, st, hnodes, fun body hbody x hx => ?_, fun x => ?_, fun x y => ?_⟩
  · obtain ⟨code, hcode⟩ := Walk.function_ok hbody hnodes
    exact Walk.comes_of_mem_nodes (Walk.exprs_single hcode) (.head _) hx
  · obtain ⟨hbytes, hsum, hplace, hlast⟩ := hlies x
    by_cases hfits : x.offset + x.arg.bytes < 2 ^ 63
    · obtain ⟨slot, hslot, hstart, hdiff, -⟩ := hlast hfits
      dsimp only at hstart hdiff
      exact ⟨slot, hslot, hstart, by omega, by omega, fun _ => by omega⟩
    · obtain ⟨slot, hslot, hstart, hdiff, -⟩ := hplace
      exact ⟨slot, hslot, hstart, by omega, by omega, fun h => absurd h hfits⟩
  · refine ⟨halike x y, fun htext => ⟨?_, SlotRead.touches_iff ((halike x y).1 htext)⟩⟩
    rw [Code.slotText_injective (haddressed x) (haddressed y) htext]

/-- An unoptimized function that stores a word in its frame and reads it back three times: as a
word, and its first byte without and with a sign. -/
def mixed : Module where
  types := [⟨[.i32], [.i32]⟩]
  -- global.get 0; local.set 1; i32.const 16; local.set 2; local.get 1; local.get 2; i32.sub
  -- local.set 3; local.get 3; local.get 0; i32.store offset=12; local.get 3; i32.load offset=12
  -- local.get 3; i32.load8_u offset=12; i32.sub; local.get 3; i32.load8_s offset=12; i32.sub; end
  functions := [⟨0, [.i32, .i32, .i32], [0x23, 0x00, 0x21, 0x01, 0x41, 0x10, 0x21, 0x02,
    0x20, 0x01, 0x20, 0x02, 0x6b, 0x21, 0x03, 0x20, 0x03, 0x20, 0x00, 0x36, 0x02, 0x0c,
    0x20, 0x03, 0x28, 0x02, 0x0c, 0x20, 0x03, 0x2d, 0x00, 0x0c, 0x6b,
    0x20, 0x03, 0x2c, 0x00, 0x0c, 0x6b, 0x0b]⟩]
  globals := [⟨.i32, true, .value (.i32 65536)⟩]

/-- One of the reads. -/
def mixedLoad (bytes : Nat) (signed : Bool) : Expr :=
  .load (.localGet 3 .i32) ⟨12, bytes, signed, false⟩ .i32

/-- The statements in front of the reads. -/
def mixedFront : List Expr :=
  [.localSet 1 (.globalGet 0 .i32) false .void, .localSet 2 (.const (.i32 16)) false .void,
    .localSet 3 (.binary (.int .w32 .sub) (.localGet 1 .i32) (.localGet 2 .i32)) false .void,
    .store (.localGet 3 .i32) (.localGet 0 .i32) ⟨12, 4, false, false⟩]

/-- The reads. -/
def mixedReads : Expr :=
  .binary (.int .w32 .sub)
    (.binary (.int .w32 .sub) (mixedLoad 4 true) (mixedLoad 1 false)) (mixedLoad 1 true)

/-- The function, as it is rebuilt. -/
def mixedFunction : Function where
  name := ⟨0⟩
  params := [.i32]
  result := .i32
  kind := .defined [.i32, .i32, .i32] (.block none (mixedFront ++ [mixedReads]) .i32)
  exportName := none

/-- What is known when the reads are written. -/
def mixedState : FrameState where
  registers := [some .stackPointer, some (.const (.i32 16) none), some .stackBase]
  layout := ⟨[⟨12, 4, .i32⟩]⟩

theorem mixed_expands : ∃ names, Program.ofModule? mixed =
    .ok ⟨[mixedFunction], Program.globalsOf mixed [.i32], [], [], names⟩ := by
  have hstages : Program.Stages mixed
      ⟨[⟨[.i32], [.i32]⟩], [⟨[.i32], [.i32]⟩], [⟨0⟩], [.i32]⟩ [] [mixedFunction] [] :=
    ⟨rfl, rfl, rfl, rfl, rfl, rfl, rfl⟩
  obtain ⟨names, hnames, -⟩ := hstages.bound
  exact ⟨names, Program.ofModule?_eq_ok.2 ⟨_, _, _, _, names, hstages, hnames, rfl⟩⟩

/-- The reads are written as the slot in which the word has been stored. -/
theorem mixed_reads : ∃ p, Program.ofModule? mixed = .ok p ∧ mixedFunction ∈ p.functions ∧
    p.compression 0 = .decompressed 16 ∧ ∀ arg ∈ [(⟨12, 4, true, false⟩ : MemArg),
      ⟨12, 1, false, false⟩, ⟨12, 1, true, false⟩],
        ∃ x : SlotRead (Listing.surroundings p {} mixedFunction),
          x.arg = arg ∧ x.offset = 12 ∧ x.place = ⟨12, 0⟩ := by
  obtain ⟨names, hp⟩ := mixed_expands
  refine ⟨_, hp, .head _, rfl, ?_⟩
  let p : Program := ⟨[mixedFunction], Program.globalsOf mixed [.i32], [], [], names⟩
  let s := Listing.surroundings p {} mixedFunction
  have hfront : writeAll s mixedFront (initial s) =
      (.ok [.nop, .nop, .nop, .assign (.slot ⟨12, 0⟩) (.param 0)], mixedState) := rfl
  have hread {bytes : Nat} {signed : Bool}
      (hcomes : Walk.Comes p (dialect s) [mixedReads] mixedState (mixedLoad bytes signed)
        mixedState)
      (haccess : access .stackBase ⟨12, bytes, signed, false⟩ .i32 mixedState =
        (.ok (.slot ⟨12, 0⟩), mixedState)) :
      ∃ x : SlotRead s, x.arg = ⟨12, bytes, signed, false⟩ ∧ x.offset = 12 ∧
        x.place = ⟨12, 0⟩ := by
    have hpast : Walk.Comes p (dialect s) (mixedFront ++ [mixedReads]) (initial s)
        (mixedLoad bytes signed) mixedState := .past hfront hcomes
    have hway : Walk.Comes p (dialect s) [.block none (mixedFront ++ [mixedReads]) .i32]
        (initial s) (mixedLoad bytes signed) mixedState := .inside hpast
    have haddress : write s (.localGet 3 .i32) mixedState = (.ok .stackBase, mixedState) := rfl
    have hoffset : frameOffset? .stackBase 12 = some 12 := by decide +kernel
    exact ⟨⟨.localGet 3 .i32, ⟨12, bytes, signed, false⟩, .i32, 12, ⟨12, 0⟩, _, _, _, _, _, rfl, hway,
      haddress, hoffset, haccess⟩, rfl, rfl, rfl⟩
  have hword : write s (mixedLoad 4 true) mixedState =
      (.ok (.slot ⟨12, 0⟩), mixedState) := rfl
  have hboth : write s (.binary (.int .w32 .sub) (mixedLoad 4 true) (mixedLoad 1 false))
      mixedState =
        (.ok (.binary (.int .w32 .sub) (.slot ⟨12, 0⟩) (.slot ⟨12, 0⟩)), mixedState) := rfl
  simp only [List.forall_mem_cons]
  exact ⟨hread (.inside (.inside .here)) rfl, hread (.inside (.inside (.later hword .here))) rfl,
    hread (.inside (.later hboth .here)) rfl, List.forall_mem_nil _⟩

/-- The word and its first byte begin at the same place, and so they print alike, but they are of
different widths. -/
theorem slotReads_alike_word : ∃ p nodes st, Program.ofModule? mixed = .ok p ∧
    statements (Listing.surroundings p {} mixedFunction) = (.ok nodes, st) ∧
    ∃ x y : SlotRead (Listing.surroundings p {} mixedFunction),
      x.text st.layout = y.text st.layout ∧ ¬∀ byte, x.Touches byte ↔ y.Touches byte := by
  obtain ⟨p, hp, hf, -, hreads⟩ := mixed_reads
  obtain ⟨x, hxarg, hx, -⟩ := hreads ⟨12, 4, true, false⟩ (by decide)
  obtain ⟨y, hyarg, hy, -⟩ := hreads ⟨12, 1, false, false⟩ (by decide)
  obtain ⟨nodes, st, hnodes, -, -, halike⟩ := slotReads_alike hp hf {}
  have htext := (halike x y).1.2 (hx.trans hy.symm)
  refine ⟨p, nodes, st, hp, hnodes, x, y, htext, fun hsame => ?_⟩
  have hbytes := ((halike x y).2 htext).2.1 hsame
  rw [hxarg, hyarg] at hbytes
  cases hbytes

/-- Reads of a word, and of its first byte without and with a sign, that print alike. -/
theorem slotReads_narrowed : ∃ p, Program.ofModule? mixed = .ok p ∧
    mixedFunction ∈ p.functions ∧ p.compression 0 = .decompressed 16 ∧
    ∃ x y z : SlotRead (Listing.surroundings p {} mixedFunction),
      (∀ layout, x.text layout = "local_c" ∧ y.text layout = "local_c" ∧
        z.text layout = "local_c") ∧
      x.Touches 15 ∧ ¬y.Touches 15 ∧ (∀ byte, y.Touches byte ↔ z.Touches byte) ∧
        y.arg.signed = false ∧ z.arg.signed = true := by
  obtain ⟨p, hp, hf, hlevel, hreads⟩ := mixed_reads
  obtain ⟨x, hxarg, hx, hxplace⟩ := hreads ⟨12, 4, true, false⟩ (by decide)
  obtain ⟨y, hyarg, hy, hyplace⟩ := hreads ⟨12, 1, false, false⟩ (by decide)
  obtain ⟨z, hzarg, hz, hzplace⟩ := hreads ⟨12, 1, true, false⟩ (by decide)
  have htext {r : SlotRead (Listing.surroundings p {} mixedFunction)}
      (hplace : r.place = ⟨12, 0⟩) (layout : FrameLayout) : r.text layout = "local_c" := by
    rw [SlotRead.text, hplace]
    show Code.slotText ⟨12, 0⟩ = "local_c"
    decide +kernel
  refine ⟨p, hp, hf, hlevel, x, y, z,
    fun layout => ⟨htext hxplace layout, htext hyplace layout, htext hzplace layout⟩, ?_⟩
  simp [SlotRead.Touches, hx, hy, hz, hxarg, hyarg, hzarg]

end Framed

end WasmLift
