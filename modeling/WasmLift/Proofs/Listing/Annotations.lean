import Mathlib.Algebra.Group.Nat.Defs
import WasmLift.Module.Decode
import WasmLift.Proofs.Listing.Declarations
import WasmLift.Proofs.Memory.Flattening

/-!
# Texts beside constants

In an unoptimized function a constant is printed with the text at its address, if there is one.
Every constant that is printed was written as such, those that are taken from a register included
(`Framed.dialect_annotates`). The address of a constant has the sign of its word, while the offset
of a data segment has none. So a 32-bit constant is printed with the text at its address, read
without a sign, if that is in the lower half of the address space, and without a text if it is in
the upper half (`Listing.constants_annotated`).
-/

namespace WasmLift

/-! ## Constants on the page -/

namespace Code

/-- The constant that a node is, and the text beside it. -/
def constant? : Code → Option (Value × Option String)
  | .const value text => some (value, text)
  | _ => none

end Code

namespace Framed

section
variable {s : Surroundings} {st st' : FrameState}

/-- A constant has the text at its address beside it. -/
def Annotates (s : Surroundings) (c : Code) : Prop :=
  ∀ value text, c.constant? = some (value, text) →
    text = value.asInteger?.bind s.memory.stringAt?

/-- Constants in registers have the text at their addresses beside them. -/
def Recorded (s : Surroundings) (st : FrameState) : Prop :=
  ∀ c, some c ∈ st.registers → c.Every (Annotates s)

theorem every_const (value : Value) : (const s value).Every (Annotates s) :=
  .node (by rintro _ _ ⟨⟩; rfl) (List.forall_mem_nil _)

/-- A node that is no constant is annotated as those below it are. -/
theorem every_of_children {c : Code} (hconstant : c.constant? = none)
    (h : ∀ x ∈ c.children, x.Every (Annotates s)) : c.Every (Annotates s) :=
  .node (by simp [Annotates, hconstant]) h

theorem every_leaf {c : Code} (hconstant : c.constant? = none) (hchildren : c.children = []) :
    c.Every (Annotates s) :=
  every_of_children hconstant (by simp [hchildren])

theorem every_assign {target value : Code} (htarget : target.Every (Annotates s))
    (hvalue : value.Every (Annotates s)) : (Code.assign target value).Every (Annotates s) :=
  every_of_children rfl (by simpa [Code.children] using ⟨htarget, hvalue⟩)

theorem every_deref {address : Code} {arg : MemArg} {ty : Ty}
    (haddress : address.Every (Annotates s)) :
    (Code.deref address arg ty).Every (Annotates s) :=
  every_of_children rfl (List.forall_mem_singleton.2 haddress)

theorem Gets.annotates {index : Nat} {c : Code} (hst : Recorded s st)
    (h : Gets s index st c st') :
    Upheld (Recorded s) (fun _ => Annotates s) st st' ∧ c.Every (Annotates s) := by
  cases h with
  | param => exact ⟨.refl hst, every_leaf rfl rfl⟩
  | plain => exact ⟨.refl hst, every_leaf rfl rfl⟩
  | recorded hregister => exact ⟨.refl hst, hst c hregister⟩
  | unknown => exact ⟨⟨hst, fun _ hc => hc⟩, every_leaf rfl rfl⟩

/-- A register that is overwritten holds the new value, the others what they held. -/
theorem Recorded.set (hst : Recorded s st) {slot : Nat} {value : Option Code}
    (hvalue : ∀ c, value = some c → c.Every (Annotates s)) (c : Code)
    (hc : some c ∈ st.registers.set slot value) : c.Every (Annotates s) := by
  rcases List.mem_or_eq_of_mem_set hc with hc | hc
  · exact hst c hc
  · exact hvalue c hc.symm

theorem Sets.annotates {index : Nat} {value c : Code} {tee : Bool} (hst : Recorded s st)
    (hvalue : value.Every (Annotates s)) (h : Sets s index value tee st c st') :
    Upheld (Recorded s) (fun _ => Annotates s) st st' ∧ c.Every (Annotates s) := by
  cases h with
  | param => exact ⟨.refl hst, every_assign (every_leaf rfl rfl) hvalue⟩
  | assigned =>
    refine ⟨⟨hst.set ?_, fun _ hc => hc⟩, every_assign (every_leaf rfl rfl) hvalue⟩
    rintro _ ⟨⟩
  | recorded =>
    refine ⟨⟨hst.set ?_, fun _ hc => hc⟩, ?_⟩
    · rintro _ ⟨⟩
      exact hvalue
    · cases tee with
      | true => exact hvalue
      | false => exact every_leaf rfl rfl

theorem Accesses.annotates {address c : Code} {arg : MemArg} {ty : Ty} (hst : Recorded s st)
    (haddress : address.Every (Annotates s)) (h : Accesses address arg ty st c st') :
    Upheld (Recorded s) (fun _ => Annotates s) st st' ∧ c.Every (Annotates s) := by
  cases h with
  | slot => exact ⟨⟨hst, fun _ hc => hc⟩, every_leaf rfl rfl⟩
  | deref => exact ⟨⟨hst, fun _ hc => hc⟩, every_deref haddress⟩

/-- Every constant that is written has the text at its address beside it. -/
theorem dialect_annotates : (dialect s).Upholds (Recorded s) fun _ => Annotates s where
  common c hc value text hconstant := by
    cases c with
    | const => cases hc
    | _ => cases hconstant
  localGet hst h := (localGet_cases h).annotates hst
  localSet hst hvalue h := (localSet_cases h).annotates hst hvalue
  globalGet {_ index} := by
    show (globalGet s index).Every _
    unfold globalGet
    split <;> exact every_leaf rfl rfl
  globalSet {_ index value} hvalue := by
    show (globalSet s index value).Every _
    unfold globalSet
    split
    · exact every_leaf rfl rfl
    · exact every_assign (every_leaf rfl rfl) hvalue
  const := every_const _
  binary {_ op left right} hleft hright := by
    show (binary op left right).Every _
    rcases binary_cases op left right with heq | ⟨heq, -⟩ | ⟨_, _, _, _, _, -, -, heq, -⟩
    · rw [heq]
      exact every_of_children rfl (by simpa [Code.children] using ⟨hleft, hright⟩)
    · rw [heq]
      exact every_leaf rfl rfl
    · rw [heq]
      exact every_leaf rfl rfl
  load _ hst haddress h := (access_cases h).annotates hst haddress
  store _ hst haddress hvalue h := by
    obtain ⟨target, haccess, rfl⟩ := store_cases h
    obtain ⟨hupheld, htarget⟩ := haccess.annotates hst haddress
    exact ⟨hupheld, every_assign htarget hvalue⟩

theorem initial_recorded : Recorded s (initial s) := by
  intro c hc
  cases List.eq_of_mem_replicate hc

end

end Framed

/-! ## Addresses -/

namespace MemoryImage

/-- A text is found at the address of a word exactly if it stands at the address without a sign, and
this is in the lower half. -/
theorem shows_toInt {memory : MemoryImage} {word : BitVec 32} {text : List UInt8} :
    memory.Shows word.toInt text ↔ word.toNat < 2 ^ 31 ∧ memory.Shows word.toNat text := by
  by_cases hword : word.toNat < 2 ^ 31
  · rw [BitVec.toInt_eq_toNat_of_lt (by omega)]
    exact ⟨fun h => ⟨hword, h⟩, And.right⟩
  · refine iff_of_false (fun h => ?_) fun h => hword h.1
    have hlower := h.lower
    have hnegative : word.toInt < 0 := BitVec.toInt_neg_iff.2 (by omega)
    omega

end MemoryImage

/-- A segment and a word with the same bits as its offset. The first byte of the segment is in the
image, under the word without a sign. The address of the word, which has a sign, is that one exactly
if the word is in the lower half, and otherwise none of the image. -/
structure SharesOffset (segments : List DataSegment) (memory : MemoryImage) (s : DataSegment)
    (word : BitVec 32) : Prop where
  placed : memory.min ≤ s.offset ∧ s.offset < memory.max
  byte : memory.bytes[s.offset - memory.min]? = some (MemoryImage.lastByteAt segments s.offset)
  same : (Value.i32 word).asInteger? = some (s.offset : Int) ↔ word.toNat < 2 ^ 31
  found : memory.contains word.toInt = true ↔ word.toNat < 2 ^ 31

theorem sharesOffset_of_dataAddress {segments : List DataSegment} {memory : MemoryImage}
    (hmemory : MemoryImage.ofSegments segments = .ok memory) {s : DataSegment}
    (hs : s ∈ segments) (hbytes : s.bytes ≠ []) {word : BitVec 32}
    (hoffset : Module.dataAddress (.value (.i32 word)) = .ok s.offset) :
    SharesOffset segments memory s word := by
  have hword : word.toNat = s.offset := Except.ok.inj hoffset
  have hlength := List.length_pos_of_ne_nil hbytes
  obtain ⟨hmin, hmax⟩ := MemoryImage.within_ofSegments hmemory hs
  unfold DataSegment.stop at hmax
  have hlast : s.offset < memory.max := by omega
  have hbyte := (MemoryImage.flattens_of_ofSegments hmemory).byte _ hmin hlast
  by_cases hlow : word.toNat < 2 ^ 31
  · have hsame : word.toInt = s.offset := by rw [BitVec.toInt_eq_toNat_of_lt (by omega), hword]
    refine ⟨⟨hmin, hlast⟩, hbyte, iff_of_true (congrArg some hsame) hlow, iff_of_true ?_ hlow⟩
    simp [MemoryImage.contains, hsame, hmin, hlast]
  · have hnegative : word.toInt < 0 := BitVec.toInt_neg_iff.2 (by omega)
    refine ⟨⟨hmin, hlast⟩, hbyte, iff_of_false (fun h => ?_) hlow, iff_of_false (fun h => ?_) hlow⟩
    · have hsame : word.toInt = s.offset := Option.some.inj h
      omega
    · have hinside : memory.min ≤ word.toInt ∧ word.toInt < memory.max := by
        simpa [MemoryImage.contains] using h
      omega

namespace Listing

/-- A 32-bit constant has a text beside it exactly if its word is in the lower half and the text
stands at the address that the word is without a sign. -/
def AnnotatedBelow (memory : MemoryImage) (c : Code) : Prop :=
  ∀ word text, c = .const (.i32 word) text →
    (∀ t, text = some (Text.escape t) ↔ word.toNat < 2 ^ 31 ∧ memory.Shows word.toNat t) ∧
      (text = none ↔ ∀ t, word.toNat < 2 ^ 31 → ¬memory.Shows word.toNat t)

theorem annotatedBelow_of_annotates {s : Framed.Surroundings} {c : Code}
    (h : Framed.Annotates s c) : AnnotatedBelow s.memory c := by
  rintro word text rfl
  have htext : text = s.memory.stringAt? word.toInt := h _ _ rfl
  rw [htext]
  refine ⟨fun t => ?_, ?_⟩
  · rw [MemoryImage.stringAt?_eq_escape, MemoryImage.shows_toInt]
  · simp only [MemoryImage.stringAt?_eq_none, MemoryImage.shows_toInt, not_and]

/-- For every function of an expanded program whose memory can be laid out, in the listing of
unoptimized functions: every 32-bit constant of the body is written as a constant, and every
constant on the page, those from registers included, has a text beside it exactly if its word is in
the lower half of the address space and the text stands at that address. A word with the bits of the
offset of a segment is the address of that segment's first byte in the lower half, and no address of
the image in the upper half. -/
theorem constants_annotated {m : Module} {p : Program} (hp : Program.ofModule? m = .ok p)
    {memory : MemoryImage} (hmemory : MemoryImage.ofSegments p.segments = .ok memory) {f : Function}
    (hf : f ∈ p.functions) :
    (∀ word st, ∃ text,
      Walk.expr p (Framed.dialect (surroundings p memory f)) (.const (.i32 word)) st =
        (.ok (.const (.i32 word) text), st) ∧ AnnotatedBelow memory (.const (.i32 word) text)) ∧
    (∃ nodes st, Framed.statements (surroundings p memory f) = (.ok nodes, st) ∧
      (∀ node ∈ nodes, node.Every (AnnotatedBelow memory)) ∧
      ∀ frameSize log, ∃ log', framed p memory f frameSize log =
        (.ok (functionText (header p f 0 "Decompilation")
          ((frameVariables f st).map Variable.declaration)
          (Code.statementTexts st.layout nodes)), log')) ∧
    ∀ s ∈ p.segments, s.bytes ≠ [] → ∀ word, Module.dataAddress (.value (.i32 word)) = .ok s.offset →
      SharesOffset p.segments memory s word := by
  let s := surroundings p memory f
  refine ⟨fun word st => ⟨_, rfl, ?_⟩, ?_,
    fun _ hs hbytes _ => sharesOffset_of_dataAddress hmemory hs hbytes⟩
  · exact annotatedBelow_of_annotates (Framed.every_const (s := s) (.i32 word)).own
  have hproper : ∀ body, f.body? = some body → body.All Expr.Proper := fun _ hbody =>
    Program.proper_of_mem hp hf hbody
  obtain ⟨nodes, st, hnodes⟩ := Framed.statements_ok (s := s) (Program.inRange_of_mem hp hf)
  obtain ⟨-, hevery⟩ := Walk.function_upholds Framed.dialect_annotates hproper
    Framed.initial_recorded hnodes
  refine ⟨nodes, st, hnodes, fun node hnode => ?_, framedIn_eq hnodes⟩
  exact (hevery node hnode).mono fun _ => annotatedBelow_of_annotates

/-- An unoptimized function that returns a constant, given by its bytes in the code, and a text at
an address. -/
def greeting (address : Nat) (constant : List UInt8) : Module where
  types := [⟨[], [.i32]⟩]
  -- global.get 0; local.set 0; i32.const 16; local.set 1; local.get 0; local.get 1; i32.sub
  -- local.set 2; i32.const; end
  functions := [⟨0, [.i32, .i32, .i32], [0x23, 0x00, 0x21, 0x00, 0x41, 0x10, 0x21, 0x01,
    0x20, 0x00, 0x20, 0x01, 0x6b, 0x21, 0x02, 0x41] ++ constant ++ [0x0b]⟩]
  globals := [⟨.i32, true, .value (.i32 65536)⟩]
  segments := [⟨address, [0x68, 0x69, 0x00]⟩]

/-- The function, as it is rebuilt. -/
def greetingFunction (word : BitVec 32) : Function where
  name := ⟨0⟩
  params := []
  result := .i32
  kind := .defined [.i32, .i32, .i32] (.block none
    [.localSet 0 (.globalGet 0 .i32) false .void, .localSet 1 (.const (.i32 16)) false .void,
      .localSet 2 (.binary (.int .w32 .sub) (.localGet 0 .i32) (.localGet 1 .i32)) false .void,
      .const (.i32 word)] .i32)
  exportName := none

/-- The module is expanded if its function is rebuilt. -/
theorem greeting_expands (address : Nat) (constant : List UInt8) (word : BitVec 32)
    (hstages : Program.Stages (greeting address constant)
      ⟨[⟨[], [.i32]⟩], [⟨[], [.i32]⟩], [⟨0⟩], [.i32]⟩ [] [greetingFunction word] []) :
    ∃ names, Program.ofModule? (greeting address constant) =
      .ok ⟨[greetingFunction word], Program.globalsOf (greeting address constant) [.i32], [],
        [⟨address, [0x68, 0x69, 0x00]⟩], names⟩ := by
  obtain ⟨names, hnames, -⟩ := hstages.bound
  exact ⟨names, Program.ofModule?_eq_ok.2 ⟨_, _, _, _, names, hstages, hnames, rfl⟩⟩

/-- A text in the lower half stands beside its address. -/
theorem constants_annotated_lower :
    ∃ p memory nodes st, Program.ofModule? (greeting 0x400 [0x80, 0x08]) = .ok p ∧
      p.functions = [greetingFunction 0x400] ∧ p.compression 0 = .decompressed 16 ∧
      MemoryImage.ofSegments p.segments = .ok memory ∧
      Framed.statements (surroundings p memory (greetingFunction 0x400)) = (.ok nodes, st) ∧
      nodes = [.ret (some (.const (.i32 0x400) (some "hi")))] ∧
      memory.Shows 0x400 [0x68, 0x69] := by
  obtain ⟨names, hp⟩ := greeting_expands 0x400 [0x80, 0x08] 0x400
    ⟨rfl, rfl, rfl, rfl, rfl, rfl, rfl⟩
  have hmemory : MemoryImage.ofSegments [⟨0x400, [0x68, 0x69, 0x00]⟩] =
      .ok ⟨0x400, 0x403, [0x68, 0x69, 0x00]⟩ := rfl
  obtain ⟨-, ⟨nodes, st, hnodes, hevery, -⟩, -⟩ := constants_annotated hp hmemory (.head _)
  have hreturn : nodes = [.ret (some (.const (.i32 0x400) (some "hi")))] := by
    cases hnodes
    rfl
  refine ⟨_, _, nodes, st, hp, rfl, rfl, hmemory, hnodes, hreturn, ?_⟩
  subst hreturn
  have hconst := ((hevery _ (.head _)).child (.head _)).own 0x400 (some "hi") rfl
  exact ((hconst.1 [0x68, 0x69]).1 rfl).2

/-- A text in the upper half does not, though a segment begins there. -/
theorem constants_bare_upper :
    ∃ p memory nodes st,
      Program.ofModule? (greeting 0x80000000 [0x80, 0x80, 0x80, 0x80, 0x78]) = .ok p ∧
      p.functions = [greetingFunction 0x80000000] ∧ p.compression 0 = .decompressed 16 ∧
      MemoryImage.ofSegments p.segments = .ok memory ∧
      Framed.statements (surroundings p memory (greetingFunction 0x80000000)) = (.ok nodes, st) ∧
      nodes = [.ret (some (.const (.i32 0x80000000) none))] ∧
      Module.dataAddress (.value (.i32 0x80000000)) = .ok 0x80000000 ∧
      memory.Shows (0x80000000 : BitVec 32).toNat [0x68, 0x69] := by
  obtain ⟨names, hp⟩ := greeting_expands 0x80000000 [0x80, 0x80, 0x80, 0x80, 0x78] 0x80000000
    ⟨rfl, rfl, rfl, rfl, rfl, rfl, rfl⟩
  refine ⟨_, ⟨0x80000000, 0x80000003, [0x68, 0x69, 0x00]⟩, _, _, hp, rfl, rfl, rfl, rfl, rfl,
    rfl, ?_⟩
  exact MemoryImage.stringAt?_eq_escape.1 (by decide)

end Listing

end WasmLift
