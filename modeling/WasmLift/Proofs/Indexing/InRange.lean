import WasmLift.Proofs.Indexing.Escapes
import WasmLift.Proofs.Indexing.Expansion
import WasmLift.Proofs.Indexing.Memory
import WasmLift.Proofs.Indexing.Mentions
import WasmLift.Proofs.Propagation.Points

/-!
# Indices in range

Whatever the bytes, nothing is ever looked up beyond the end of a list or between the bytes of a
character, from the reading of a module to its listing (`indices_inRange`). What is left to show for
that is about the listing of unoptimized functions, whose locals have registers.
-/

namespace WasmLift

/-! ## Registers -/

namespace Framed

/-- A step of the walk that has no outcome where something is looked up that is not there. -/
abbrev StepAt := ExceptT Cause (StateT FrameState Option)

/-- A step that looks nothing up. -/
def sure {α : Type} (x : Step α) : StepAt α :=
  fun st => some (x st)

/-- The value of a register. -/
def registerAt (slot : Nat) : StepAt (Option Code) :=
  fun st => st.registers[slot]?.map fun value => (.ok value, st)

/-- Records or forgets the value of a register, which has to be there. -/
def recordAt (slot : Nat) (value : Option Code) : StepAt Unit :=
  fun st => if slot < st.registers.length then some (record slot value st) else none

/-- A use of a local. -/
def localGetAt (s : Surroundings) (index : Nat) : StepAt Code := do
  if index < s.function.params.length then return .param index
  let slot ← sure (register s index)
  if (← sure get).plain.contains index then return .localVar index
  match ← registerAt slot with
  | some value => return value
  | none =>
    sure (makePlain index)
    return .localVar index

/-- An assignment to a local. -/
def localSetAt (s : Surroundings) (index : Nat) (value : Code) (tee : Bool) : StepAt Code := do
  if index < s.function.params.length then return .assign (.param index) value
  let slot ← sure (register s index)
  if (← sure get).plain.contains index || value.hasEffects then
    sure (makePlain index)
    recordAt slot none
    return .assign (.localVar index) value
  recordAt slot (some value)
  return if tee then value else .nop

section
variable {α β : Type} {x : Step α} {y : StepAt α} {f : α → StepAt β} {st st' : FrameState}

theorem stepAt_of_ok {a : α} (hy : y st = some (.ok a, st')) : (y >>= f) st = f a st' := by
  show (y st).bind (fun r => ExceptT.bindCont f r.1 r.2) = f a st'
  rw [hy]
  rfl

theorem sure_of_ok {a : α} (hx : x st = (.ok a, st')) : (sure x >>= f) st = f a st' :=
  stepAt_of_ok (congrArg some hx)

theorem sure_of_error {e : Cause} (hx : x st = (.error e, st')) :
    (sure x >>= f) st = some (.error e, st') := by
  show (some (x st)).bind (fun r => ExceptT.bindCont f r.1 r.2) = some (.error e, st')
  rw [hx]
  rfl

theorem registerAt_eq {slot : Nat} (hslot : slot < st.registers.length) :
    registerAt slot st = some (.ok st.registers[slot], st) := by
  simp [registerAt, hslot]

theorem recordAt_eq {slot : Nat} (hslot : slot < st.registers.length) (value : Option Code) :
    recordAt slot value st = some (record slot value st) :=
  if_pos hslot

end

/-- A local that is used has a register, unless the walk stops. -/
theorem localGetAt_eq (s : Surroundings) (index : Nat) :
    localGetAt s index = sure (localGet s index) := by
  funext st
  have hget : (get : Step FrameState) st = (.ok st, st) := rfl
  rw [sure, localGetAt, localGet]
  by_cases hindex : index < s.function.params.length
  · rw [if_pos hindex, if_pos hindex]
    rfl
  · rw [if_neg hindex, if_neg hindex]
    by_cases hslot : index - s.function.params.length < st.registers.length
    · rw [sure_of_ok (register_eq hslot), bind_of_ok (register_eq hslot), sure_of_ok hget,
        bind_of_ok hget]
      by_cases hplain : st.plain.contains index = true
      · rw [if_pos hplain, if_pos hplain]
        rfl
      · rw [if_neg hplain, if_neg hplain, stepAt_of_ok (registerAt_eq hslot),
          List.getElem?_eq_getElem hslot]
        cases st.registers[index - s.function.params.length] <;> rfl
    · rw [sure_of_error (register_error hslot), bind_of_error (register_error hslot)]

/-- A local that is assigned has a register, unless the walk stops. -/
theorem localSetAt_eq (s : Surroundings) (index : Nat) (value : Code) (tee : Bool) :
    localSetAt s index value tee = sure (localSet s index value tee) := by
  funext st
  have hget : (get : Step FrameState) st = (.ok st, st) := rfl
  rw [sure, localSetAt, localSet]
  by_cases hindex : index < s.function.params.length
  · rw [if_pos hindex, if_pos hindex]
    rfl
  · rw [if_neg hindex, if_neg hindex]
    by_cases hslot : index - s.function.params.length < st.registers.length
    · rw [sure_of_ok (register_eq hslot), bind_of_ok (register_eq hslot), sure_of_ok hget,
        bind_of_ok hget]
      by_cases hplain : (st.plain.contains index || value.hasEffects) = true
      · rw [if_pos hplain, if_pos hplain]
        have hmake : makePlain index st =
            (.ok (), { st with plain := insertSorted index st.plain }) := rfl
        have hrecord := @recordAt_eq { st with plain := insertSorted index st.plain } _ hslot none
        rw [sure_of_ok hmake, bind_of_ok hmake, stepAt_of_ok hrecord]
        rfl
      · rw [if_neg hplain, if_neg hplain, stepAt_of_ok (recordAt_eq hslot (some value))]
        rfl
    · rw [sure_of_error (register_error hslot), bind_of_error (register_error hslot)]

end Framed

/-! ## The whole way -/

open Indexed

/-- Every index that is taken while a program is listed is in range. -/
structure Program.IndicesInRange (p : Program) : Prop where
  /-- The names that the program mentions are in its name table. -/
  entries : ∀ id ∈ p.mentioned, p.names[id.slot]? = some (p.names.get id)
  /-- No other name is looked up. -/
  lookups : ∀ names, p.Agrees names →
    ∀ gadgets, Listing.program (p.withNames names) gadgets = Listing.program p gadgets
  /-- The locals of an unoptimized function have registers. -/
  registers : ∀ s index, Framed.localGetAt s index = Framed.sure (Framed.localGet s index) ∧
    ∀ value tee, Framed.localSetAt s index value tee =
      Framed.sure (Framed.localSet s index value tee)
  /-- The segments fit into the image of the memory. -/
  copies : MemoryImage.ofSegmentsAt p.segments = some (MemoryImage.ofSegments p.segments)
  /-- The texts at all addresses are within the image. -/
  texts : ∀ image, MemoryImage.ofSegments p.segments = .ok image →
    ∀ address, image.stringCutAt address = some (image.stringAt? address)

/-- Every index that is taken on the way from the bytes of a module to its listing is in range: a
step that has no outcome where an index is not in range always has one, namely that of the step as
it is. -/
structure IndicesInRange (input : List UInt8) : Prop where
  /-- A module is read in the same way if its imports are counted. -/
  counted : (·.draft.result) <$> Module.decodeCounted input = Module.decode input
  /-- The types, names and internal names of functions, the types of globals, the frames of
  branches, the names of callees and the names of bearers are there. -/
  expanded : ∀ c, (Module.decodeCounted input).start.1 = .ok c →
    Program.expandAt c = known (Program.ofModule? c.draft.result)
  /-- The bytes of a name are there, and its rest begins between two characters. -/
  escapes : ∀ raw : String, Names.decodeFrom raw.toList 0 = some (Names.decodeEscapes raw.toList)
  listed : ∀ m p, (Module.decode input).start.1 = .ok m → Program.ofModule? m = .ok p →
    p.IndicesInRange

theorem Program.indicesInRange_of_ofModule {m : Module} {p : Program} (hp : ofModule? m = .ok p) :
    p.IndicesInRange := by
  constructor
  case entries => exact fun id hid => getElem?_mentioned hp hid
  case lookups => exact fun names h gadgets => Listing.program_withNames h gadgets
  case registers =>
    exact fun s index => ⟨Framed.localGetAt_eq s index, Framed.localSetAt_eq s index⟩
  case copies => exact MemoryImage.ofSegmentsAt_eq p.segments
  case texts => exact fun image himage => MemoryImage.stringCutAt_eq himage

/-- Whatever the bytes, every index that is taken is in range. -/
theorem indices_inRange (input : List UInt8) : IndicesInRange input := by
  constructor
  case counted => exact Module.decodeCounted_result input
  case expanded =>
    intro c hc
    obtain ⟨d, rfl⟩ := Module.decodeCounted_exact hc
    exact Program.expandAt_of d
  case escapes => exact fun raw => Names.decodeFrom_start raw.toList
  case listed => exact fun m p _ hp => Program.indicesInRange_of_ofModule hp

end WasmLift
