import WasmLift.Code.Direct
import WasmLift.Proofs.Propagation.Points

/-!
# What a step over a function does

The cases of the three steps of an unoptimized function that look at the state: a use of a local
(`Framed.Gets`), an assignment to one (`Framed.Sets`) and an access to memory (`Framed.Accesses`),
each with the state it leaves. A step that succeeds is one of these cases. In the plain dialect
there is no state, and a local is a parameter or a variable.
-/

namespace WasmLift

/-- A local in the plain dialect is a parameter or one of the function's own. -/
theorem Direct.variableOf_cases {f : Function} {index : Nat} {st st' : Unit} {c : Code}
    (h : variableOf f index st = (.ok c, st')) :
    c = .param index ∨ c = .localVar index ∧ f.params.length ≤ index ∧
      index < f.params.length + f.locals.length := by
  unfold variableOf lookup? at h
  by_cases hparam : index < f.params.length
  · rw [if_pos hparam] at h
    cases h
    exact .inl rfl
  · rw [if_neg hparam] at h
    by_cases hlocal : index < f.params.length + f.locals.length
    · rw [if_pos hlocal] at h
      cases h
      exact .inr ⟨rfl, Nat.not_lt.1 hparam, hlocal⟩
    · rw [if_neg hlocal] at h
      cases h

namespace Framed

/-- The local is one of the function's own, with a register. -/
structure Owned (s : Surroundings) (st : FrameState) (index : Nat) : Prop where
  lower : s.function.params.length ≤ index
  upper : index < s.function.params.length + st.registers.length

/-- What a use of a local gives. -/
inductive Gets (s : Surroundings) (index : Nat) (st : FrameState) : Code → FrameState → Prop where
  | param (param : index < s.function.params.length) : Gets s index st (.param index) st
  | plain (plain : index ∈ st.plain) : Gets s index st (.localVar index) st
  | recorded {c : Code} (register : some c ∈ st.registers) : Gets s index st c st
  /-- Nothing is known of the local, which is a variable from now on. -/
  | unknown (owned : Owned s st index) :
      Gets s index st (.localVar index) { st with plain := insertSorted index st.plain }

/-- What an assignment to a local gives. -/
inductive Sets (s : Surroundings) (index : Nat) (value : Code) (tee : Bool) (st : FrameState) :
    Code → FrameState → Prop where
  | param (param : index < s.function.params.length) :
      Sets s index value tee st (.assign (.param index) value) st
  | assigned (owned : Owned s st index) :
      Sets s index value tee st (.assign (.localVar index) value)
        { st with
          plain := insertSorted index st.plain
          registers := st.registers.set (index - s.function.params.length) none }
  | recorded (pure : value.hasEffects = false) :
      Sets s index value tee st (if tee then value else .nop)
        { st with registers := st.registers.set (index - s.function.params.length) (some value) }

/-- What an access to memory gives. -/
inductive Accesses (address : Code) (arg : MemArg) (ty : Ty) (st : FrameState) :
    Code → FrameState → Prop where
  | slot {offset : Nat} {place : SlotPlace} {layout : FrameLayout}
      (inFrame : frameOffset? address arg.offset = some offset)
      (placed : st.layout.place offset arg.bytes ty = .inside place layout) :
      Accesses address arg ty st (.slot place) { st with layout := layout }
  | deref {events : List Event} :
      Accesses address arg ty st (.deref address arg ty) { st with events := events }

section
variable {s : Surroundings} {st st' : FrameState} {index : Nat} {c : Code}

theorem owned_of_slot (hindex : s.function.params.length ≤ index)
    (hslot : index - s.function.params.length < st.registers.length) : Owned s st index :=
  ⟨hindex, by omega⟩

theorem localGet_cases (h : localGet s index st = (.ok c, st')) : Gets s index st c st' := by
  by_cases hindex : index < s.function.params.length
  · rw [localGet_param hindex] at h
    cases h
    exact .param hindex
  · rw [Nat.not_lt] at hindex
    have hslot := localGet_slot hindex h
    rw [localGet_eq hindex hslot, known?] at h
    by_cases hplain : index ∈ st.plain
    · rw [if_pos hplain] at h
      cases h
      exact .plain hplain
    · rw [if_neg hplain] at h
      cases hentry : st.registers[index - s.function.params.length]?.join with
      | none =>
        rw [hentry] at h
        cases h
        exact .unknown (owned_of_slot hindex hslot)
      | some value =>
        rw [hentry] at h
        cases h
        exact .recorded (List.mem_of_getElem? (Option.join_eq_some_iff.1 hentry))

theorem localSet_cases {value : Code} {tee : Bool}
    (h : localSet s index value tee st = (.ok c, st')) : Sets s index value tee st c st' := by
  by_cases hindex : index < s.function.params.length
  · rw [localSet, if_pos hindex] at h
    cases h
    exact .param hindex
  · rw [Nat.not_lt] at hindex
    have hslot := localSet_slot hindex h
    rw [localSet_eq hindex hslot] at h
    split at h
    · cases h
      exact .assigned (owned_of_slot hindex hslot)
    · next hneither =>
      cases h
      exact .recorded (by simpa using (not_or.1 hneither).2)

/-- An access can always be written. -/
theorem access_written (address : Code) (arg : MemArg) (ty : Ty) (st : FrameState) :
    ∃ c st', access address arg ty st = (.ok c, st') ∧ Accesses address arg ty st c st' := by
  unfold access
  cases hoffset : frameOffset? address arg.offset with
  | none => exact ⟨_, _, rfl, .deref⟩
  | some offset =>
    have hget : (get : Step FrameState) st = (.ok st, st) := rfl
    dsimp only
    rw [bind_of_ok hget]
    cases hplaced : st.layout.place offset arg.bytes ty with
    | inside place layout => exact ⟨_, _, rfl, .slot hoffset hplaced⟩
    | outside event => exact ⟨_, _, rfl, .deref⟩

theorem access_cases {address : Code} {arg : MemArg} {ty : Ty}
    (h : access address arg ty st = (.ok c, st')) : Accesses address arg ty st c st' := by
  obtain ⟨_, _, heq, haccess⟩ := access_written address arg ty st
  cases heq.symm.trans h
  exact haccess

/-- An access is written as a dereference, or as a stack slot if its address is in the frame. -/
theorem access_ok {address : Code} {arg : MemArg} {ty : Ty}
    (h : access address arg ty st = (.ok c, st')) :
    c = .deref address arg ty ∨ address.hasEffects = false ∧ ∃ place, c = .slot place := by
  cases access_cases h with
  | deref => exact .inl rfl
  | @slot _ place _ inFrame _ =>
    refine .inr ⟨?_, place, rfl⟩
    cases address with
    | stackBase | stackAddress => rfl
    | _ => cases inFrame

/-- An access to the memory leaves alone what is known of locals. -/
theorem access_keepsEntry {i : Nat} {known : Option Code} (address : Code) (arg : MemArg)
    (ty : Ty) : Keeps (fun st => known? s st i = some known) (access address arg ty) := by
  intro st hst
  obtain ⟨c, st', heq, haccess⟩ := access_written address arg ty st
  rw [heq]
  cases haccess <;> exact hst

theorem store_cases {address value : Code} {arg : MemArg} {ty : Ty}
    (h : store address value ty arg st = (.ok c, st')) :
    ∃ target, Accesses address arg ty st target st' ∧ c = .assign target value := by
  obtain ⟨target, st₁, htarget, hpure⟩ := bind_ok h
  cases hpure
  exact ⟨target, access_cases htarget, rfl⟩

end

end Framed

end WasmLift
