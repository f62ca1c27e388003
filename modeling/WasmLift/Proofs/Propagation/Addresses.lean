import Mathlib.Data.Option.Basic
import WasmLift.Proofs.Frame.Slots
import WasmLift.Proofs.Propagation.Points

/-!
# Addresses in the frame

An operation is written as the frame base or as an address in the frame only in a few cases
(`Framed.binary_cases`). Where integer addition is the addition of words, an address plus a constant
is the address it is written as (`Framed.sum_address`).
-/

namespace WasmLift

/-! ## Sums of words -/

/-- The sum of two integers of the same width. -/
def Value.sum? : Value → Value → Option Value
  | .i32 x, .i32 y => some (.i32 (x + y))
  | .i64 x, .i64 y => some (.i64 (x + y))
  | _, _ => none

/-- Integer addition is the addition of words. -/
def Host.AddsWords (h : Host) : Prop :=
  ∀ width l r v, h.binary (.int width .add) l r = .ok v → l.sum? r = some v

theorem Value.plus_zero (v : Value) : v.plus 0 = v := by
  cases v <;> simp [plus]

theorem Value.plus_plus (v : Value) (a b : Int) : (v.plus a).plus b = v.plus (a + b) := by
  cases v <;> simp [plus, BitVec.ofInt_add, BitVec.add_assoc]

/-- A word stays the same if what is added to it wraps around at 64 bits. -/
theorem Value.plus_wrap64 (v : Value) (n : Int) : v.plus (wrap64 n) = v.plus n := by
  have hword {w : Nat} (hw : 2 ^ w ∣ 0x10000000000000000) :
      BitVec.ofInt w (wrap64 n) = BitVec.ofInt w n := by
    refine BitVec.eq_of_toInt_eq ?_
    rw [BitVec.toInt_ofInt, BitVec.toInt_ofInt]
    exact Int.bmod_bmod_of_dvd hw
  cases v with
  | i32 x => exact congrArg (Value.i32 <| x + ·) (hword (by decide))
  | i64 x => exact congrArg (Value.i64 <| x + ·) (hword (by decide))
  | f32 | f64 => rfl

/-- The integer that a value is has 64 bits. -/
theorem Value.wrap64_asInteger {v : Value} {k : Int} (h : v.asInteger? = some k) :
    wrap64 k = k := by
  cases v with
  | i32 x =>
    cases h
    exact wrap64_of_fits (by have := x.le_toInt; omega) (by have := x.toInt_lt; omega)
  | i64 x =>
    cases h
    exact wrap64_of_fits x.le_toInt x.toInt_lt
  | f32 | f64 => cases h

theorem Value.sum?_plus {l r v : Value} {k : Int} (hr : r.asInteger? = some k)
    (hv : l.sum? r = some v) : v = l.plus k := by
  cases l <;> cases r <;> simp_all [sum?, asInteger?, plus]
  · subst hr
    simp [← hv]
  · subst hr
    simp [← hv]

theorem Value.sum?_comm (l r : Value) : l.sum? r = r.sum? l := by
  cases l <;> cases r <;> simp [sum?, BitVec.add_comm]

/-! ## What a sum is written as -/

namespace Framed

/-- The distance from the frame base of a node that stands for an address in the frame. -/
def distance? : Code → Option Int
  | .stackBase => some 0
  | .stackAddress offset => some offset
  | _ => none

theorem integer?_some {c : Code} {k : Int} (hc : integer? c = some k) :
    ∃ v text, c = .const v text ∧ v.asInteger? = some k := by
  unfold integer? at hc
  split at hc
  · exact ⟨_, _, rfl, hc⟩
  · cases hc

/-- One of the operands is a constant. -/
theorem integer?_or {l r : Code} {k : Int} (hk : (integer? l).or (integer? r) = some k) :
    ∃ v text, v.asInteger? = some k ∧ (l = .const v text ∨ r = .const v text) := by
  rw [Option.or_eq_some_iff] at hk
  rcases hk with hk | ⟨-, hk⟩
  · obtain ⟨v, text, hl, hv⟩ := integer?_some hk
    exact ⟨v, text, hv, .inl hl⟩
  · obtain ⟨v, text, hr, hv⟩ := integer?_some hk
    exact ⟨v, text, hv, .inr hr⟩

theorem displaced?_some {l r c : Code} {k : Int} (hk : (integer? l).or (integer? r) = some k)
    (hc : displaced? l r k = some c) :
    ∃ a v text, v.asInteger? = some k ∧ c = .stackAddress (wrap64 (a + k)) ∧
      ((distance? l = some a ∧ r = .const v text) ∨
        (l = .const v text ∧ distance? r = some a)) := by
  obtain ⟨v, text, hv, hconst⟩ := integer?_or hk
  have hwrap := Value.wrap64_asInteger hv
  unfold displaced? at hc
  split at hc
  all_goals cases hc
  · refine ⟨0, v, text, hv, by rw [Int.zero_add, hwrap], .inl ⟨rfl, ?_⟩⟩
    exact hconst.resolve_left (by rintro ⟨⟩)
  · refine ⟨0, v, text, hv, by rw [Int.zero_add, hwrap], .inr ⟨?_, rfl⟩⟩
    exact hconst.resolve_right (by rintro ⟨⟩)
  · refine ⟨_, v, text, hv, rfl, .inl ⟨rfl, ?_⟩⟩
    exact hconst.resolve_left (by rintro ⟨⟩)
  · refine ⟨_, v, text, hv, rfl, .inr ⟨?_, rfl⟩⟩
    exact hconst.resolve_right (by rintro ⟨⟩)

theorem isStackPointer_iff {c : Code} : isStackPointer c = true ↔ c = .stackPointer := by
  cases c <;> simp [isStackPointer]

/-- What an operation on two values is written as: the operation itself; the frame base, if it is
the stack pointer plus or minus a constant; or an address in the frame, if it is another such
address plus a constant. That sum has 64 bits. -/
theorem binary_cases (op : BinOp) (l r : Code) :
    binary op l r = .binary op l r ∨
    (binary op l r = .stackBase ∧ l.hasEffects = false ∧ r.hasEffects = false) ∨
    ∃ width a k v text, op = .int width .add ∧ v.asInteger? = some k ∧
      binary op l r = .stackAddress (wrap64 (a + k)) ∧
      ((distance? l = some a ∧ r = .const v text) ∨
        (l = .const v text ∧ distance? r = some a)) := by
  unfold binary
  cases hframe : frameAddress? op l r with
  | none => exact .inl rfl
  | some c =>
    refine .inr ?_
    simp only [frameAddress?, Option.bind_eq_bind, Option.bind_eq_some_iff] at hframe
    obtain ⟨k, hk, hframe⟩ := hframe
    split at hframe
    · next hsp =>
      cases hframe
      refine .inl ⟨rfl, ?_⟩
      simp only [Bool.and_eq_true, Bool.or_eq_true, isStackPointer_iff] at hsp
      obtain ⟨v, text, -, hconst⟩ := integer?_or hk
      rcases hsp.2 with rfl | rfl
      · rw [hconst.resolve_left (by rintro ⟨⟩)]
        exact ⟨rfl, rfl⟩
      · rw [hconst.resolve_right (by rintro ⟨⟩)]
        exact ⟨rfl, rfl⟩
    · obtain ⟨_, hguard, hframe⟩ := Option.bind_eq_some_iff.1 hframe
      have hadd : op.isAdd = true := of_guard hguard
      obtain ⟨a, v, text, hv, rfl, hcases⟩ := displaced?_some hk hframe
      obtain ⟨width, rfl⟩ : ∃ width, op = .int width .add := by
        unfold BinOp.isAdd at hadd
        split at hadd
        · exact ⟨_, rfl⟩
        · cases hadd
      exact .inr ⟨width, a, k, v, text, rfl, hv, rfl, hcases⟩

theorem hasEffects_of_distance? {c : Code} {k : Int} (hc : distance? c = some k) :
    c.hasEffects = false := by
  cases c with
  | stackBase | stackAddress => rfl
  | _ => cases hc

theorem binary_operands {op : BinOp} {l r : Code} (hpure : (binary op l r).hasEffects = false) :
    l.hasEffects = false ∧ r.hasEffects = false := by
  rcases binary_cases op l r with hc | ⟨-, hl, hr⟩ | ⟨_, a, _, v, _, -, -, -, hcases⟩
  · rw [hc] at hpure
    simpa [Code.hasEffects] using hpure
  · exact ⟨hl, hr⟩
  · rcases hcases with ⟨hl, rfl⟩ | ⟨rfl, hr⟩
    · exact ⟨hasEffects_of_distance? hl, rfl⟩
    · exact ⟨rfl, hasEffects_of_distance? hr⟩

theorem frameOffset?_some {d : Code} {offset sum : Nat} (hsum : frameOffset? d offset = some sum) :
    ∃ k, distance? d = some k ∧ k + offset = sum := by
  have hk : ∀ k : Int, (do
      guard (offset < 0x8000000000000000)
      let sum := k + offset
      guard (0 ≤ sum && sum < 0x8000000000000000)
      return sum.toNat : Option Nat) = some sum → k + offset = sum := by
    intro k hk
    obtain ⟨-, -, hk⟩ := Option.bind_eq_some_iff.1 hk
    obtain ⟨u, hguard, hk⟩ := Option.bind_eq_some_iff.1 hk
    cases hk
    have hrange : 0 ≤ k + offset ∧ k + offset < 0x8000000000000000 := by simpa using of_guard hguard
    omega
  cases d with
  | stackBase => exact ⟨0, rfl, hk 0 hsum⟩
  | stackAddress k => exact ⟨k, rfl, hk k hsum⟩
  | _ => cases hsum

/-- An address in the frame is worth the frame base plus the distance. -/
theorem value_address {h : Host} {s : Surroundings} {page : Page h} {w : World h} {c : Code}
    {k : Int} {v : Value} (hc : distance? c = some k) (hv : value s page w c = some v) :
    v = page.base.plus k := by
  unfold distance? at hc
  split at hc
  all_goals cases hc
  · cases hv
    exact (Value.plus_zero _).symm
  · cases hv
    rfl

/-- A sum that is written as an address in the frame is worth that address. -/
theorem sum_address {h : Host} (hadds : h.AddsWords) {s : Surroundings} {page : Page h}
    {w : World h} {width : Width} {l r : Code} {x y z v : Value} {a k : Int} {text : Option String}
    (hv : v.asInteger? = some k)
    (hlr : (distance? l = some a ∧ r = .const v text) ∨ (l = .const v text ∧ distance? r = some a))
    (hl : value s page w l = some x) (hr : value s page w r = some y)
    (hsum : h.binary (.int width .add) x y = .ok z) : z = page.base.plus (wrap64 (a + k)) := by
  have hsum := hadds width x y z hsum
  rw [Value.plus_wrap64, ← Value.plus_plus]
  rcases hlr with ⟨hd, rfl⟩ | ⟨rfl, hd⟩
  · cases hr
    rw [← value_address hd hl]
    exact Value.sum?_plus hv hsum
  · cases hl
    rw [Value.sum?_comm] at hsum
    rw [← value_address hd hr]
    exact Value.sum?_plus hv hsum

end Framed

end WasmLift
