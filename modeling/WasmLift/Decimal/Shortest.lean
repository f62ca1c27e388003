import WasmLift.Decimal.Binary

/-!
# The shortest decimal that reads back

Among the decimals that round to a given binary value, the shortest one is the point of the coarsest
decimal grid `10 ^ k` that meets the value's rounding interval; of two such points the nearer is
taken, and the upper one of an exact tie. The interval reaches half way to the neighbours of the
value and holds its ends exactly when the mantissa is even. All comparisons are exact: both sides
are brought to one unit by powers of two and ten.
-/

namespace WasmLift.Decimal

/-- A decimal numeral `digits · 10 ^ exponent`. -/
structure Numeral where
  digits : Nat
  exponent : Int
deriving DecidableEq, Repr

/-- The rounding interval of `mantissa · 2 ^ exponent`, in quarters of the last place. -/
structure Interval where
  mantissa : Nat
  exponent : Int
  onBoundary : Bool
deriving DecidableEq, Repr

namespace Interval

/-- The value itself, in quarters of its last place. -/
def value (i : Interval) : Nat :=
  4 * i.mantissa

/-- The lower end: half a place below the value, or a quarter on a boundary. -/
def lower (i : Interval) : Nat :=
  if i.onBoundary then 4 * i.mantissa - 1 else 4 * i.mantissa - 2

/-- The upper end: half a place above the value. -/
def upper (i : Interval) : Nat :=
  4 * i.mantissa + 2

/-- How many units a quarter of the last place is, when `10 ^ k` is `gridUnits k` of them. -/
def quarterUnits (i : Interval) (k : Int) : Nat :=
  Nat.pow 10 (-k).toNat <<< (i.exponent - 2).toNat

/-- How many units the grid step `10 ^ k` is. -/
def gridUnits (i : Interval) (k : Int) : Nat :=
  Nat.pow 10 k.toNat <<< (2 - i.exponent).toNat

/-- The grid point `c · 10 ^ k` rounds to the value. -/
def contains (i : Interval) (k : Int) (c : Nat) : Bool :=
  let point := c * i.gridUnits k
  let low := i.lower * i.quarterUnits k
  let high := i.upper * i.quarterUnits k
  if i.mantissa % 2 = 0 then low ≤ point && point ≤ high else low < point && point < high

/-- The point of the grid `10 ^ k` that rounds to the value and is nearest to it, if there is one:
one of the two grid points next to the value. -/
def gridPoint? (i : Interval) (k : Int) : Option Nat :=
  let step := i.gridUnits k
  let value := i.value * i.quarterUnits k
  let below := value / step
  match i.contains k below, i.contains k (below + 1) with
  | true, true => some (if 2 * (value - below * step) < step then below else below + 1)
  | true, false => some below
  | false, true => some (below + 1)
  | false, false => none

/-- The first grid that meets the interval, from `10 ^ k` downwards. -/
def scan (i : Interval) : (grids : Nat) → (k : Int) → Option Numeral
  | 0, _ => none
  | grids + 1, k =>
    match i.gridPoint? k with
    | some c => some ⟨c, k⟩
    | none => i.scan grids (k - 1)

/-- The shortest decimal in the interval. The coarsest grid tried exceeds every double-precision
value, and the finest one is finer than every such value's last place. -/
def shortest? (i : Interval) : Option Numeral :=
  i.scan 660 310

end Interval

end WasmLift.Decimal
