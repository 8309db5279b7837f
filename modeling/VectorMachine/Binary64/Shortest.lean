import VectorMachine.Binary64.Basic

/-!
# Shortest decimals

The decimal of fewest digits that reads back as a given float and, among those, the one nearest
to it.  A decimal reads back exactly if it lies between the midpoints to the neighbouring floats,
the midpoints included when the significand is even.  The search goes over decimal grids from
coarse to fine; on each grid only the two neighbours of the value can be the answer.
-/

namespace VectorMachine.Binary64
set_option autoImplicit false

/-- The number `digits * 10 ^ exponent`. -/
structure Decimal where
  digits : Nat
  exponent : Int
  deriving DecidableEq, Repr, Inhabited

/-- The number of decimal digits, none for zero. -/
def digitCount (n : Nat) : Nat :=
  if n = 0 then 0 else digitCount (n / 10) + 1
  termination_by n
  decreasing_by omega

/-- The greatest `e` with `10 ^ e ≤ num / den`, for positive arguments. -/
def floorLog10 (num den : Nat) : Int :=
  if den ≤ num then (digitCount (num / den) : Int) - 1
  else -(digitCount ((den + num - 1) / num - 1) : Int)

/-- A positive float with the two midpoints around it, in units of `2 ^ (exponent - 2)`. -/
structure Interval where
  low : Nat
  mid : Nat
  high : Nat
  closed : Bool
  exponent : Int

/-- The interval of a positive significand; the gap below a power of two is half as wide. -/
def Interval.ofSignificand (m : Nat) (q : Int) : Interval where
  low := if m = Nat.pow 2 52 ∧ leastExponent < q then 4 * m - 1 else 4 * m - 2
  mid := 4 * m
  high := 4 * m + 2
  closed := m % 2 == 0
  exponent := q - 2

/-- The factors that bring units of the interval and of the grid `10 ^ k` to one scale. -/
def Interval.numScale (v : Interval) (k : Int) : Nat :=
  Nat.pow 2 v.exponent.toNat * Nat.pow 10 (-k).toNat

def Interval.denScale (v : Interval) (k : Int) : Nat :=
  Nat.pow 2 (-v.exponent).toNat * Nat.pow 10 k.toNat

/-- Whether `c * 10 ^ k` reads back as the float. -/
def Interval.holds (v : Interval) (k : Int) (c : Nat) : Bool :=
  let x := c * v.denScale k
  let low := v.low * v.numScale k
  let high := v.high * v.numScale k
  if v.closed then low ≤ x && x ≤ high else low < x && x < high

/-- The neighbour of the value on the grid `10 ^ k` that reads back, the nearer one first. -/
def Interval.onGrid? (v : Interval) (k : Int) : Option Nat :=
  let num := v.mid * v.numScale k
  let den := v.denScale k
  let down := num / den
  let near := roundDiv num den
  let far := if near = down then down + 1 else down
  if v.holds k near then some near else if v.holds k far then some far else none

/-- Drops trailing zeros. -/
def Decimal.normalize (d : Decimal) : Decimal :=
  if h : d.digits ≠ 0 ∧ d.digits % 10 = 0 then
    Decimal.normalize ⟨d.digits / 10, d.exponent + 1⟩
  else d
  termination_by d.digits
  decreasing_by omega

/-- Seventeen digits are always enough. -/
def greatestDigitCount : Nat := 17

/-- The shortest decimal of the positive float `m * 2 ^ q`. -/
def shortest (m : Nat) (q : Int) : Decimal :=
  let v := Interval.ofSignificand m q
  let e := floorLog10 (m * Nat.pow 2 q.toNat) (Nat.pow 2 (-q).toNat)
  let grids := (List.range greatestDigitCount).map fun (i : Nat) => e - (i : Int)
  match grids.findSome? fun k => (v.onGrid? k).map fun c => (⟨c, k⟩ : Decimal) with
  | some d => d.normalize
  | none => ⟨m * Nat.pow 2 q.toNat, 0⟩

theorem digitCount_zero : digitCount 0 = 0 := by
  unfold digitCount; simp

theorem digitCount_pos {n : Nat} (h : 0 < n) : digitCount n = digitCount (n / 10) + 1 := by
  rw [digitCount, if_neg (by omega)]

theorem digitCount_le_iff (n k : Nat) : digitCount n ≤ k ↔ n < Nat.pow 10 k := by
  induction k generalizing n with
  | zero =>
    by_cases h : n = 0
    · simp [h, digitCount_zero]
    · rw [digitCount_pos (by omega)]
      simp; omega
  | succ k ih =>
    by_cases h : n = 0
    · subst h
      exact iff_of_true (by simp [digitCount_zero]) (Nat.pow_pos (by decide))
    · rw [digitCount_pos (by omega), Nat.succ_le_succ_iff, ih]
      exact Nat.div_lt_iff_lt_mul (by decide)

end VectorMachine.Binary64
