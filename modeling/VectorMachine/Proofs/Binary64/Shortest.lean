import VectorMachine.Proofs.Binary64.Rounding

/-!
# Shortest decimals identify floats

The search for the shortest decimal of a float goes from coarse grids to fine ones.  On every grid it
finds a point of the interval of the float if there is one; the seventeenth grid has one for every float,
and a grid that has none has no decimal of as few digits.
-/

namespace VectorMachine.Binary64
set_option autoImplicit false

/-! ### Decimal logarithms -/

theorem floorLog10_eq {num den : Nat} (hn : 0 < num) (hd : 0 < den) :
    floorLog10 num den = Int.log 10 ((num : ℚ) / den) := by
  have hn' : (0 : ℚ) < num := by exact_mod_cast hn
  have hd' : (0 : ℚ) < den := by exact_mod_cast hd
  have hr : (0 : ℚ) < num / den := div_pos hn' hd'
  unfold floorLog10
  symm
  split
  · rename_i hle
    have hpos : 0 < num / den := Nat.div_pos hle hd
    have hcount := digitCount_pos hpos
    apply log_eq (by decide) hr
    · have hlow : 10 ^ (digitCount (num / den) - 1) * den ≤ num :=
        (Nat.mul_le_mul_right den (pow_le_of_digitCount hpos)).trans (Nat.div_mul_le_self num den)
      rw [le_div_iff₀ hd', show (digitCount (num / den) : Int) - 1 =
        ((digitCount (num / den) - 1 : Nat) : Int) by omega, zpow_natCast]
      exact_mod_cast hlow
    · have hhigh : num < 10 ^ digitCount (num / den) * den :=
        (Nat.div_lt_iff_lt_mul hd).mp (lt_pow_digitCount _)
      rw [div_lt_iff₀ hd', sub_add_cancel, zpow_natCast]
      exact_mod_cast hhigh
  · -- here the quotient the other way round is counted, from above
    rename_i hlt
    generalize hceil : (den + num - 1) / num = t
    have hge : den ≤ t * num := by
      have := Nat.lt_mul_div_succ (den + num - 1) hn
      rw [hceil, Nat.mul_add, Nat.mul_comm num t] at this
      omega
    have hle : t * num ≤ den + num - 1 := hceil ▸ Nat.div_mul_le_self _ _
    have hpos : 0 < t - 1 := by
      rcases t with - | - | t
      · omega
      · omega
      · omega
    have hcount := digitCount_pos hpos
    apply log_eq (by decide) hr
    · have hlow : den ≤ 10 ^ digitCount (t - 1) * num := by
        refine hge.trans (Nat.mul_le_mul_right num ?_)
        have := lt_pow_digitCount (t - 1)
        omega
      rw [zpow_neg, zpow_natCast, ← one_div, div_le_div_iff₀ (by positivity) hd', one_mul, mul_comm]
      exact_mod_cast hlow
    · have hhigh : 10 ^ (digitCount (t - 1) - 1) * num < den := by
        have hmul := Nat.mul_le_mul_right num (pow_le_of_digitCount hpos)
        have : (t - 1) * num = t * num - num := Nat.sub_one_mul t num
        omega
      rw [show -(digitCount (t - 1) : Int) + 1 = -((digitCount (t - 1) - 1 : Nat) : Int) by omega,
        zpow_neg, zpow_natCast, ← one_div, div_lt_div_iff₀ hd' (by positivity), one_mul, mul_comm]
      exact_mod_cast hhigh

/-! ### Points of a grid -/

namespace Interval

variable (v : Interval) (k : Int)

theorem denScale_pos : 0 < v.denScale k :=
  Nat.mul_pos (two_pow_pos _) (ten_pow_pos _)

/-- The scales are in the ratio of a unit of the interval to a step of the grid. -/
theorem scale_eq : (v.numScale k : ℚ) / v.denScale k = 2 ^ v.exponent / 10 ^ k := by
  rw [two_zpow_eq_div, ten_zpow_eq_div, numScale, denScale, div_div_div_eq]
  push_cast
  rfl

variable (a c : Nat)

theorem scaled_le_iff :
    a * v.numScale k ≤ c * v.denScale k ↔ (a : ℚ) * 2 ^ v.exponent ≤ c * 10 ^ k := by
  have hden : (0 : ℚ) < v.denScale k := by exact_mod_cast v.denScale_pos k
  rw [← div_le_iff₀ (ten_zpow_pos k), mul_div_assoc, ← v.scale_eq k, ← mul_div_assoc, div_le_iff₀ hden]
  exact_mod_cast Iff.rfl

theorem le_scaled_iff :
    c * v.denScale k ≤ a * v.numScale k ↔ (c : ℚ) * 10 ^ k ≤ a * 2 ^ v.exponent := by
  have hden : (0 : ℚ) < v.denScale k := by exact_mod_cast v.denScale_pos k
  rw [← le_div_iff₀ (ten_zpow_pos k), mul_div_assoc, ← v.scale_eq k, ← mul_div_assoc, le_div_iff₀ hden]
  exact_mod_cast Iff.rfl

theorem holds_iff : v.holds k c = true ↔ v.Contains (c * 10 ^ k) := by
  have hlow := v.scaled_le_iff k v.low c
  have hhigh := v.le_scaled_iff k v.high c
  have hlow' := v.le_scaled_iff k v.low c
  have hhigh' := v.scaled_le_iff k v.high c
  have hcontains : v.Contains (c * 10 ^ k) ↔
      v.low * v.numScale k ≤ c * v.denScale k ∧ c * v.denScale k ≤ v.high * v.numScale k ∧
        (c * v.denScale k ≤ v.low * v.numScale k ∨ v.high * v.numScale k ≤ c * v.denScale k →
          v.closed = true) := by
    rw [hlow, hhigh, hlow', hhigh']
    constructor
    · rintro ⟨h₁, h₂, h₃⟩
      exact ⟨h₁, h₂, fun h => h₃ (h.imp (fun h => le_antisymm h h₁) (fun h => le_antisymm h₂ h))⟩
    · rintro ⟨h₁, h₂, h₃⟩
      exact ⟨h₁, h₂, fun h => h₃ (h.imp (fun h => h.le) (fun h => h.ge))⟩
  rw [hcontains, holds]
  cases v.closed
  · simp
    omega
  · simp

/-- The greatest point of the grid that is not above the middle. -/
def below : Nat := v.mid * v.numScale k / v.denScale k

theorem below_le : (v.below k : ℚ) * 10 ^ k ≤ v.mid * 2 ^ v.exponent :=
  (v.le_scaled_iff k v.mid (v.below k)).mp (Nat.div_mul_le_self _ _)

theorem lt_below : (v.mid : ℚ) * 2 ^ v.exponent < (v.below k + 1 : Nat) * 10 ^ k := by
  refine not_le.mp (mt (v.le_scaled_iff k v.mid (v.below k + 1)).mpr (Nat.not_le.mpr ?_))
  rw [Nat.mul_comm (v.below k + 1)]
  exact Nat.lt_mul_div_succ _ (v.denScale_pos k)

end Interval

theorem roundDiv_cases (num den : Nat) : roundDiv num den = num / den ∨ roundDiv num den = num / den + 1 := by
  unfold roundDiv
  dsimp only
  split
  · exact .inl rfl
  · split
    · exact .inr rfl
    · omega

section

variable {v : Interval} {k : Int} {c : Nat}

/-- Only the two neighbours of the middle are tried. -/
theorem onGrid?_cases : v.onGrid? k = none ∧ v.holds k (v.below k) = false ∧
      v.holds k (v.below k + 1) = false ∨
    ∃ c, v.onGrid? k = some c ∧ v.holds k c = true ∧ (c = v.below k ∨ c = v.below k + 1) := by
  have hnear := roundDiv_cases (v.mid * v.numScale k) (v.denScale k)
  rw [Interval.below]
  unfold Interval.onGrid?
  dsimp only
  rcases hnear with hnear | hnear
  · rw [hnear, if_pos rfl]
    split
    · exact .inr ⟨_, rfl, ‹_›, .inl rfl⟩
    · split
      · exact .inr ⟨_, rfl, ‹_›, .inr rfl⟩
      · exact .inl ⟨rfl, Bool.eq_false_of_not_eq_true ‹_›, Bool.eq_false_of_not_eq_true ‹_›⟩
  · rw [hnear, if_neg (Nat.succ_ne_self _)]
    split
    · exact .inr ⟨_, rfl, ‹_›, .inr rfl⟩
    · split
      · exact .inr ⟨_, rfl, ‹_›, .inl rfl⟩
      · exact .inl ⟨rfl, Bool.eq_false_of_not_eq_true ‹_›, Bool.eq_false_of_not_eq_true ‹_›⟩

theorem contains_of_onGrid? (h : v.onGrid? k = some c) :
    v.Contains (c * 10 ^ k) ∧ c ≤ v.below k + 1 := by
  rcases onGrid?_cases (v := v) (k := k) with ⟨hnone, -, -⟩ | ⟨c', hsome, hholds, hc'⟩
  · rw [h] at hnone
    cases hnone
  · rw [h] at hsome
    cases hsome
    exact ⟨(v.holds_iff k c).mp hholds, by omega⟩

theorem onGrid?_of_neighbour
    (h : v.Contains (v.below k * 10 ^ k) ∨ v.Contains ((v.below k + 1 : Nat) * 10 ^ k)) :
    (v.onGrid? k).isSome := by
  rw [← v.holds_iff, ← v.holds_iff] at h
  rcases onGrid?_cases (v := v) (k := k) with ⟨-, hbelow, habove⟩ | ⟨c, hsome, -⟩
  · rw [hbelow, habove] at h
    simp at h
  · rw [hsome]
    rfl

/-- A grid with a point in the interval has one next to the middle. -/
theorem onGrid?_of_contains (hmid : v.Contains (v.mid * 2 ^ v.exponent)) (h : v.Contains (c * 10 ^ k)) :
    (v.onGrid? k).isSome := by
  have hpow := ten_zpow_pos k
  apply onGrid?_of_neighbour
  rcases Nat.lt_or_ge (v.below k) c with hlt | hge
  · right
    refine hmid.between h (v.lt_below k).le ?_
    exact mul_le_mul_of_nonneg_right (by exact_mod_cast hlt) hpow.le
  · left
    refine h.between hmid ?_ (v.below_le k)
    exact mul_le_mul_of_nonneg_right (by exact_mod_cast hge) hpow.le

end

/-! ### Seventeen digits -/

section

variable {d : Dyadic}

theorem Dyadic.mid_interval : (d.interval.mid : ℚ) * 2 ^ d.interval.exponent = d.magnitude := by
  show ((4 * d.significand : Nat) : ℚ) * 2 ^ (d.exponent - 2) = d.significand * 2 ^ d.exponent
  rw [zpow_sub₀ (by norm_num)]
  push_cast
  ring

theorem Dyadic.magnitude_pos (hpos : 0 < d.significand) : 0 < d.magnitude :=
  mul_pos (by exact_mod_cast hpos) (two_zpow_pos _)

/-- The exponent of the leading digit of a float. -/
def Dyadic.leading (d : Dyadic) : Int := Int.log 10 d.magnitude

theorem Dyadic.leading_le (hpos : 0 < d.significand) : 10 ^ d.leading ≤ d.magnitude := by
  exact_mod_cast Int.zpow_log_le_self (b := 10) (by decide) (magnitude_pos hpos)

theorem Dyadic.lt_leading : d.magnitude < 10 ^ (d.leading + 1) := by
  exact_mod_cast Int.lt_zpow_succ_log_self (b := 10) (by decide) d.magnitude

/-- On the seventeenth grid the points are closer to each other than the ends of the interval. -/
theorem onGrid?_seventeen (hd : d.Canonical) (hpos : 0 < d.significand) :
    (d.interval.onGrid? (d.leading - 16)).isSome := by
  have hpow := two_zpow_pos d.exponent
  have hbelow := d.interval.below_le (d.leading - 16)
  have habove := d.interval.lt_below (d.leading - 16)
  rw [Dyadic.mid_interval, Dyadic.magnitude] at hbelow habove
  -- a step of the grid, in units of the last place of the float
  obtain ⟨step, hstep⟩ : ∃ step : ℚ, (10 : ℚ) ^ (d.leading - 16) = step * 2 ^ d.exponent :=
    ⟨_, (div_mul_cancel₀ _ hpow.ne').symm⟩
  have hsmall : step * 10 ^ 16 ≤ d.significand := by
    refine le_of_mul_le_mul_right ?_ hpow
    calc step * 10 ^ 16 * 2 ^ d.exponent = 10 ^ (d.leading - 16) * 10 ^ 16 := by rw [hstep]; ring
      _ = 10 ^ d.leading := by
        rw [← zpow_natCast, ← zpow_add₀ (by norm_num)]
        congr 1
        omega
      _ ≤ d.magnitude := Dyadic.leading_le hpos
  have hnarrow : step < d.gap + 1 / 2 := by
    have hs : (d.significand : ℚ) < 2 ^ 53 := by exact_mod_cast hd.significand_lt
    unfold Dyadic.gap
    split
    · rename_i h
      rw [h.1] at hsmall
      push_cast at hsmall
      linarith
    · linarith
  apply onGrid?_of_neighbour
  rw [hstep, ← mul_assoc] at hbelow habove
  rw [hstep, ← mul_assoc, ← mul_assoc, Dyadic.contains_iff hpos, Dyadic.contains_iff hpos]
  have hbelow := le_of_mul_le_mul_right hbelow hpow
  have habove := lt_of_mul_lt_mul_right habove hpow.le
  push_cast at habove ⊢
  generalize (d.interval.below (d.leading - 16) : ℚ) = b at *
  rcases lt_or_ge (d.significand - d.gap) (b * step) with hlt | hge
  · refine .inl ⟨hlt.le, by linarith, ?_⟩
    rintro (h | h) <;> linarith
  · have hgap := d.gap_pos
    refine .inr ⟨by linarith, by linarith, ?_⟩
    rintro (h | h) <;> linarith

/-- The point below a float has as many digits as the grid goes below its leading digit. -/
theorem below_lt (i : Nat) :
    d.interval.below (d.leading - i) < 10 ^ (i + 1) := by
  have hlt := (d.interval.below_le (d.leading - i)).trans_lt (d.mid_interval.trans_lt d.lt_leading)
  rw [show d.leading + 1 = ((i + 1 : Nat) : Int) + (d.leading - i) by omega,
    zpow_add₀ (by norm_num), zpow_natCast] at hlt
  exact_mod_cast lt_of_mul_lt_mul_right hlt (ten_zpow_pos _).le

end

/-! ### Trailing zeros -/

namespace Decimal

variable (c : Decimal)

theorem magnitude_normalize : c.normalize.magnitude = c.magnitude := by
  fun_induction normalize c with
  | case1 c h ih =>
    have hten : (c.digits : ℚ) = (c.digits / 10 : Nat) * 10 := by
      exact_mod_cast (Nat.div_mul_cancel (Nat.dvd_of_mod_eq_zero h.2)).symm
    rw [ih, magnitude, magnitude, zpow_add_one₀ (by norm_num), hten]
    ring
  | case2 c => rfl

variable {c}

theorem normalize_digits_pos (h : 0 < c.digits) : 0 < c.normalize.digits := by
  fun_induction normalize c with
  | case1 c hc ih => exact ih (by dsimp only; omega)
  | case2 c => exact h

/-- The power of ten itself loses its zeros. -/
theorem normalize_digits_lt {n : Nat} (hn : 0 < n) (h : c.digits ≤ 10 ^ n) :
    c.normalize.digits < 10 ^ n := by
  have hpow : 10 ^ n = 10 ^ (n - 1) * 10 := by
    rw [← Nat.pow_succ]
    congr 1
    omega
  have hpos : 0 < 10 ^ (n - 1) := Nat.pow_pos (by decide)
  fun_induction normalize c with
  | case1 c hc ih => exact ih (by dsimp only; omega)
  | case2 c hc => omega

end Decimal

/-! ### The search -/

theorem findSome?_range {α : Type} {f : Nat → Option α} {n : Nat} {a : α}
    (h : (List.range n).findSome? f = some a) : ∃ i < n, f i = some a ∧ ∀ j < i, f j = none := by
  induction n with
  | zero => cases h
  | succ n ih =>
    rw [List.range_succ, List.findSome?_append] at h
    cases hfirst : (List.range n).findSome? f with
    | some b =>
      rw [hfirst] at h
      obtain ⟨i, hi, hfound⟩ := ih (hfirst.trans h)
      exact ⟨i, by omega, hfound⟩
    | none =>
      rw [hfirst] at h
      refine ⟨n, by omega, by simpa using h, fun j hj => ?_⟩
      exact List.findSome?_eq_none_iff.mp hfirst j (List.mem_range.mpr hj)

section

variable {d : Dyadic}

/-- The decimal of a float is a point of the first grid that has one. -/
theorem shortest_eq (hd : d.Canonical) (hpos : 0 < d.significand) :
    ∃ (i : Nat) (c : Nat), i ≤ 16 ∧ d.interval.onGrid? (d.leading - i) = some c ∧
      (∀ j : Nat, j < i → d.interval.onGrid? (d.leading - j) = none) ∧
      shortest d.significand d.exponent = Decimal.normalize ⟨c, d.leading - i⟩ := by
  have hleading : floorLog10 (d.significand * Nat.pow 2 d.exponent.toNat)
      (Nat.pow 2 (-d.exponent).toNat) = d.leading := by
    rw [floorLog10_eq (Nat.mul_pos hpos (two_pow_pos _)) (two_pow_pos _),
      Dyadic.leading, Dyadic.magnitude, two_zpow_eq_div, Nat.cast_mul, mul_div_assoc]
  have hfound : ((List.range 17).findSome? fun i : Nat =>
      (d.interval.onGrid? (d.leading - i)).map fun c => (⟨c, d.leading - i⟩ : Decimal)).isSome := by
    rw [List.findSome?_isSome_iff]
    refine ⟨16, by simp, ?_⟩
    rw [Option.isSome_map]
    exact onGrid?_seventeen hd hpos
  obtain ⟨c, hc⟩ := Option.isSome_iff_exists.mp hfound
  obtain ⟨i, hi, hsome, hnone⟩ := findSome?_range hc
  obtain ⟨n, hn, rfl⟩ := Option.map_eq_some_iff.mp hsome
  refine ⟨i, n, by omega, hn, fun j hj => Option.map_eq_none_iff.mp (hnone j hj), ?_⟩
  unfold shortest
  dsimp only
  rw [hleading, List.findSome?_map]
  simp only [Function.comp_def, greatestDigitCount]
  rw [show Interval.ofSignificand d.significand d.exponent = d.interval from rfl, hc]

theorem shortest_contains (hd : d.Canonical) (hpos : 0 < d.significand) :
    0 < (shortest d.significand d.exponent).digits ∧
      d.interval.Contains (shortest d.significand d.exponent).magnitude := by
  obtain ⟨i, c, -, hc, -, heq⟩ := shortest_eq hd hpos
  have hcontains := (contains_of_onGrid? hc).1
  have hc : 0 < c := by
    rcases Nat.eq_zero_or_pos c with rfl | h
    · have := hd.pos_of_contains hpos hcontains
      simp at this
    · exact h
  rw [heq, Decimal.magnitude_normalize]
  exact ⟨Decimal.normalize_digits_pos hc, hcontains⟩

/-- No decimal of fewer digits lies in the interval of a float. -/
theorem shortest_minimal (hd : d.Canonical) (hpos : 0 < d.significand) {c : Decimal}
    (h : d.interval.Contains c.magnitude) :
    digitCount (shortest d.significand d.exponent).digits ≤ digitCount c.digits := by
  obtain ⟨i, n, -, hn, hnone, heq⟩ := shortest_eq hd hpos
  have hmid : d.interval.Contains (d.interval.mid * 2 ^ d.interval.exponent) := by
    rw [Dyadic.mid_interval]
    exact Dyadic.contains_magnitude hpos
  have hcpos : 0 < c.digits := by
    have hpos := hd.pos_of_contains hpos h
    by_contra hzero
    rw [Decimal.magnitude, Nat.eq_zero_of_not_pos hzero] at hpos
    simp at hpos
  obtain ⟨s, hs⟩ : ∃ s, digitCount c.digits = s + 1 := ⟨_, digitCount_pos hcpos⟩
  have hle : i ≤ s := by
    by_contra hlt
    -- the search would have ended on the grid of as many digits
    have hgrid := hnone s (by omega)
    suffices ∃ m : Nat, d.interval.Contains (m * 10 ^ (d.leading - s)) by
      obtain ⟨m, hm⟩ := this
      have := onGrid?_of_contains hmid hm
      rw [hgrid] at this
      cases this
    have hpow : (10 : ℚ) ^ s * 10 ^ (d.leading - s) = 10 ^ d.leading := by
      rw [← zpow_natCast, ← zpow_add₀ (by norm_num)]
      congr 1
      omega
    rcases lt_or_ge c.exponent (d.leading - s) with hlow | hhigh
    · -- the decimal is below the leading power of ten, which is not above the float
      refine ⟨10 ^ s, ?_⟩
      push_cast
      rw [hpow]
      refine h.between (Dyadic.contains_magnitude hpos) ?_ (Dyadic.leading_le hpos)
      refine c.magnitude_lt.le.trans (zpow_le_zpow_right₀ (by norm_num) ?_)
      omega
    · refine ⟨c.digits * 10 ^ (c.exponent - (d.leading - s)).toNat, ?_⟩
      push_cast
      rw [mul_assoc, ← zpow_natCast, ← zpow_add₀ (by norm_num),
        show ((c.exponent - (d.leading - s)).toNat : Int) + (d.leading - s) = c.exponent by omega]
      exact h
  rw [heq, hs, digitCount_le_iff]
  refine Decimal.normalize_digits_lt (Nat.succ_pos _) ?_
  have hn := (contains_of_onGrid? hn).2
  have hlt := below_lt (d := d) i
  exact hn.trans (hlt.trans_le (Nat.pow_le_pow_right (by decide) (by omega)))

end

end VectorMachine.Binary64
