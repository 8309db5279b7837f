import VectorMachine.Proofs.Binary64.Bits
import VectorMachine.Binary64.Reading

/-!
# Rounding to floats

A quotient of natural numbers is rounded within the binade it lies in.  The positive floats divide the
rationals among them: what lies between the midpoints around a float is rounded to it, and nothing else
is, so a decimal is read as a float exactly if it lies in the interval of that float.
-/

namespace VectorMachine.Binary64
set_option autoImplicit false

/-- The rational that a dyadic is, without its sign. -/
def Dyadic.magnitude (d : Dyadic) : ℚ := d.significand * 2 ^ d.exponent

/-- The rational that a decimal is. -/
def Decimal.magnitude (d : Decimal) : ℚ := d.digits * 10 ^ d.exponent

/-! ### Integer powers -/

theorem two_zpow_pos (e : Int) : (0 : ℚ) < 2 ^ e := zpow_pos (by norm_num) e

theorem ten_zpow_pos (e : Int) : (0 : ℚ) < 10 ^ e := zpow_pos (by norm_num) e

theorem two_pow_pos (k : Nat) : 0 < Nat.pow 2 k := Nat.pow_pos (by decide)

theorem ten_pow_pos (k : Nat) : 0 < Nat.pow 10 k := Nat.pow_pos (by decide)

theorem zpow_eq_div {b : Nat} (hb : 0 < b) (e : Int) :
    (b : ℚ) ^ e = (Nat.pow b e.toNat : Nat) / (Nat.pow b (-e).toNat : Nat) := by
  have hne : (b : ℚ) ≠ 0 := by exact_mod_cast hb.ne'
  simp only [Nat.pow_eq, Nat.cast_pow]
  rw [eq_div_iff (pow_ne_zero _ hne), ← zpow_natCast, ← zpow_natCast, ← zpow_add₀ hne]
  congr 1
  omega

theorem two_zpow_eq_div (e : Int) :
    (2 : ℚ) ^ e = (Nat.pow 2 e.toNat : Nat) / (Nat.pow 2 (-e).toNat : Nat) := by
  exact_mod_cast zpow_eq_div (b := 2) (by decide) e

theorem ten_zpow_eq_div (e : Int) :
    (10 : ℚ) ^ e = (Nat.pow 10 e.toNat : Nat) / (Nat.pow 10 (-e).toNat : Nat) := by
  exact_mod_cast zpow_eq_div (b := 10) (by decide) e

theorem two_zpow_succ (e : Int) : (2 : ℚ) ^ (e + 1) = 2 * 2 ^ e := by
  rw [zpow_add_one₀ (by norm_num), mul_comm]

/-- The logarithm is found by the powers around its argument. -/
theorem log_eq {b : Nat} (hb : 1 < b) {r : ℚ} (hr : 0 < r) {e : Int} (hle : (b : ℚ) ^ e ≤ r)
    (hlt : r < (b : ℚ) ^ (e + 1)) : Int.log b r = e := by
  have hle' := (Int.zpow_le_iff_le_log hb hr).mp hle
  have hlt' := (Int.lt_zpow_iff_log_lt hb hr).mp hlt
  omega

section

variable {num den : Nat}

theorem floorLog2_eq (hn : 0 < num) (hd : 0 < den) :
    floorLog2 num den = Int.log 2 ((num : ℚ) / den) := by
  have hn' : (0 : ℚ) < num := by exact_mod_cast hn
  have hd' : (0 : ℚ) < den := by exact_mod_cast hd
  have hr : (0 : ℚ) < num / den := div_pos hn' hd'
  have hnlow : ((2 : ℕ) : ℚ) ^ (num.log2 : Int) ≤ num := by
    exact_mod_cast Nat.log2_self_le hn.ne'
  have hnhigh : (num : ℚ) < ((2 : ℕ) : ℚ) ^ ((num.log2 : Int) + 1) := by
    exact_mod_cast Nat.lt_log2_self (n := num)
  have hdlow : ((2 : ℕ) : ℚ) ^ (den.log2 : Int) ≤ den := by
    exact_mod_cast Nat.log2_self_le hd.ne'
  have hdhigh : (den : ℚ) < ((2 : ℕ) : ℚ) ^ ((den.log2 : Int) + 1) := by
    exact_mod_cast Nat.lt_log2_self (n := den)
  have hpos : ∀ e : Int, (0 : ℚ) < ((2 : ℕ) : ℚ) ^ e := fun e => zpow_pos (by norm_num) e
  -- the quotient of the logarithms is the logarithm or one more
  have hhigh : (num : ℚ) / den < ((2 : ℕ) : ℚ) ^ ((num.log2 : Int) - den.log2 + 1) := by
    rw [sub_add_eq_add_sub, zpow_sub₀ (by norm_num)]
    exact div_lt_div₀ hnhigh hdlow (hpos _).le (hpos _)
  have hlow : ((2 : ℕ) : ℚ) ^ ((num.log2 : Int) - den.log2 - 1) ≤ (num : ℚ) / den := by
    rw [sub_sub, zpow_sub₀ (by norm_num)]
    exact div_le_div₀ hn'.le hnlow hd' hdhigh.le
  have htest : den * Nat.pow 2 ((num.log2 : Int) - den.log2).toNat ≤
        num * Nat.pow 2 (-((num.log2 : Int) - den.log2)).toNat ↔
      ((2 : ℕ) : ℚ) ^ ((num.log2 : Int) - den.log2) ≤ num / den := by
    rw [zpow_eq_div (by decide), div_le_div_iff₀ (by exact_mod_cast two_pow_pos _) hd',
      mul_comm (den : Nat)]
    exact_mod_cast Iff.rfl
  unfold floorLog2
  dsimp only
  split
  · rename_i hle
    exact (log_eq (by decide) hr (htest.mp hle) hhigh).symm
  · rename_i hle
    refine (log_eq (by decide) hr hlow ?_).symm
    rw [sub_add_cancel]
    exact not_le.mp (mt htest.mpr hle)

end

/-! ### The nearest integer -/

/-- An integer nearest to a rational, an even one if two are. -/
structure Nearest (r : ℚ) (n : Nat) : Prop where
  low : n - 1 / 2 ≤ r
  high : r ≤ n + 1 / 2
  even : r = n - 1 / 2 ∨ r = n + 1 / 2 → n % 2 = 0

theorem Nearest.unique {r : ℚ} {m n : Nat} (hm : Nearest r m) (hn : Nearest r n) : m = n := by
  have apart : ∀ {a b : Nat}, Nearest r a → Nearest r b → ¬ a < b := by
    intro a b ha hb hlt
    have hle : (a : ℚ) + 1 ≤ b := by exact_mod_cast hlt
    have hhigh := ha.high
    have hlow := hb.low
    have hb' : (b : ℚ) = a + 1 := by linarith
    have haeven := ha.even (.inr (by linarith))
    have hbeven := hb.even (.inl (by linarith))
    have : b = a + 1 := by exact_mod_cast hb'
    omega
  have hle := apart hm hn
  have hge := apart hn hm
  omega

theorem roundDiv_nearest (num : Nat) {den : Nat} (hd : 0 < den) :
    Nearest ((num : ℚ) / den) (roundDiv num den) := by
  have hd' : (0 : ℚ) < den := by exact_mod_cast hd
  have hr : num % den < den := Nat.mod_lt _ hd
  have hsplit : (num : ℚ) / den = (num / den : Nat) + ((num % den : Nat) : ℚ) / den := by
    rw [eq_comm, ← eq_sub_iff_add_eq', div_eq_iff hd'.ne', sub_mul, div_mul_cancel₀ _ hd'.ne',
      eq_sub_iff_add_eq']
    exact_mod_cast Nat.div_add_mod' num den
  have hlow : 0 ≤ ((num % den : Nat) : ℚ) / den := by positivity
  have hhigh : ((num % den : Nat) : ℚ) / den < 1 := by
    rw [div_lt_one hd']
    exact_mod_cast hr
  have hhalf : ∀ {a b : Nat}, 2 * a < b ↔ (a : ℚ) < b / 2 := by
    intro a b
    rw [lt_div_iff₀ (by norm_num), mul_comm]
    exact_mod_cast Iff.rfl
  have hbelow : 2 * (num % den) < den ↔ ((num % den : Nat) : ℚ) / den < 1 / 2 := by
    rw [hhalf, div_lt_iff₀ hd', one_div_mul_eq_div]
  have habove : den < 2 * (num % den) ↔ 1 / 2 < ((num % den : Nat) : ℚ) / den := by
    rw [lt_div_iff₀ hd', one_div_mul_eq_div, div_lt_iff₀ (by norm_num), mul_comm _ (2 : ℚ)]
    exact_mod_cast Iff.rfl
  unfold roundDiv
  dsimp only
  rw [hsplit]
  generalize ((num % den : Nat) : ℚ) / den = f at hlow hhigh hbelow habove ⊢
  generalize num / den = n
  split
  · rename_i h
    have h := hbelow.mp h
    exact ⟨by linarith, by linarith, by rintro (h' | h') <;> linarith⟩
  · rename_i hn
    split
    · rename_i h
      have h := habove.mp h
      exact ⟨by push_cast; linarith, by push_cast; linarith,
        by push_cast; rintro (h' | h') <;> linarith⟩
    · rename_i hn'
      have hf : f = 1 / 2 := le_antisymm (not_lt.mp (mt habove.mpr hn')) (not_lt.mp (mt hbelow.mpr hn))
      subst hf
      rcases Nat.mod_two_eq_zero_or_one n with h | h
      · rw [h]
        exact ⟨by push_cast; linarith, by push_cast; linarith, fun _ => by omega⟩
      · rw [h]
        exact ⟨by push_cast; linarith, by push_cast; linarith, fun _ => by omega⟩

/-! ### Rounding within a binade -/

/-- A positive rational with the exponent of its binade and its significand rounded there.  Below
the normal range all binades have the least exponent. -/
structure Rounded (r : ℚ) (q : Int) (m : Nat) : Prop where
  le_exponent : leastExponent ≤ q
  lt : r < 2 ^ 53 * 2 ^ q
  full : q = leastExponent ∨ 2 ^ 52 * 2 ^ q ≤ r
  nearest : Nearest (r / 2 ^ q) m

/-- The bits of a significand in the binade of an exponent. -/
def roundedBits (q : Int) (m : Nat) : Nat := (q - leastExponent).toNat * 2 ^ 52 + m

theorem exists_rounded {num den : Nat} (hn : 0 < num) (hd : 0 < den) :
    ∃ q m, Rounded ((num : ℚ) / den) q m ∧
      magnitudeBits num den = min (roundedBits q m) infinityBits := by
  have hd' : (0 : ℚ) < den := by exact_mod_cast hd
  have hr : (0 : ℚ) < num / den := div_pos (by exact_mod_cast hn) hd'
  have hlow := Int.zpow_log_le_self (b := 2) (by decide) hr
  have hhigh := Int.lt_zpow_succ_log_self (b := 2) (by decide) ((num : ℚ) / den)
  have hbinade : ∀ k : Nat, ∀ e : Int, (2 : ℚ) ^ k * 2 ^ (e - k) = 2 ^ e := by
    intro k e
    rw [← zpow_natCast, ← zpow_add₀ (by norm_num)]
    congr 1
    omega
  unfold magnitudeBits
  rw [if_neg hn.ne', floorLog2_eq hn hd]
  generalize Int.log 2 ((num : ℚ) / den) = e at hlow hhigh
  push_cast at hlow hhigh
  refine ⟨max (e - 52) leastExponent, _, ⟨Int.le_max_right _ _, ?_, ?_, ?_⟩, rfl⟩
  · calc (num : ℚ) / den < 2 ^ (e + 1) := hhigh
      _ ≤ 2 ^ (max (e - 52) leastExponent + 53) := zpow_le_zpow_right₀ (by norm_num) (by omega)
      _ = 2 ^ 53 * 2 ^ max (e - 52) leastExponent := by
        rw [← hbinade 53]
        congr 2
        omega
  · by_cases hle : e - 52 ≤ leastExponent
    · exact .inl (Int.max_eq_right hle)
    · right
      rw [Int.max_eq_left (by omega)]
      exact (hbinade 52 e).trans_le hlow
  · have hscaled : (num : ℚ) / den / 2 ^ max (e - 52) leastExponent =
        (num * Nat.pow 2 (-max (e - 52) leastExponent).toNat : Nat) /
          (den * Nat.pow 2 (max (e - 52) leastExponent).toNat : Nat) := by
      rw [two_zpow_eq_div]
      push_cast
      field_simp
    rw [hscaled]
    exact roundDiv_nearest _ (Nat.mul_pos hd (two_pow_pos _))

/-! ### The interval of a float -/

/-- A rational between the ends of an interval, at an end only if the interval is closed. -/
structure Interval.Contains (v : Interval) (r : ℚ) : Prop where
  low : v.low * 2 ^ v.exponent ≤ r
  high : r ≤ v.high * 2 ^ v.exponent
  closed : r = v.low * 2 ^ v.exponent ∨ r = v.high * 2 ^ v.exponent → v.closed = true

theorem Interval.Contains.between {v : Interval} {a b r : ℚ} (ha : v.Contains a) (hb : v.Contains b)
    (hle : a ≤ r) (hge : r ≤ b) : v.Contains r := by
  refine ⟨ha.low.trans hle, hge.trans hb.high, ?_⟩
  rintro (h | h)
  · exact ha.closed (.inl (le_antisymm (h ▸ hle) ha.low))
  · exact hb.closed (.inr (le_antisymm hb.high (h ▸ hge)))

def Dyadic.interval (d : Dyadic) : Interval := Interval.ofSignificand d.significand d.exponent

/-- The distance to the midpoint below, in units of the last place.  Below a power of two the
floats are twice as dense. -/
def Dyadic.gap (d : Dyadic) : ℚ :=
  if d.significand = 2 ^ 52 ∧ leastExponent < d.exponent then 1 / 4 else 1 / 2

section

variable {d : Dyadic} {r : ℚ}

theorem Dyadic.gap_pos : 0 < d.gap := by
  unfold Dyadic.gap
  split <;> norm_num

theorem Dyadic.gap_le : d.gap ≤ 1 / 2 := by
  unfold Dyadic.gap
  split <;> norm_num

theorem Dyadic.high_interval :
    d.interval.high * (2 : ℚ) ^ d.interval.exponent = (d.significand + 1 / 2) * 2 ^ d.exponent := by
  show ((4 * d.significand + 2 : Nat) : ℚ) * 2 ^ (d.exponent - 2) = _
  rw [zpow_sub₀ (by norm_num)]
  push_cast
  ring

theorem Dyadic.low_interval (hpos : 0 < d.significand) :
    d.interval.low * (2 : ℚ) ^ d.interval.exponent = (d.significand - d.gap) * 2 ^ d.exponent := by
  show ((if d.significand = Nat.pow 2 52 ∧ leastExponent < d.exponent then 4 * d.significand - 1
    else 4 * d.significand - 2 : Nat) : ℚ) * 2 ^ (d.exponent - 2) = _
  rw [zpow_sub₀ (by norm_num), Nat.pow_eq, Dyadic.gap]
  split
  · rw [Nat.cast_sub (by omega)]
    push_cast
    ring
  · rw [Nat.cast_sub (by omega)]
    push_cast
    ring

/-- The interval in units of the last place. -/
theorem Dyadic.contains_iff (hpos : 0 < d.significand) (y : ℚ) :
    d.interval.Contains (y * 2 ^ d.exponent) ↔ d.significand - d.gap ≤ y ∧ y ≤ d.significand + 1 / 2 ∧
      (y = d.significand - d.gap ∨ y = d.significand + 1 / 2 → d.significand % 2 = 0) := by
  have hpow := two_zpow_pos d.exponent
  have hclosed : d.interval.closed = true ↔ d.significand % 2 = 0 := beq_iff_eq
  constructor
  · rintro ⟨hlow, hhigh, heven⟩
    rw [low_interval hpos, high_interval, mul_left_inj' hpow.ne', mul_left_inj' hpow.ne', hclosed]
      at heven
    rw [low_interval hpos] at hlow
    rw [high_interval] at hhigh
    exact ⟨le_of_mul_le_mul_right hlow hpow, le_of_mul_le_mul_right hhigh hpow, heven⟩
  · rintro ⟨hlow, hhigh, heven⟩
    refine ⟨?_, ?_, ?_⟩
    · rw [low_interval hpos]
      exact mul_le_mul_of_nonneg_right hlow hpow.le
    · rw [high_interval]
      exact mul_le_mul_of_nonneg_right hhigh hpow.le
    · rw [low_interval hpos, high_interval, mul_left_inj' hpow.ne', mul_left_inj' hpow.ne', hclosed]
      exact heven

theorem Dyadic.contains_magnitude (hpos : 0 < d.significand) : d.interval.Contains d.magnitude := by
  have hgap := d.gap_pos
  refine (contains_iff hpos _).mpr ⟨by linarith, by linarith, ?_⟩
  rintro (h | h) <;> linarith

section

variable {q : Int} {m : Nat}

theorem Rounded.le (h : Rounded r q m) : m ≤ 2 ^ 53 := by
  have hlt : r / 2 ^ q < 2 ^ 53 := (div_lt_iff₀ (two_zpow_pos q)).mpr h.lt
  have hlow := h.nearest.low
  have : (m : ℚ) < 2 ^ 53 + 1 := by linarith
  exact Nat.lt_succ_iff.mp (by exact_mod_cast this)

theorem Rounded.full_significand (h : Rounded r q m) : q = leastExponent ∨ 2 ^ 52 ≤ m := by
  refine h.full.imp_right fun hfull => ?_
  have hle : 2 ^ 52 ≤ r / 2 ^ q := (le_div_iff₀ (two_zpow_pos q)).mpr hfull
  have hhigh := h.nearest.high
  have : (2 : ℚ) ^ 52 < m + 1 := by linarith
  exact Nat.lt_succ_iff.mp (by exact_mod_cast this)

/-- What is rounded to the bits of a float lies in its interval. -/
theorem contains_of_rounded (hd : d.Canonical) (hpos : 0 < d.significand) (h : Rounded r q m)
    (hbits : roundedBits q m = d.bits) : d.interval.Contains r := by
  have hpow := two_zpow_pos q
  have hle := h.le
  have hfull := h.full_significand
  have hq := h.le_exponent
  have hlt : r / 2 ^ q < 2 ^ 53 := (div_lt_iff₀ hpow).mpr h.lt
  have hge : q = leastExponent ∨ 2 ^ 52 ≤ r / 2 ^ q := h.full.imp_right (le_div_iff₀ hpow).mpr
  obtain ⟨hlow, hhigh, heven⟩ := h.nearest
  have hr : r = r / 2 ^ q * 2 ^ q := (div_mul_cancel₀ r hpow.ne').symm
  have hcases : m = d.significand ∧ q = d.exponent ∨
      m = 2 ^ 53 ∧ d.significand = 2 ^ 52 ∧ d.exponent = q + 1 := by
    obtain ⟨hds, hde, -, hdfull⟩ := hd
    simp only [roundedBits, Dyadic.bits, leastExponent_eq] at *
    omega
  rcases hcases with ⟨rfl, rfl⟩ | ⟨rfl, hs, he⟩
  · rw [hr, Dyadic.contains_iff hpos]
    unfold Dyadic.gap
    split
    · -- nothing of the binade lies below its power of two
      rename_i hgap
      have hge := hge.resolve_left hgap.2.ne'
      rw [hgap.1] at hlow hhigh heven ⊢
      push_cast at *
      exact ⟨by linarith, hhigh, fun _ => by norm_num⟩
    · exact ⟨hlow, hhigh, heven⟩
  · -- rounding up reached the next power of two
    have hr' : r = r / 2 ^ q / 2 * 2 ^ d.exponent := by
      rw [he, two_zpow_succ, div_mul_eq_mul_div, mul_left_comm, mul_div_assoc, ← hr]
      ring
    rw [hr', Dyadic.contains_iff hpos, Dyadic.gap, if_pos ⟨hs, by omega⟩, hs]
    push_cast at *
    exact ⟨by linarith, by linarith, fun _ => by norm_num⟩

/-- Only a power of two has rationals of a smaller binade in its interval, and these are in the binade
before it. -/
theorem below_power_of_contains (hd : d.Canonical) (hpos : 0 < d.significand) (h : Rounded r q m)
    (hr : d.interval.Contains r) (hlt : q < d.exponent) :
    d.significand = 2 ^ 52 ∧ d.exponent = q + 1 := by
  have hpow' := two_zpow_pos d.exponent
  obtain ⟨y, rfl⟩ : ∃ y, r = y * 2 ^ d.exponent := ⟨_, (div_mul_cancel₀ r hpow'.ne').symm⟩
  obtain ⟨hlow, -, -⟩ := (Dyadic.contains_iff hpos y).mp hr
  have hgap := d.gap_le
  have hleast := h.le_exponent
  have hfull := hd.full.resolve_right (by omega)
  have hdouble : 2 * (2 : ℚ) ^ q ≤ 2 ^ d.exponent := by
    rw [← two_zpow_succ]
    exact zpow_le_zpow_right₀ (by norm_num) hlt
  have hy : y < 2 ^ 52 := by
    have := h.lt
    exact lt_of_mul_lt_mul_right (show y * 2 ^ d.exponent < 2 ^ 52 * 2 ^ d.exponent by linarith)
      hpow'.le
  have hs : d.significand = 2 ^ 52 := by
    have : (d.significand : ℚ) < 2 ^ 52 + 1 := by linarith
    have : d.significand < 2 ^ 52 + 1 := by exact_mod_cast this
    omega
  refine ⟨hs, ?_⟩
  by_contra hne
  rw [Dyadic.gap, if_pos ⟨hs, by omega⟩, hs] at hlow
  push_cast at hlow
  have hquadruple : 4 * (2 : ℚ) ^ q ≤ 2 ^ d.exponent := by
    have : (2 : ℚ) ^ (q + 1 + 1) ≤ 2 ^ d.exponent := zpow_le_zpow_right₀ (by norm_num) (by omega)
    rw [two_zpow_succ, two_zpow_succ] at this
    linarith
  have := h.lt
  have : y < 2 ^ 51 :=
    lt_of_mul_lt_mul_right (show y * 2 ^ d.exponent < 2 ^ 51 * 2 ^ d.exponent by linarith) hpow'.le
  linarith

/-- No rational of a greater binade is in the interval of a float. -/
theorem exponent_le_of_contains (hd : d.Canonical) (hpos : 0 < d.significand) (h : Rounded r q m)
    (hr : d.interval.Contains r) : q ≤ d.exponent := by
  by_contra hgt
  have hpow' := two_zpow_pos d.exponent
  obtain ⟨y, rfl⟩ : ∃ y, r = y * 2 ^ d.exponent := ⟨_, (div_mul_cancel₀ r hpow'.ne').symm⟩
  obtain ⟨-, hhigh, -⟩ := (Dyadic.contains_iff hpos y).mp hr
  have hds : (d.significand : ℚ) + 1 ≤ 2 ^ 53 := by exact_mod_cast hd.significand_lt
  have hfull := h.full.resolve_left (by have := hd.le_exponent; omega)
  have hle : 2 * (2 : ℚ) ^ d.exponent ≤ 2 ^ q := by
    rw [← two_zpow_succ]
    exact zpow_le_zpow_right₀ (by norm_num) (by omega)
  have : 2 ^ 53 * 2 ^ d.exponent ≤ y * 2 ^ d.exponent := by linarith
  have := le_of_mul_le_mul_right this hpow'
  linarith

/-- What lies in the interval of a float is rounded to its bits. -/
theorem bits_of_contains (hd : d.Canonical) (hpos : 0 < d.significand) (h : Rounded r q m)
    (hr : d.interval.Contains r) : roundedBits q m = d.bits := by
  have hpow := two_zpow_pos q
  have hpow' := two_zpow_pos d.exponent
  rcases (exponent_le_of_contains hd hpos h hr).lt_or_eq with hlt | rfl
  · -- just below a power of two, in the binade before it
    obtain ⟨hs, he⟩ := below_power_of_contains hd hpos h hr hlt
    have hleast := h.le_exponent
    obtain ⟨y, rfl⟩ : ∃ y, r = y * 2 ^ d.exponent := ⟨_, (div_mul_cancel₀ r hpow'.ne').symm⟩
    obtain ⟨hlow, -, -⟩ := (Dyadic.contains_iff hpos y).mp hr
    rw [Dyadic.gap, if_pos ⟨hs, by omega⟩, hs] at hlow
    push_cast at hlow
    have hy : y < 2 ^ 52 := by
      have := h.lt
      rw [he, two_zpow_succ] at this
      exact lt_of_mul_lt_mul_right (show y * 2 ^ q < 2 ^ 52 * 2 ^ q by linarith) hpow.le
    have hm : Nearest (y * 2 ^ d.exponent / 2 ^ q) (2 ^ 53) := by
      rw [he, two_zpow_succ, ← mul_assoc, mul_div_cancel_right₀ _ hpow.ne']
      push_cast
      exact ⟨by linarith, by linarith, fun _ => by norm_num⟩
    rw [h.nearest.unique hm, roundedBits, Dyadic.bits, hs, he]
    omega
  · obtain ⟨y, rfl⟩ : ∃ y, r = y * 2 ^ d.exponent := ⟨_, (div_mul_cancel₀ r hpow'.ne').symm⟩
    obtain ⟨hlow, hhigh, heven⟩ := (Dyadic.contains_iff hpos y).mp hr
    have hgap := d.gap_le
    have hm : Nearest y d.significand := by
      refine ⟨by linarith, hhigh, ?_⟩
      rintro (h' | h')
      · exact heven (.inl (by linarith))
      · exact heven (.inr h')
    have hn := h.nearest
    rw [mul_div_cancel_right₀ _ hpow.ne'] at hn
    rw [roundedBits, hn.unique hm]
    rfl

end

theorem Dyadic.Canonical.half_le_low (hd : d.Canonical) (hpos : 0 < d.significand)
    (hr : d.interval.Contains r) : 1 / 2 * 2 ^ leastExponent ≤ r := by
  have hs : (1 : ℚ) ≤ d.significand := by exact_mod_cast hpos
  have hgap := d.gap_le
  have hpow : (2 : ℚ) ^ leastExponent ≤ 2 ^ d.exponent :=
    zpow_le_zpow_right₀ (by norm_num) hd.le_exponent
  calc (1 / 2 : ℚ) * 2 ^ leastExponent ≤ (d.significand - d.gap) * 2 ^ d.exponent :=
        mul_le_mul (by linarith) hpow (two_zpow_pos _).le (by linarith)
    _ ≤ r := by
      rw [← low_interval hpos]
      exact hr.low

theorem Dyadic.Canonical.high_le (hd : d.Canonical) (hr : d.interval.Contains r) :
    r ≤ 2 ^ 53 * 2 ^ (971 : Int) := by
  have hs : (d.significand : ℚ) + 1 ≤ 2 ^ 53 := by exact_mod_cast hd.significand_lt
  have hpow : (2 : ℚ) ^ d.exponent ≤ 2 ^ (971 : Int) :=
    zpow_le_zpow_right₀ (by norm_num) hd.exponent_le
  calc r ≤ (d.significand + 1 / 2) * 2 ^ d.exponent := by
        rw [← high_interval]
        exact hr.high
    _ ≤ 2 ^ 53 * 2 ^ (971 : Int) := mul_le_mul (by linarith) hpow (two_zpow_pos _).le (by norm_num)

theorem Dyadic.Canonical.pos_of_contains (hd : d.Canonical) (hpos : 0 < d.significand)
    (hr : d.interval.Contains r) : 0 < r := by
  have hpow := two_zpow_pos leastExponent
  have hle := hd.half_le_low hpos hr
  linarith

/-- Another float is no nearer than the neighbours. -/
theorem Dyadic.Canonical.apart {c : Dyadic} (hd : d.Canonical)
    (hc : c.Canonical) (hne : c.magnitude ≠ d.magnitude) :
    c.magnitude ≤ (d.significand - 2 * d.gap) * 2 ^ d.exponent ∨
      (d.significand + 1) * 2 ^ d.exponent ≤ c.magnitude := by
  have hpow := two_zpow_pos d.exponent
  have hgap := d.gap_le
  have hds : (d.significand : ℚ) + 1 ≤ 2 ^ 53 := by exact_mod_cast hd.significand_lt
  have hcs : (c.significand : ℚ) + 1 ≤ 2 ^ 53 := by exact_mod_cast hc.significand_lt
  rcases lt_trichotomy c.exponent d.exponent with hlt | heq | hgt
  · -- the binades before end half a unit below a power of two
    left
    have hleast := hc.le_exponent
    have hfull : (2 : ℚ) ^ 52 ≤ d.significand := by exact_mod_cast hd.full.resolve_right (by omega)
    have hdouble : 2 * (2 : ℚ) ^ c.exponent ≤ 2 ^ d.exponent := by
      rw [← two_zpow_succ]
      exact zpow_le_zpow_right₀ (by norm_num) hlt
    have hle : (2 : ℚ) ^ 52 - 1 / 2 ≤ d.significand - 2 * d.gap := by
      unfold Dyadic.gap
      split
      · linarith
      · rename_i hnot
        have hne : 2 ^ 52 ≠ d.significand := fun h => hnot ⟨h.symm, by omega⟩
        have hnat : 2 ^ 52 ≤ d.significand := by exact_mod_cast hfull
        have : (2 : ℚ) ^ 52 + 1 ≤ d.significand := by exact_mod_cast lt_of_le_of_ne hnat hne
        linarith
    calc c.magnitude ≤ (2 ^ 53 - 1) * 2 ^ c.exponent :=
          mul_le_mul_of_nonneg_right (by linarith) (two_zpow_pos _).le
      _ = (2 ^ 52 - 1 / 2) * (2 * 2 ^ c.exponent) := by ring
      _ ≤ (2 ^ 52 - 1 / 2) * 2 ^ d.exponent := mul_le_mul_of_nonneg_left hdouble (by norm_num)
      _ ≤ (d.significand - 2 * d.gap) * 2 ^ d.exponent := mul_le_mul_of_nonneg_right hle hpow.le
  · have hsignificand : c.significand ≠ d.significand := fun h => hne (by
      rw [Dyadic.magnitude, h, heq, Dyadic.magnitude])
    rw [Dyadic.magnitude, heq]
    rcases lt_or_gt_of_ne hsignificand with hlt | hgt
    · have : (c.significand : ℚ) + 1 ≤ d.significand := by exact_mod_cast hlt
      exact .inl (mul_le_mul_of_nonneg_right (by linarith) hpow.le)
    · have : (d.significand : ℚ) + 1 ≤ c.significand := by exact_mod_cast hgt
      exact .inr (mul_le_mul_of_nonneg_right this hpow.le)
  · right
    have hleast := hd.le_exponent
    have hfull : (2 : ℚ) ^ 52 ≤ c.significand := by exact_mod_cast hc.full.resolve_right (by omega)
    have hdouble : 2 * (2 : ℚ) ^ d.exponent ≤ 2 ^ c.exponent := by
      rw [← two_zpow_succ]
      exact zpow_le_zpow_right₀ (by norm_num) hgt
    calc (d.significand + 1) * (2 : ℚ) ^ d.exponent ≤ 2 ^ 53 * 2 ^ d.exponent :=
          mul_le_mul_of_nonneg_right hds hpow.le
      _ = 2 ^ 52 * (2 * 2 ^ d.exponent) := by ring
      _ ≤ 2 ^ 52 * 2 ^ c.exponent := mul_le_mul_of_nonneg_left hdouble (by norm_num)
      _ ≤ c.magnitude := mul_le_mul_of_nonneg_right hfull (two_zpow_pos _).le

/-- No float is nearer to what lies in an interval than the float of the interval, and if another one
is as near, the significand is even. -/
theorem Dyadic.Canonical.nearest {c : Dyadic} (hd : d.Canonical) (hpos : 0 < d.significand)
    (hc : c.Canonical) (hr : d.interval.Contains r) :
    |r - d.magnitude| ≤ |r - c.magnitude| ∧
      (|r - c.magnitude| = |r - d.magnitude| →
        c.magnitude = d.magnitude ∨ d.significand % 2 = 0) := by
  by_cases hne : c.magnitude = d.magnitude
  · rw [hne]
    exact ⟨le_refl _, fun _ => .inl rfl⟩
  · have hgap := mul_pos d.gap_pos (two_zpow_pos d.exponent)
    have hle := mul_le_mul_of_nonneg_right d.gap_le (two_zpow_pos d.exponent).le
    have hclosed : d.interval.closed = true ↔ d.significand % 2 = 0 := beq_iff_eq
    have hlow := hr.low
    have hhigh := hr.high
    have hends := hr.closed
    rw [hclosed] at hends
    rw [low_interval hpos] at hlow hends
    rw [high_interval] at hhigh hends
    have hmid : d.magnitude = d.significand * 2 ^ d.exponent := rfl
    rcases hd.apart hc hne with hc | hc
    · rw [abs_of_nonneg (show 0 ≤ r - c.magnitude by linarith)]
      rcases le_total d.magnitude r with hge | hlt
      · rw [abs_of_nonneg (show 0 ≤ r - d.magnitude by linarith)]
        exact ⟨by linarith, fun h => .inl (by linarith)⟩
      · rw [abs_of_nonpos (show r - d.magnitude ≤ 0 by linarith)]
        exact ⟨by linarith, fun h => .inr (hends (.inl (by linarith)))⟩
    · rw [abs_of_nonpos (show r - c.magnitude ≤ 0 by linarith)]
      rcases le_total d.magnitude r with hge | hlt
      · rw [abs_of_nonneg (show 0 ≤ r - d.magnitude by linarith)]
        exact ⟨by linarith, fun h => .inr (hends (.inr (by linarith)))⟩
      · rw [abs_of_nonpos (show r - d.magnitude ≤ 0 by linarith)]
        exact ⟨by linarith, fun h => .inl (by linarith)⟩

/-! ### Reading decimals -/

/-- A quotient is rounded to a float exactly if it lies in the interval of the float. -/
theorem magnitudeBits_eq_iff (hd : d.Canonical) (hpos : 0 < d.significand) (num : Nat) {den : Nat}
    (hden : 0 < den) : magnitudeBits num den = d.bits ↔ d.interval.Contains ((num : ℚ) / den) := by
  have hlt := hd.bits_lt
  rcases Nat.eq_zero_or_pos num with rfl | hnum
  · constructor
    · intro h
      rw [magnitudeBits_zero, Dyadic.bits] at h
      omega
    · intro h
      have := hd.pos_of_contains hpos h
      simp at this
  · obtain ⟨q, m, hrounded, hbits⟩ := exists_rounded hnum hden
    rw [hbits]
    constructor
    · intro h
      exact contains_of_rounded hd hpos hrounded (by omega)
    · intro h
      have := bits_of_contains hd hpos hrounded h
      omega

theorem lt_pow_digitCount (n : Nat) : n < 10 ^ digitCount n := (digitCount_le_iff n _).mp (Nat.le_refl _)

theorem pow_le_of_digitCount {n : Nat} (h : 0 < n) : 10 ^ (digitCount n - 1) ≤ n := by
  by_contra hlt
  have := (digitCount_le_iff n (digitCount n - 1)).mpr (by simpa using hlt)
  rw [digitCount_pos h] at this
  omega

theorem Decimal.magnitude_lt (c : Decimal) :
    c.magnitude < 10 ^ ((digitCount c.digits : Int) + c.exponent) := by
  rw [zpow_add₀ (by norm_num), zpow_natCast]
  exact mul_lt_mul_of_pos_right (by exact_mod_cast lt_pow_digitCount c.digits) (ten_zpow_pos _)

theorem Decimal.le_magnitude {c : Decimal} (h : 0 < c.digits) :
    10 ^ ((digitCount c.digits : Int) + c.exponent - 1) ≤ c.magnitude := by
  have hcount : (digitCount c.digits : Int) + c.exponent - 1 =
      (digitCount c.digits - 1 : Nat) + c.exponent := by
    rw [digitCount_pos h]
    omega
  rw [hcount, zpow_add₀ (by norm_num), zpow_natCast]
  exact mul_le_mul_of_nonneg_right (by exact_mod_cast pow_le_of_digitCount h) (ten_zpow_pos _).le

theorem ten_zpow_lt_least : (10 : ℚ) ^ (-331 : Int) < 1 / 2 * 2 ^ (-1074 : Int) := by
  have hlt : (2 : ℚ) * 2 ^ 1074 < 10 ^ 331 := by
    have : 2 * 2 ^ 1074 < 10 ^ 331 := by decide +kernel
    exact_mod_cast this
  have hpow : ∀ (a : ℚ) (k : Nat), a ^ (-(k : Int)) = 1 / a ^ k := fun a k => by
    rw [zpow_neg, zpow_natCast, one_div]
  have hten : (10 : ℚ) ^ (-331 : Int) = 1 / 10 ^ 331 := hpow 10 331
  have htwo : (2 : ℚ) ^ (-1074 : Int) = 1 / 2 ^ 1074 := hpow 2 1074
  rw [hten, htwo, div_mul_div_comm, one_mul]
  exact one_div_lt_one_div_of_lt (by positivity) hlt

theorem greatest_lt_ten_zpow : (2 : ℚ) ^ 53 * 2 ^ (971 : Int) < 10 ^ (310 : Int) := by
  have : 2 ^ 53 * 2 ^ 971 < 10 ^ 310 := by decide +kernel
  exact_mod_cast this

/-- A decimal is read as a float exactly if it has the sign of the float and lies in its interval. -/
theorem ofDecimal_eq_iff {x : Float} (hx : value x = .finite d) (hpos : 0 < d.significand)
    (negative : Bool) (c : Decimal) : ofDecimal negative c.digits c.exponent = x ↔
      negative = d.negative ∧ d.interval.Contains c.magnitude := by
  obtain ⟨hd, hbits⟩ := finite_of_value hx
  have hlt := hd.bits_lt
  have hmagnitude : ∀ {b : Nat}, b ≤ infinityBits →
      (ofMagnitude negative b = x ↔ negative = d.negative ∧ b = d.bits) := by
    intro b hb
    rw [hbits]
    constructor
    · exact ofMagnitude_inj hb hlt.le
    · rintro ⟨rfl, rfl⟩
      rfl
  unfold ofDecimal
  dsimp only
  split
  · -- too small to be anything but zero
    rename_i hsmall
    rw [hmagnitude (Nat.zero_le _)]
    refine and_congr_right fun _ => iff_of_false ?_ fun hr => ?_
    · rw [Dyadic.bits]
      omega
    · have hle := hd.half_le_low hpos hr
      rcases hsmall with hzero | hsmall
      · have := hd.pos_of_contains hpos hr
        rw [Decimal.magnitude, hzero] at this
        simp at this
      · have hhigh : c.magnitude ≤ 10 ^ (-331 : Int) :=
          c.magnitude_lt.le.trans (zpow_le_zpow_right₀ (by norm_num) (by omega))
        rw [leastExponent_eq] at hle
        have := ten_zpow_lt_least
        linarith
  · rename_i hsmall
    rw [not_or] at hsmall
    split
    · -- too large to be anything but infinite
      rename_i hlarge
      rw [hmagnitude (Nat.le_refl _)]
      refine and_congr_right fun _ => iff_of_false hlt.ne' fun hr => ?_
      have hle := hd.high_le hr
      have hlow : 10 ^ (310 : Int) ≤ c.magnitude :=
        (zpow_le_zpow_right₀ (by norm_num) (by omega)).trans
          (Decimal.le_magnitude (Nat.pos_of_ne_zero hsmall.1))
      exact absurd (hlow.trans hle) (not_le.mpr greatest_lt_ten_zpow)
    · rw [ofRatio, hmagnitude (magnitudeBits_le _ _), magnitudeBits_eq_iff hd hpos _ (ten_pow_pos _)]
      have hmag : c.magnitude = (c.digits * Nat.pow 10 c.exponent.toNat : Nat) /
          (Nat.pow 10 (-c.exponent).toNat : Nat) := by
        rw [Decimal.magnitude, ten_zpow_eq_div, Nat.cast_mul, mul_div_assoc]
      rw [hmag]

end

end VectorMachine.Binary64
