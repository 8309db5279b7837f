import VectorMachine.Proofs.Binary64.ElementText

/-!
# Element texts from the usual forms

The text of a float element is the fixed form of its decimal, or the exponential form taken apart at the
mark, with the point and the exponent written in another way.  Which form it is depends on the float and
two limits alone, since the decimal of a float lies on the same side of a limit as the float.
-/

namespace VectorMachine.Binary64
set_option autoImplicit false

/-! ### Limits -/

section

variable {c d : Dyadic} {p : Int}

/-- A decimal of one digit that is not below most of a power of ten is not below all of it. -/
theorem pow_le_of_digitCount_le {s : Decimal} (hs : digitCount s.digits ≤ 1)
    (h : 9 * 10 ^ (p - 1) < s.magnitude) : (10 : ℚ) ^ p ≤ s.magnitude := by
  have hdigits : s.digits < 10 := (digitCount_le_iff s.digits 1).mp hs
  have hnine : (s.digits : ℚ) ≤ 9 := by exact_mod_cast Nat.le_of_lt_succ hdigits
  rcases lt_or_ge s.exponent p with hlt | hge
  · exfalso
    have hpow : (10 : ℚ) ^ s.exponent ≤ 10 ^ (p - 1) := zpow_le_zpow_right₀ (by norm_num) (by omega)
    have : s.magnitude ≤ 9 * 10 ^ (p - 1) :=
      mul_le_mul hnine hpow (ten_zpow_pos _).le (by norm_num)
    linarith
  · have hpos : 0 < s.digits := by
      rw [Nat.pos_iff_ne_zero]
      intro hzero
      rw [Decimal.magnitude, hzero] at h
      have := ten_zpow_pos (p - 1)
      push_cast at h
      linarith
    have hone : (1 : ℚ) ≤ s.digits := by exact_mod_cast hpos
    calc (10 : ℚ) ^ p ≤ 10 ^ s.exponent := zpow_le_zpow_right₀ (by norm_num) hge
      _ = 1 * 10 ^ s.exponent := (one_mul _).symm
      _ ≤ s.magnitude := mul_le_mul_of_nonneg_right hone (ten_zpow_pos _).le

theorem eq_of_contains {r : ℚ} (hc : c.Canonical) (hcpos : 0 < c.significand) (hd : d.Canonical)
    (hdpos : 0 < d.significand) (hrc : c.interval.Contains r) (hrd : d.interval.Contains r) :
    c.significand = d.significand ∧ c.exponent = d.exponent := by
  have hr := hc.pos_of_contains hcpos hrc
  have hnum : (0 : Int) ≤ r.num := Rat.num_nonneg.mpr hr.le
  have hquotient : r = (r.num.toNat : ℚ) / r.den := by
    have hcast : ((r.num.toNat : Int) : ℚ) = r.num := by rw [Int.toNat_of_nonneg hnum]
    rw [← Int.cast_natCast, hcast, Rat.num_div_den]
  rw [hquotient, ← magnitudeBits_eq_iff hc hcpos _ r.den_pos] at hrc
  rw [hquotient, ← magnitudeBits_eq_iff hd hdpos _ r.den_pos] at hrd
  exact hc.eq_of_bits hd (hrc.symm.trans hrd)

/-- The intervals of floats lie in the order of the floats. -/
theorem lt_of_contains {r t : ℚ} (hc : c.Canonical) (hcpos : 0 < c.significand) (hd : d.Canonical)
    (hdpos : 0 < d.significand) (hlt : c.magnitude < d.magnitude) (hr : c.interval.Contains r)
    (ht : d.interval.Contains t) : r < t := by
  have hrnear := (hc.nearest hcpos hd hr).1
  have htnear := (hd.nearest hdpos hc ht).1
  have hrle : r ≤ (c.magnitude + d.magnitude) / 2 := by
    by_contra hgt
    rw [not_le] at hgt
    have : |r - d.magnitude| < r - c.magnitude := abs_sub_lt_iff.mpr ⟨by linarith, by linarith⟩
    have := le_abs_self (r - c.magnitude)
    linarith
  have htge : (c.magnitude + d.magnitude) / 2 ≤ t := by
    by_contra hgt
    rw [not_le] at hgt
    have : |t - c.magnitude| < d.magnitude - t := abs_sub_lt_iff.mpr ⟨by linarith, by linarith⟩
    have := neg_le_abs (t - d.magnitude)
    linarith
  refine lt_of_le_of_ne (hrle.trans htge) ?_
  rintro rfl
  obtain ⟨hs, he⟩ := eq_of_contains hc hcpos hd hdpos hr ht
  rw [Dyadic.magnitude, hs, he] at hlt
  exact lt_irrefl _ hlt

/-- The decimal of a float is not below a power of ten exactly if the float is not below the one nearest
to the power. -/
theorem pow_le_shown_iff (hc : c.Canonical) (hcpos : 0 < c.significand) (hd : d.Canonical)
    (hdpos : 0 < d.significand) (hin : c.interval.Contains (10 ^ p))
    (hlow : 9 * 10 ^ (p - 1) < (c.significand - c.gap) * (2 : ℚ) ^ c.exponent) :
    10 ^ p ≤ d.shown ↔ c.magnitude ≤ d.magnitude := by
  have hshown : d.interval.Contains d.shown := by
    rw [Dyadic.shown, if_neg hdpos.ne']
    exact (shortest_contains hd hdpos).2
  rcases lt_trichotomy c.magnitude d.magnitude with hlt | heq | hgt
  · exact iff_of_true (lt_of_contains hc hcpos hd hdpos hlt hin hshown).le hlt.le
  · refine iff_of_true ?_ heq.le
    have hself : d.interval.Contains c.magnitude := by
      rw [heq]
      exact Dyadic.contains_magnitude hdpos
    obtain ⟨hs, he⟩ := eq_of_contains hc hcpos hd hdpos (Dyadic.contains_magnitude hcpos) hself
    have hinterval : d.interval = c.interval := by rw [Dyadic.interval, Dyadic.interval, hs, he]
    have hone : (10 : ℚ) ^ p = (⟨1, p⟩ : Decimal).magnitude := by simp [Decimal.magnitude]
    rw [hone, ← hinterval] at hin
    rw [Dyadic.shown, if_neg hdpos.ne'] at hshown ⊢
    refine pow_le_of_digitCount_le ((shortest_minimal hd hdpos hin).trans ?_) ?_
    · exact (digitCount_le_iff 1 1).mpr (by decide)
    · refine hlow.trans_le ?_
      rw [← Dyadic.low_interval hcpos, ← hinterval]
      exact hshown.low
  · exact iff_of_false (not_le.mpr (lt_of_contains hd hdpos hc hcpos hgt hshown hin)) (not_le.mpr hgt)

end

/-- The float nearest to a thousandth. -/
def thousandth : Dyadic := ⟨false, 4611686018427388, -62⟩

/-- Ten millions are a float. -/
def tenMillions : Dyadic := ⟨false, 5368709120000000, -29⟩

variable {x : Float} {d : Dyadic}

theorem thousandth_le_iff (hd : d.Canonical) (hpos : 0 < d.significand) :
    10 ^ (-3 : Int) ≤ d.shown ↔ thousandth.magnitude ≤ d.magnitude := by
  have hcanonical : thousandth.Canonical := ⟨by decide, by decide, by decide, .inl (by decide)⟩
  have hgap : thousandth.gap = 1 / 2 := if_neg (by decide)
  refine pow_le_shown_iff hcanonical (by decide) hd hpos ?_ ?_
  · have hscaled : (10 : ℚ) ^ (-3 : Int) = 2 ^ 62 / 1000 * 2 ^ thousandth.exponent := by
      norm_num [thousandth]
    rw [hscaled, Dyadic.contains_iff (by decide), hgap]
    norm_num [thousandth]
  · rw [hgap]
    norm_num [thousandth]

example : value (ofDecimal false 1 (-3)) = .finite thousandth := by decide +kernel

theorem tenMillions_le_iff (hd : d.Canonical) (hpos : 0 < d.significand) :
    10 ^ (7 : Int) ≤ d.shown ↔ 10 ^ (7 : Int) ≤ d.magnitude := by
  have hcanonical : tenMillions.Canonical := ⟨by decide, by decide, by decide, .inl (by decide)⟩
  have hgap : tenMillions.gap = 1 / 2 := if_neg (by decide)
  have hmagnitude : tenMillions.magnitude = 10 ^ (7 : Int) := by
    norm_num [Dyadic.magnitude, tenMillions]
  rw [pow_le_shown_iff hcanonical (by decide) hd hpos ?_ ?_, hmagnitude]
  · rw [← hmagnitude]
    exact Dyadic.contains_magnitude (by decide)
  · rw [hgap]
    norm_num [tenMillions]

/-! ### Forms taken apart -/

/-- A text with a fraction of zero added unless it has a point. -/
def keepPoint (cs : List Char) : List Char := if '.' ∈ cs then cs else cs ++ ['.', '0']

/-- An exponential form taken apart at its mark, with the exponent written as an integer. -/
def respelled (cs : List Char) : List Char :=
  keepPoint (cs.takeWhile (· ≠ 'e')) ++
    'E' :: (toString ((readExponent? (cs.dropWhile (· ≠ 'e')).tail).getD 0)).toList

section

variable {whole fraction : List Char} {r : ℚ} {negative : Bool}

theorem Digits.not_mem {cs : List Char} (h : Digits cs) {c : Char} (hc : c.isDigit = false) : c ∉ cs := by
  intro hmem
  rw [h c hmem] at hc
  cases hc

theorem not_mem_signText {c : Char} (hc : c ≠ '-') : c ∉ signText negative := by
  cases negative <;> simp [signText, hc]

theorem keepPoint_mantissa (h : Parts whole fraction r) :
    keepPoint (signText negative ++ mantissa whole fraction) =
      signText negative ++ mantissa whole (padded true fraction) := by
  have hsign : '.' ∉ signText negative := not_mem_signText (by decide)
  have hwhole : '.' ∉ whole := h.whole_digits.not_mem (by decide)
  unfold keepPoint
  cases fraction with
  | nil => simp [mantissa, padded, hsign, hwhole]
  | cons c cs => simp [mantissa, padded]

theorem not_mem_mantissa (h : Parts whole fraction r) : 'e' ∉ signText negative ++ mantissa whole fraction := by
  have hsign : 'e' ∉ signText negative := not_mem_signText (by decide)
  have hwhole : 'e' ∉ whole := h.whole_digits.not_mem (by decide)
  have hfraction : 'e' ∉ fraction := h.fraction_digits.not_mem (by decide)
  unfold mantissa
  split <;> simp [hsign, hwhole, hfraction]

theorem toString_eq_exponentText (e : Int) : (toString e).toList = exponentText elementLayout e := by
  rw [exponentText_element]
  show e.repr.toList = _
  rw [Int.repr_eq_if]
  rcases lt_or_ge e 0 with hneg | hpos
  · rw [if_neg (by omega), String.toList_append, Nat.toList_repr, decide_eq_true hneg,
      show (-e).toNat = e.natAbs by omega]
    rfl
  · rw [if_pos hpos, Nat.toList_repr, decide_eq_false (by omega), show e.toNat = e.natAbs by omega]
    rfl

theorem length_digitList {n : Nat} (h : 0 < n) : (digitList n).length = digitCount n := by
  have hpos : 0 < (digitList n).length := List.length_pos_of_ne_nil Nat.toDigits_ne_nil
  have hcount := digitCount_pos h
  apply Nat.le_antisymm
  · exact (Nat.length_toDigits_le_iff (by decide) (by omega)).mpr (lt_pow_digitCount n)
  · exact (digitCount_le_iff n _).mpr ((Nat.length_toDigits_le_iff (by decide) hpos).mp (Nat.le_refl _))

/-- The exponent of the leading digit says between which powers of ten a decimal is. -/
theorem Decimal.le_leading_iff {c : Decimal} (h : 0 < c.digits) (p : Int) :
    p ≤ c.leading ↔ 10 ^ p ≤ c.magnitude := by
  have hlow := Decimal.le_magnitude h
  have hhigh := c.magnitude_lt
  have hleading : c.leading = digitCount c.digits + c.exponent - 1 := by
    rw [Decimal.leading, length_digitList h]
    omega
  constructor
  · intro hle
    exact (zpow_le_zpow_right₀ (by norm_num) (by omega)).trans hlow
  · intro hle
    have := (zpow_lt_zpow_iff_right₀ (by norm_num)).mp (hle.trans_lt hhigh)
    omega

end

theorem keepPoint_positional (negative : Bool) (c : Decimal) :
    keepPoint (signText negative ++ positional false c) = signText negative ++ positional true c := by
  obtain ⟨whole, fraction, hparts, heq⟩ := positional_parts c
  rw [heq false, heq true, withFraction_eq, withFraction_eq]
  exact keepPoint_mantissa hparts

theorem respelled_scientific (negative : Bool) (c : Decimal) :
    respelled (signText negative ++ scientific descriptionLayout c) =
      signText negative ++ scientific elementLayout c := by
  obtain ⟨whole, fraction, hparts, heq⟩ := scientific_parts c
  have hmark : 'e' ∉ signText negative ++ mantissa whole fraction := not_mem_mantissa hparts
  have hform : signText negative ++ scientific descriptionLayout c =
      signText negative ++ mantissa whole fraction ++
        'e' :: exponentText descriptionLayout c.leading := by
    rw [heq, withFraction_eq, ← List.append_assoc]
    rfl
  have hall : ∀ b ∈ signText negative ++ mantissa whole fraction, decide (b ≠ 'e') = true := by
    intro b hb
    refine decide_eq_true ?_
    rintro rfl
    exact hmark hb
  have htake : (signText negative ++ scientific descriptionLayout c).takeWhile (· ≠ 'e') =
      signText negative ++ mantissa whole fraction := by
    rw [hform, List.takeWhile_append_of_pos hall]
    simp
  have hdrop : ((signText negative ++ scientific descriptionLayout c).dropWhile (· ≠ 'e')).tail =
      exponentText descriptionLayout c.leading := by
    rw [hform, List.dropWhile_append_of_pos hall]
    simp
  rw [respelled, htake, hdrop, readExponent?_exponentText, keepPoint_mantissa hparts,
    Option.getD_some, toString_eq_exponentText, List.append_assoc,
    show mantissa whole (padded true fraction) = withFraction elementLayout.keepFraction whole fraction
      from (withFraction_eq true whole fraction).symm]
  exact congrArg _ (heq elementLayout).symm

/-- The text of an element is put together from the fixed form of its decimal between the limits, and
from the exponential form elsewhere. -/
theorem elementBody_eq (hd : d.Canonical) : signText d.negative ++ elementBody d =
    if d.significand = 0 ∨ thousandth.magnitude ≤ d.magnitude ∧ d.magnitude < 10 ^ (7 : Int)
      then keepPoint (fixedForm d) else respelled (exponentForm d) := by
  by_cases hzero : d.significand = 0
  · rw [if_pos (.inl hzero), elementBody, if_pos hzero, fixedForm, if_pos hzero]
    exact (keepPoint_mantissa parts_zero).symm
  · have hpos := Nat.pos_of_ne_zero hzero
    have hcpos := (shortest_contains hd hpos).1
    have hshown : d.shown = (shortest d.significand d.exponent).magnitude := if_neg hzero
    have hlow := thousandth_le_iff hd hpos
    have hhigh := tenMillions_le_iff hd hpos
    have hleast := Decimal.le_leading_iff hcpos (-3)
    have hgreatest := Decimal.le_leading_iff hcpos 7
    rw [← hshown] at hleast hgreatest
    unfold elementBody fixedForm exponentForm
    rw [if_neg hzero, if_neg hzero, if_neg hzero, keepPoint_positional, respelled_scientific]
    generalize shortest d.significand d.exponent = c at *
    have hrange : elementLayout.positionalFrom ≤ c.leading ∧ c.leading < elementLayout.positionalBelow ↔
        d.significand = 0 ∨ thousandth.magnitude ≤ d.magnitude ∧ d.magnitude < 10 ^ (7 : Int) := by
      rw [or_iff_right hzero, ← hlow, ← hleast]
      exact and_congr Iff.rfl (not_le.symm.trans ((not_congr (hgreatest.trans hhigh)).trans not_le))
    unfold decimalText
    dsimp only
    by_cases hin : elementLayout.positionalFrom ≤ c.leading ∧ c.leading < elementLayout.positionalBelow
    · rw [if_pos (hrange.mp hin)]
      exact congrArg _ (if_pos hin)
    · rw [if_neg (mt hrange.mpr hin)]
      exact congrArg _ (if_neg hin)

end VectorMachine.Binary64
