import VectorMachine.Proofs.Binary64.Numerals

/-!
# The text of a float element

An element is shown as a numeral with digits on both sides of a point.  It denotes what the shortest
decimal of the element denotes in its usual forms, so the element is what is read from it.
-/

namespace VectorMachine.Binary64
set_option autoImplicit false

/-- A sign, digits on both sides of a point, and the sign and the digits of a power of ten. -/
structure Numeral where
  negative : Bool
  whole : List Char
  fraction : List Char
  power : Option (Bool × List Char)

namespace Numeral

def powerText : Option (Bool × List Char) → List Char
  | none => []
  | some (negative, digits) => 'E' :: signText negative ++ digits

def body (n : Numeral) : List Char := n.whole ++ '.' :: n.fraction ++ powerText n.power

def text (n : Numeral) : List Char := signText n.negative ++ n.body

/-- There are digits wherever there may be, and those of a power do not begin with a zero. -/
structure WellFormed (n : Numeral) : Prop where
  whole : Digits n.whole ∧ n.whole ≠ []
  fraction : Digits n.fraction ∧ n.fraction ≠ []
  power : ∀ p ∈ n.power, Digits p.2 ∧ p.2 ≠ [] ∧ p.2.head? ≠ some '0'

variable {n : Numeral}

theorem WellFormed.leads (h : n.WellFormed) : Leads n.body := by
  obtain ⟨c, ds, hc⟩ := List.exists_cons_of_ne_nil h.whole.2
  refine ⟨c, ds ++ '.' :: n.fraction ++ powerText n.power, ?_, h.whole.1 c (by simp [hc])⟩
  rw [body, hc]
  rfl

theorem WellFormed.plain (h : n.WellFormed) : ∀ c ∈ n.body, Plain c := by
  intro c hc
  rw [body, List.mem_append, List.mem_append, List.mem_cons] at hc
  rcases hc with (hc | rfl | hc) | hc
  · exact .inl (h.whole.1 c hc)
  · exact .inr (.inl rfl)
  · exact .inl (h.fraction.1 c hc)
  · cases hp : n.power with
    | none =>
      rw [hp] at hc
      cases hc
    | some p =>
      rw [hp] at hc
      obtain ⟨negative, digits⟩ := p
      have hdigits := (h.power _ hp).1
      rcases List.mem_cons.mp hc with rfl | hc
      · exact .inr (.inr (.inl rfl))
      · rcases List.mem_append.mp hc with hc | hc
        · cases negative
          · cases hc
          · exact .inr (.inr (.inr (List.mem_singleton.mp hc)))
        · exact .inl (hdigits c hc)

end Numeral

/-! ### Forms of the shortest decimal -/

/-- The rational that the decimal of a float stands for. -/
def Dyadic.shown (d : Dyadic) : ℚ :=
  if d.significand = 0 then 0 else (shortest d.significand d.exponent).magnitude

/-- The decimal of a float without a power of ten. -/
def fixedForm (d : Dyadic) : List Char :=
  signText d.negative ++
    if d.significand = 0 then ['0'] else positional false (shortest d.significand d.exponent)

/-- The decimal of a float with one digit before the point and a power of ten, which has a sign and two
digits or more. -/
def exponentForm (d : Dyadic) : List Char :=
  signText d.negative ++
    if d.significand = 0 then ['0', 'e', '+', '0', '0']
    else scientific descriptionLayout (shortest d.significand d.exponent)

def elementBody (d : Dyadic) : List Char :=
  if d.significand = 0 then ['0', '.', '0']
  else decimalText elementLayout (shortest d.significand d.exponent)

variable {x : Float} {d : Dyadic}

theorem text_of_finite (hx : value x = .finite d) :
    elementLayout.text x = String.ofList (signText d.negative ++ elementBody d) := by
  rw [Layout.text, hx]
  rfl

theorem parts_zero : Parts ['0'] [] 0 := by
  refine ⟨digits_zeros 1, by simp, digits_nil, ?_⟩
  rw [show digitsValue 10 (['0'] ++ []) = 0 from rfl, Nat.cast_zero, zero_mul]

theorem denotation?_fixedForm (d : Dyadic) : denotation? (fixedForm d) = some (d.negative, d.shown) := by
  unfold fixedForm Dyadic.shown
  split
  · have hzero : decimal? ['0'] = some 0 := decimal?_mantissa parts_zero
    rw [denotation?_signText ⟨'0', [], rfl, rfl⟩, hzero]
    rfl
  · obtain ⟨whole, fraction, hparts, heq⟩ := positional_parts (shortest d.significand d.exponent)
    have hparts := hparts.padded false
    rw [heq, withFraction_eq, denotation?_signText hparts.leads, decimal?_mantissa hparts]
    rfl

theorem denotation?_exponentForm (d : Dyadic) :
    denotation? (exponentForm d) = some (d.negative, d.shown) := by
  unfold exponentForm Dyadic.shown
  split
  · have hpower : decimal? ['0', 'e', '+', '0', '0'] = some (0 * 10 ^ (0 : Int)) :=
      decimal?_power parts_zero (.inl rfl) rfl
    rw [denotation?_signText ⟨'0', _, rfl, rfl⟩, hpower, zero_mul]
    rfl
  · obtain ⟨whole, fraction, hparts, heq⟩ := scientific_parts (shortest d.significand d.exponent)
    have hparts := hparts.padded descriptionLayout.keepFraction
    have hmark : descriptionLayout.exponentMark = 'e' ∨ descriptionLayout.exponentMark = 'E' := .inl rfl
    rw [heq, withFraction_eq, denotation?_signText (hparts.leads.append _),
      decimal?_power hparts hmark (readExponent?_exponentText _ _), mul_assoc,
      ← zpow_add₀ (by norm_num), neg_add_cancel, zpow_zero, mul_one]
    rfl

theorem head_digitList {n : Nat} (h : 0 < n) : (digitList n).head? ≠ some '0' := by
  induction n using Nat.strongRecOn with
  | ind n ih =>
    unfold digitList at ih ⊢
    rw [Nat.toDigits_eq_if (by decide)]
    split
    · simpa using h.ne'
    · have hlt : 0 < n / 10 := by omega
      rw [List.head?_append_of_ne_nil _ Nat.toDigits_ne_nil]
      exact ih (n / 10) (by omega) hlt

theorem exponentText_element {e : Int} :
    exponentText elementLayout e = signText (decide (e < 0)) ++ digitList e.natAbs := by
  have hlength : 1 ≤ (digitList e.natAbs).length :=
    List.length_pos_of_ne_nil Nat.toDigits_ne_nil
  have hzeros : zeros (elementLayout.exponentWidth - (digitList e.natAbs).length) = [] := by
    rw [show elementLayout.exponentWidth - (digitList e.natAbs).length = 0 by
      show 1 - _ = 0
      omega]
    rfl
  rw [exponentText, hzeros, List.append_nil, signText]
  by_cases he : e < 0 <;> simp [he, elementLayout]

theorem padded_ne_nil {fraction : List Char} : padded true fraction ≠ [] := by
  cases fraction <;> simp [padded]

theorem mantissa_padded {whole fraction : List Char} :
    mantissa whole (padded true fraction) = whole ++ '.' :: padded true fraction := by
  cases fraction <;> rfl

theorem exists_numeral_positional (negative : Bool) (c : Decimal) : ∃ n : Numeral, n.WellFormed ∧
    n.negative = negative ∧ n.body = positional true c ∧ decimal? n.body = some c.magnitude := by
  obtain ⟨whole, fraction, hparts, heq⟩ := positional_parts c
  have hparts := hparts.padded true
  have hbody : Numeral.body ⟨negative, whole, padded true fraction, none⟩ =
      mantissa whole (padded true fraction) := by
    rw [mantissa_padded]
    exact List.append_nil _
  refine ⟨⟨negative, whole, padded true fraction, none⟩, ⟨⟨hparts.whole_digits, hparts.whole_ne⟩,
    ⟨hparts.fraction_digits, padded_ne_nil⟩, fun p hp => by cases hp⟩, rfl, ?_, ?_⟩
  · rw [hbody, heq, withFraction_eq]
  · rw [hbody, decimal?_mantissa hparts]

theorem exists_numeral_scientific (negative : Bool) {c : Decimal} (hleading : c.leading ≠ 0) :
    ∃ n : Numeral, n.WellFormed ∧ n.negative = negative ∧ n.body = scientific elementLayout c ∧
      decimal? n.body = some c.magnitude := by
  obtain ⟨whole, fraction, hparts, heq⟩ := scientific_parts c
  have hparts := hparts.padded true
  have hbody : Numeral.body ⟨negative, whole, padded true fraction,
      some (decide (c.leading < 0), digitList c.leading.natAbs)⟩ =
      mantissa whole (padded true fraction) ++ 'E' :: exponentText elementLayout c.leading := by
    rw [mantissa_padded, exponentText_element]
    rfl
  refine ⟨⟨negative, whole, padded true fraction,
    some (decide (c.leading < 0), digitList c.leading.natAbs)⟩,
    ⟨⟨hparts.whole_digits, hparts.whole_ne⟩, ⟨hparts.fraction_digits, padded_ne_nil⟩, ?_⟩, rfl, ?_, ?_⟩
  · rintro p hp
    cases hp
    exact ⟨digits_digitList _, Nat.toDigits_ne_nil, head_digitList (by omega)⟩
  · rw [hbody, heq, withFraction_eq]
    rfl
  · rw [hbody, decimal?_power hparts (.inr rfl) (readExponent?_exponentText elementLayout c.leading),
      mul_assoc, ← zpow_add₀ (by norm_num), neg_add_cancel, zpow_zero, mul_one]

/-- An element is shown as a numeral that denotes what its decimal stands for. -/
theorem exists_numeral (d : Dyadic) : ∃ n : Numeral, n.WellFormed ∧ n.negative = d.negative ∧
    n.body = elementBody d ∧ decimal? n.body = some d.shown := by
  unfold elementBody Dyadic.shown
  split
  · exact ⟨⟨d.negative, ['0'], ['0'], none⟩, ⟨⟨digits_zeros 1, by simp⟩, ⟨digits_zeros 1, by simp⟩,
      fun p hp => by cases hp⟩, rfl, rfl, decimal?_mantissa (parts_zero.padded true)⟩
  · unfold decimalText
    dsimp only
    split
    · exact exists_numeral_positional d.negative _
    · rename_i hrange
      refine exists_numeral_scientific d.negative fun h => hrange ?_
      show -3 ≤ (shortest d.significand d.exponent).leading ∧
        (shortest d.significand d.exponent).leading < 7
      omega

/-! ### Reading an element back -/

theorem ofDecimal_of_shown (hx : value x = .finite d) {c : Decimal} (hc : c.magnitude = d.shown) :
    ofDecimal d.negative c.digits c.exponent = x := by
  obtain ⟨hd, hbits⟩ := finite_of_value hx
  unfold Dyadic.shown at hc
  split at hc
  · rename_i hzero
    have hdigits : c.digits = 0 := by
      have := (mul_eq_zero.mp hc).resolve_right (ten_zpow_pos _).ne'
      exact_mod_cast this
    have hfull : d.exponent = leastExponent := hd.full.resolve_left (by omega)
    rw [hdigits, ofDecimal, if_pos (.inl rfl), hbits, Dyadic.bits, hzero, hfull, Int.sub_self]
    rfl
  · rename_i hpos
    have hpos := Nat.pos_of_ne_zero hpos
    refine (ofDecimal_eq_iff hx hpos _ c).mpr ⟨rfl, ?_⟩
    rw [hc]
    exact (shortest_contains hd hpos).2

/-- A rational that identifies a float, and is that of a decimal of as few digits as identify it.  No
float is nearer to it, another one is as near only if the significand of the float is even, and all
decimals that stand for it are read as the float. -/
structure Identifies (x : Float) (d : Dyadic) (r : ℚ) : Prop where
  nearest : ∀ {y : Float} {c : Dyadic}, value y = .finite c → |r - d.magnitude| ≤ |r - c.magnitude| ∧
    (|r - c.magnitude| = |r - d.magnitude| → c.magnitude = d.magnitude ∨ d.significand % 2 = 0)
  reads : ∀ c : Decimal, c.magnitude = r → ofDecimal d.negative c.digits c.exponent = x
  shortest : ∀ c : Decimal, ofDecimal d.negative c.digits c.exponent = x →
    ∃ s : Decimal, s.magnitude = r ∧ digitCount s.digits ≤ digitCount c.digits

theorem identifies_shown (hx : value x = .finite d) : Identifies x d d.shown := by
  obtain ⟨hd, -⟩ := finite_of_value hx
  refine ⟨fun {y c} hy => ?_, fun c => ofDecimal_of_shown hx, fun c hc => ?_⟩
  · obtain ⟨hc, -⟩ := finite_of_value hy
    unfold Dyadic.shown
    split
    · rename_i hzero
      have hmagnitude : d.magnitude = 0 := by
        rw [Dyadic.magnitude, hzero, Nat.cast_zero, zero_mul]
      rw [hmagnitude, sub_zero, abs_zero]
      exact ⟨abs_nonneg _, fun h => .inl (by simpa using h)⟩
    · rename_i hpos
      have hpos := Nat.pos_of_ne_zero hpos
      exact hd.nearest hpos hc (shortest_contains hd hpos).2
  · unfold Dyadic.shown
    split
    · refine ⟨⟨0, 0⟩, ?_, ?_⟩
      · rw [Decimal.magnitude, Nat.cast_zero, zero_mul]
      · rw [digitCount_zero]
        exact Nat.zero_le _
    · rename_i hpos
      have hpos := Nat.pos_of_ne_zero hpos
      exact ⟨_, rfl, shortest_minimal hd hpos ((ofDecimal_eq_iff hx hpos _ c).mp hc).2⟩

theorem read?_text_of_finite (hx : value x = .finite d) : read? (elementLayout.text x) = some x := by
  obtain ⟨n, hn, -, hbody, hdecimal⟩ := exists_numeral d
  obtain ⟨⟨digits, e⟩, hread, hshown⟩ := Option.map_eq_some_iff.mp hdecimal
  rw [text_of_finite hx, ← hbody, read?_signText hn.leads hn.plain, hread]
  have hof : ofDecimal d.negative digits e = x := ofDecimal_of_shown hx (c := ⟨digits, e⟩) hshown
  simp only [Option.map_some, Option.bind_some, hof, hx]

theorem read?_text_of_infinite {negative : Bool} (hx : value x = .infinite negative) :
    read? (elementLayout.text x) = some x := by
  rw [Layout.text, hx, infinite_of_value hx]
  cases negative <;> rfl

/-- Every element but the one that is no number is read from its text. -/
theorem read?_text (hx : value x ≠ .nan) : read? (elementLayout.text x) = some x := by
  cases h : value x with
  | finite d => exact read?_text_of_finite h
  | infinite negative => exact read?_text_of_infinite h
  | nan => exact absurd h hx

end VectorMachine.Binary64
