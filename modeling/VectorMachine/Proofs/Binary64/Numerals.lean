import VectorMachine.Proofs.Binary64.Shortest
import VectorMachine.Proofs.Literal.Integers
import VectorMachine.Binary64.Layout

/-!
# Numerals of floats

A decimal text is digits around a point, followed by a power of ten or by nothing.  However the digits
of a decimal are laid out, they denote the same rational; and a numeral without other marks is read as
the float nearest to what it denotes.
-/

namespace VectorMachine.Binary64
set_option autoImplicit false

open Literal (digitValue_of_isDigit digitsValue_eq splitSign_digits)

/-! ### Digits -/

def Digits (cs : List Char) : Prop := ∀ c ∈ cs, c.isDigit = true

section

variable {cs ds whole fraction rest : List Char} {c : Char} {n : Nat} {r : ℚ}

theorem digits_nil : Digits [] := by
  intro c h
  cases h

theorem Digits.append (hc : Digits cs) (hd : Digits ds) : Digits (cs ++ ds) := by
  intro c h
  rcases List.mem_append.mp h with h | h
  · exact hc c h
  · exact hd c h

theorem Digits.take (h : Digits cs) (n : Nat) : Digits (cs.take n) := fun c hc =>
  h c (List.mem_of_mem_take hc)

theorem Digits.drop (h : Digits cs) (n : Nat) : Digits (cs.drop n) := fun c hc =>
  h c (List.mem_of_mem_drop hc)

theorem digits_zeros (n : Nat) : Digits (zeros n) := by
  intro c hc
  rw [List.eq_of_mem_replicate hc]
  rfl

theorem digits_digitList (n : Nat) : Digits (digitList n) := fun _ hc =>
  Nat.isDigit_of_mem_toDigits (by decide) (by decide) hc

theorem isDigitOf_ten (h : c.isDigit = true) : isDigitOf 10 c = true :=
  decide_eq_true (digitValue_of_isDigit h).2

theorem Digits.all (h : Digits cs) : cs.all (isDigitOf 10) = true :=
  List.all_eq_true.mpr fun c hc => isDigitOf_ten (h c hc)

/-! ### Digits around a point -/

/-- Digits before and behind a point that stand for a rational. -/
structure Parts (whole fraction : List Char) (r : ℚ) : Prop where
  whole_digits : Digits whole
  whole_ne : whole ≠ []
  fraction_digits : Digits fraction
  value : (digitsValue 10 (whole ++ fraction) : ℚ) * 10 ^ (-(fraction.length : Int)) = r

/-- The fraction as it is written: where one is kept, an empty one is a zero. -/
def padded (keep : Bool) (fraction : List Char) : List Char :=
  if keep && fraction.isEmpty then ['0'] else fraction

/-- Digits around a point, without the point if none follow. -/
def mantissa (whole fraction : List Char) : List Char :=
  if fraction.isEmpty then whole else whole ++ '.' :: fraction

theorem withFraction_eq (keep : Bool) (whole fraction : List Char) :
    withFraction keep whole fraction = mantissa whole (padded keep fraction) := by
  cases fraction <;> cases keep <;> rfl

theorem digitsValue_append (hc : Digits cs) (hd : Digits ds) :
    digitsValue 10 (cs ++ ds) = digitsValue 10 cs * 10 ^ ds.length + digitsValue 10 ds := by
  rw [digitsValue_eq (hc.append hd), digitsValue_eq hc, digitsValue_eq hd, Nat.ofDigitChars_append,
    Nat.ofDigitChars_eq_ofDigitChars_zero, Nat.mul_comm]

theorem digitsValue_zeros (n : Nat) : digitsValue 10 (zeros n) = 0 := by
  rw [digitsValue_eq (digits_zeros n), zeros, Nat.ofDigitChars_replicate_zero, Nat.mul_zero]

theorem digitsValue_digitList (n : Nat) : digitsValue 10 (digitList n) = n := by
  rw [digitsValue_eq (digits_digitList n), digitList, Nat.ofDigitChars_toDigits (by decide) (by decide)]

theorem Parts.padded (h : Parts whole fraction r) (keep : Bool) :
    Parts whole (padded keep fraction) r := by
  unfold Binary64.padded
  split
  · rename_i hempty
    have hnil : fraction = [] := by simp_all
    subst hnil
    have hzero : Digits ['0'] := digits_zeros 1
    have hvalue := h.value
    rw [List.append_nil] at hvalue
    refine ⟨h.whole_digits, h.whole_ne, hzero, ?_⟩
    rw [← hvalue, digitsValue_append h.whole_digits hzero, show digitsValue 10 ['0'] = 0 from rfl]
    norm_num
    ring
  · exact h

/-- What follows a mantissa. -/
def Stops (rest : List Char) : Prop := ∀ c ∈ rest.head?, isDigitOf 10 c = false ∧ c ≠ '.'

theorem takeWhile_digits (hd : Digits cs) (hr : ∀ c ∈ rest.head?, isDigitOf 10 c = false) :
    (cs ++ rest).takeWhile (isDigitOf 10) = cs ∧ (cs ++ rest).dropWhile (isDigitOf 10) = rest := by
  have hall : ∀ c ∈ cs, isDigitOf 10 c = true := fun c hc => isDigitOf_ten (hd c hc)
  rw [List.takeWhile_append_of_pos hall, List.dropWhile_append_of_pos hall]
  cases rest with
  | nil => simp
  | cons c rest =>
    have hc := hr c rfl
    simp [List.takeWhile, List.dropWhile, hc]

theorem splitMantissa?_mantissa (hw : Digits whole) (hne : whole ≠ []) (hf : Digits fraction)
    (hr : Stops rest) :
    splitMantissa? 10 (mantissa whole fraction ++ rest) = some (whole, fraction, rest) := by
  have hempty : whole.isEmpty = false := by simpa using hne
  unfold splitMantissa? mantissa
  split
  · rename_i hnil
    rw [List.isEmpty_iff.mp hnil]
    obtain ⟨htake, hdrop⟩ := takeWhile_digits hw fun c hc => (hr c hc).1
    rw [htake, hdrop]
    dsimp only
    rw [hempty]
    cases rest with
    | nil => rfl
    | cons c rest =>
      have hpoint : c ≠ '.' := (hr c rfl).2
      simp [hpoint]
  · have hpoint : ∀ c ∈ ('.' :: (fraction ++ rest)).head?, isDigitOf 10 c = false := by
      intro c hc
      cases hc
      decide
    obtain ⟨htake, hdrop⟩ := takeWhile_digits hw hpoint
    obtain ⟨htake', hdrop'⟩ := takeWhile_digits hf fun c hc => (hr c hc).1
    rw [List.append_assoc, List.cons_append, htake, hdrop]
    simp only [htake', hdrop', hempty, Bool.false_and, Bool.false_eq_true, if_false]

/-- The rational that an unsigned decimal text denotes. -/
def decimal? (cs : List Char) : Option ℚ :=
  (readDecimal? cs).map fun (digits, exponent) => Decimal.magnitude ⟨digits, exponent⟩

theorem decimal?_mantissa (h : Parts whole fraction r) :
    decimal? (mantissa whole fraction) = some r := by
  have hstops : Stops [] := by
    intro c hc
    cases hc
  have hsplit := splitMantissa?_mantissa h.whole_digits h.whole_ne h.fraction_digits hstops
  rw [List.append_nil] at hsplit
  rw [decimal?, readDecimal?, hsplit]
  exact congrArg some h.value

theorem decimal?_power (h : Parts whole fraction r) {mark : Char} (hmark : mark = 'e' ∨ mark = 'E')
    {power : List Char} {e : Int} (hpower : readExponent? power = some e) :
    decimal? (mantissa whole fraction ++ mark :: power) = some (r * 10 ^ e) := by
  have hstops : Stops (mark :: power) := by
    intro c hc
    cases hc
    rcases hmark with rfl | rfl <;> decide
  have hsplit := splitMantissa?_mantissa h.whole_digits h.whole_ne h.fraction_digits hstops
  rw [decimal?, readDecimal?, hsplit]
  simp only [Option.bind_eq_bind, Option.bind_some, if_pos hmark, hpower, Option.map_some,
    Decimal.magnitude]
  rw [← h.value, mul_assoc, ← zpow_add₀ (by norm_num), add_comm e]

/-! ### Layouts -/

/-- The exponent that a layout writes: its sign, and digits padded to a width. -/
def exponentText (l : Layout) (e : Int) : List Char :=
  (if e < 0 then ['-'] else if l.exponentPlus then ['+'] else []) ++
    zeros (l.exponentWidth - (digitList e.natAbs).length) ++ digitList e.natAbs

theorem readExponent?_exponentText (l : Layout) (e : Int) :
    readExponent? (exponentText l e) = some e := by
  have hdigits : Digits (zeros (l.exponentWidth - (digitList e.natAbs).length) ++ digitList e.natAbs) :=
    (digits_zeros _).append (digits_digitList _)
  have hvalue : digitsValue 10 (zeros (l.exponentWidth - (digitList e.natAbs).length) ++
      digitList e.natAbs) = e.natAbs := by
    rw [digitsValue_append (digits_zeros _) (digits_digitList _), digitsValue_zeros,
      digitsValue_digitList, Nat.zero_mul, Nat.zero_add]
  have hne : zeros (l.exponentWidth - (digitList e.natAbs).length) ++ digitList e.natAbs ≠ [] := by
    simp [digitList, Nat.toDigits_ne_nil]
  unfold exponentText
  rw [List.append_assoc]
  generalize zeros (l.exponentWidth - (digitList e.natAbs).length) ++ digitList e.natAbs = ds at *
  have hempty : ds.isEmpty = false := by simpa using hne
  unfold readExponent?
  rcases lt_or_ge e 0 with hneg | hpos
  · simp only [if_pos hneg, List.cons_append, List.nil_append, splitSign, hempty, hdigits.all, hvalue,
      Bool.not_true, Bool.or_self, Bool.false_eq_true, if_false, if_true, Option.some.injEq]
    omega
  · rw [if_neg (not_lt.mpr hpos)]
    cases l.exponentPlus
    · simp only [List.nil_append, splitSign_digits hdigits, hempty, hdigits.all, hvalue,
        Bool.not_true, Bool.or_self, Bool.false_eq_true, if_false, Option.some.injEq]
      omega
    · simp only [List.cons_append, List.nil_append, splitSign, hempty, hdigits.all, hvalue,
        Bool.not_true, Bool.or_self, Bool.false_eq_true, if_false, if_true, Option.some.injEq]
      omega

/-- Written positionally, a decimal is digits around a point. -/
theorem positional_parts (d : Decimal) : ∃ whole fraction, Parts whole fraction d.magnitude ∧
    ∀ keep, positional keep d = withFraction keep whole fraction := by
  have hds := digits_digitList d.digits
  have hne : digitList d.digits ≠ [] := Nat.toDigits_ne_nil
  have hvalue := digitsValue_digitList d.digits
  unfold positional
  generalize digitList d.digits = ds at *
  dsimp only
  by_cases hsmall : (ds.length : Int) + d.exponent ≤ 0
  · refine ⟨['0'], zeros (-((ds.length : Int) + d.exponent)).toNat ++ ds, ⟨digits_zeros 1, by simp,
      (digits_zeros _).append hds, ?_⟩, fun keep => if_pos hsmall⟩
    have hzeros : ['0'] ++ zeros (-((ds.length : Int) + d.exponent)).toNat =
        zeros ((-((ds.length : Int) + d.exponent)).toNat + 1) := rfl
    rw [← List.append_assoc, hzeros, digitsValue_append (digits_zeros _) hds, digitsValue_zeros,
      hvalue, Nat.zero_mul, Nat.zero_add, Decimal.magnitude]
    congr 2
    simp only [List.length_append, zeros, List.length_replicate]
    omega
  · simp only [if_neg hsmall]
    by_cases hlarge : (ds.length : Int) ≤ (ds.length : Int) + d.exponent
    · refine ⟨ds ++ zeros d.exponent.toNat, [], ⟨hds.append (digits_zeros _), by simp [hne],
        digits_nil, ?_⟩, fun keep => if_pos hlarge⟩
      rw [List.append_nil, digitsValue_append hds (digits_zeros _), digitsValue_zeros, hvalue,
        Decimal.magnitude, zeros, List.length_replicate, ten_zpow_eq_div d.exponent,
        show (-d.exponent).toNat = 0 by omega]
      simp
    · refine ⟨ds.take ((ds.length : Int) + d.exponent).toNat,
        ds.drop ((ds.length : Int) + d.exponent).toNat, ⟨hds.take _, ?_, hds.drop _, ?_⟩,
        fun keep => if_neg hlarge⟩
      · rw [ne_eq, List.take_eq_nil_iff, not_or]
        exact ⟨by omega, hne⟩
      · rw [List.take_append_drop, hvalue, Decimal.magnitude, List.length_drop]
        congr 2
        omega

/-- The exponent of the leading digit of a decimal. -/
def Decimal.leading (d : Decimal) : Int := ((digitList d.digits).length : Int) - 1 + d.exponent

/-- Written scientifically, a decimal is digits around a point with the exponent of the first one. -/
theorem scientific_parts (d : Decimal) : ∃ whole fraction,
    Parts whole fraction (d.magnitude * 10 ^ (-d.leading)) ∧
    ∀ l, scientific l d =
      withFraction l.keepFraction whole fraction ++ l.exponentMark :: exponentText l d.leading := by
  have hds := digits_digitList d.digits
  have hne : digitList d.digits ≠ [] := Nat.toDigits_ne_nil
  have hvalue := digitsValue_digitList d.digits
  refine ⟨(digitList d.digits).take 1, (digitList d.digits).drop 1, ⟨hds.take _, ?_, hds.drop _, ?_⟩, ?_⟩
  · simpa using hne
  · have hlength : 0 < (digitList d.digits).length := List.length_pos_of_ne_nil hne
    rw [List.take_append_drop, hvalue, List.length_drop, Decimal.magnitude, Decimal.leading, mul_assoc,
      ← zpow_add₀ (by norm_num)]
    congr 2
    omega
  · intro l
    simp only [scientific, exponentText, Decimal.leading, List.append_assoc, List.cons_append]
    rfl

end

/-! ### Signs -/

def signText (negative : Bool) : List Char := if negative then ['-'] else []

/-- The sign and the rational that a decimal text denotes. -/
def denotation? (cs : List Char) : Option (Bool × ℚ) :=
  (decimal? (splitSign cs).2).map fun r => ((splitSign cs).1, r)

/-- Texts that begin with a digit. -/
def Leads (cs : List Char) : Prop := ∃ c ds, cs = c :: ds ∧ c.isDigit = true

section

variable {cs whole fraction rest : List Char} {r : ℚ} {negative : Bool}

theorem Leads.append (h : Leads cs) (rest : List Char) : Leads (cs ++ rest) := by
  obtain ⟨c, ds, rfl, hc⟩ := h
  exact ⟨c, ds ++ rest, rfl, hc⟩

theorem Parts.leads (h : Parts whole fraction r) : Leads (mantissa whole fraction) := by
  obtain ⟨c, ds, rfl⟩ := List.exists_cons_of_ne_nil h.whole_ne
  have hc : c.isDigit = true := h.whole_digits c (by simp)
  unfold mantissa
  split
  · exact ⟨c, ds, rfl, hc⟩
  · exact ⟨c, ds ++ '.' :: fraction, rfl, hc⟩

theorem splitSign_signText (h : Leads cs) : splitSign (signText negative ++ cs) = (negative, cs) := by
  obtain ⟨c, ds, rfl, hc⟩ := h
  cases negative
  · have hminus : c ≠ '-' := fun h => by rw [h] at hc; cases hc
    have hplus : c ≠ '+' := fun h => by rw [h] at hc; cases hc
    show splitSign (c :: ds) = _
    unfold splitSign
    split
    · rename_i heq
      exact absurd (List.cons.inj heq).1 hminus
    · rename_i heq
      exact absurd (List.cons.inj heq).1 hplus
    · rfl
  · rfl

theorem denotation?_signText (h : Leads cs) :
    denotation? (signText negative ++ cs) = (decimal? cs).map fun r => (negative, r) := by
  rw [denotation?, splitSign_signText h]

/-! ### Reading numerals -/

/-- The characters that numerals are made of. -/
def Plain (c : Char) : Prop := c.isDigit = true ∨ c = '.' ∨ c = 'E' ∨ c = '-'

theorem toLower_of_isDigit {c : Char} (h : c.isDigit = true) : c.toLower = c := by
  have hle : c.val.toNat ≤ 57 := by
    simp only [Char.isDigit, Bool.and_eq_true, decide_eq_true_eq, UInt32.le_iff_toNat_le] at h
    exact h.2
  unfold Char.toLower
  rw [dif_neg]
  rintro ⟨hge, -⟩
  rw [ge_iff_le, UInt32.le_iff_toNat_le] at hge
  have : 65 ≤ c.val.toNat := hge
  omega

theorem Plain.ne_underscore {c : Char} (h : Plain c) : c ≠ '_' := by
  rintro rfl
  rcases h with h | h | h | h <;> cases h

theorem Plain.lower_ne {c : Char} (h : Plain c) {l : Char} (hl : l.isDigit = false ∧ l ≠ '.' ∧
    l ≠ 'e' ∧ l ≠ '-') : c.toLower ≠ l := by
  obtain ⟨hdigit, hpoint, he, hminus⟩ := hl
  rcases h with h | rfl | rfl | rfl
  · rw [toLower_of_isDigit h]
    rintro rfl
    rw [h] at hdigit
    cases hdigit
  · exact Ne.symm hpoint
  · exact Ne.symm he
  · exact Ne.symm hminus

theorem separatesDigits_of_plain {hex : Bool} (h : ∀ c ∈ cs, Plain c) (after : Bool) :
    separatesDigits hex after cs = true := by
  induction cs generalizing after with
  | nil => rfl
  | cons c cs ih =>
    have hc : c ≠ '_' := (h c (by simp)).ne_underscore
    unfold separatesDigits
    split
    · rename_i heq
      cases heq
    · rename_i heq
      cases heq
      exact absurd rfl hc
    · rename_i heq
      cases heq
      exact ih (fun c hc => h c (List.mem_cons_of_mem _ hc)) _

theorem not_isBaseLetter {c : Char} (h : Plain c) : isBaseLetter c = false := by
  have hb := h.lower_ne (l := 'b') (by decide)
  have ho := h.lower_ne (l := 'o') (by decide)
  have hx := h.lower_ne (l := 'x') (by decide)
  simp [isBaseLetter, hb, ho, hx]

theorem underscoresFit_of_plain (h : ∀ c ∈ cs, Plain c) : underscoresFit cs = true := by
  unfold underscoresFit
  split
  · rw [not_isBaseLetter (h _ (by simp))]
    exact separatesDigits_of_plain h false
  · exact separatesDigits_of_plain h false

/-- A word that does not begin with a digit is not read where a numeral stands. -/
theorem not_sameIgnoringCase {c : Char} (hc : Plain c) {word : String} {l : Char} {ls : List Char}
    (hword : word.toList = l :: ls) (hl : l.isDigit = false ∧ l ≠ '.' ∧ l ≠ 'e' ∧ l ≠ '-') :
    sameIgnoringCase (c :: cs) word = false := by
  rw [sameIgnoringCase, hword, List.map_cons, beq_eq_false_iff_ne]
  intro h
  exact hc.lower_ne hl (List.cons.inj h).1

theorem read?_signText (hleads : Leads cs) (hplain : ∀ c ∈ cs, Plain c) :
    read? (String.ofList (signText negative ++ cs)) =
      ((readDecimal? cs).map fun (digits, e) => ofDecimal negative digits e).bind fun x =>
        match value x with
        | .finite _ => some x
        | _ => none := by
  have hfilter : cs.filter (· ≠ '_') = cs := by
    rw [List.filter_eq_self]
    intro c hc
    exact decide_eq_true (hplain c hc).ne_underscore
  have hnan : sameIgnoringCase (signText negative ++ cs) "nan" = false := by
    obtain ⟨c, ds, rfl, hc⟩ := hleads
    cases negative
    · exact not_sameIgnoringCase (hplain c (by simp)) rfl (by decide)
    · exact not_sameIgnoringCase (.inr (.inr (.inr rfl))) rfl (by decide)
  have hinf : sameIgnoringCase cs "inf" = false ∧ sameIgnoringCase cs "infinity" = false := by
    obtain ⟨c, ds, rfl, hc⟩ := hleads
    have hc := hplain c (by simp)
    exact ⟨not_sameIgnoringCase hc rfl (by decide), not_sameIgnoringCase hc rfl (by decide)⟩
  unfold read?
  simp only [String.toList_ofList, splitSign_signText hleads, hinf, hnan,
    underscoresFit_of_plain hplain, hfilter, Bool.or_self, Bool.not_true, Bool.false_eq_true, if_false]
  congr 1
  split
  · rw [if_neg]
    exact (hplain _ (by simp)).lower_ne (by decide)
  · rfl

end

end VectorMachine.Binary64
