import Mathlib
import VectorMachine.Binary64.Basic

/-!
# Floats are their bits

A float is determined by its bits, and every pattern of bits is that of a float, apart from those that
spell the one value that is no number in other ways.  The value of a finite float is a dyadic in
canonical form, and its bits count the canonical dyadics in their order.
-/

namespace VectorMachine.Binary64
set_option autoImplicit false

open Float.Model (Format UnpackedFloat)
open Float.Model.UnpackedFloat (unpackExponent unpackMantissa)

/-! ### Fields -/

theorem toNat_unpackMantissa (v : BitVec Format.binary64.numBits) :
    (unpackMantissa v).toNat = v.toNat % 2 ^ 52 := by
  simp [unpackMantissa]

theorem toNat_unpackExponent (v : BitVec Format.binary64.numBits) :
    (unpackExponent v).toNat = v.toNat / 2 ^ 52 % 2 ^ 11 := by
  simp [unpackExponent, Nat.shiftRight_eq_div_pow]

/-- The bits of a float are those that it is made of, if they do not spell what is no number. -/
theorem toBits_ofBits {b : UInt64} (h : b.toNat / 2 ^ 52 % 2 ^ 11 = 2047 → b.toNat % 2 ^ 52 = 0) :
    (Float.ofBits b).toBits = b := by
  have hv : Format.binary64.Valid b.toBitVec := by
    refine ⟨fun hexp hmant => absurd (BitVec.eq_of_toNat_eq ?_) hmant⟩
    rw [toNat_unpackMantissa]
    apply h
    exact (toNat_unpackExponent b.toBitVec).symm.trans (congrArg BitVec.toNat hexp)
  exact congrArg UInt64.ofBitVec (UnpackedFloat.pack_unpack_of_valid hv)

/-! ### Values -/

/-- A dyadic as finite floats have it: with a significand of 53 bits, or less at the least exponent. -/
structure Dyadic.Canonical (d : Dyadic) : Prop where
  significand_lt : d.significand < 2 ^ 53
  le_exponent : leastExponent ≤ d.exponent
  exponent_le : d.exponent ≤ 971
  full : 2 ^ 52 ≤ d.significand ∨ d.exponent = leastExponent

/-- How many canonical dyadics there are from zero up to the magnitude of this one. -/
def Dyadic.bits (d : Dyadic) : Nat := (d.exponent - leastExponent).toNat * 2 ^ 52 + d.significand

theorem leastExponent_eq : leastExponent = -1074 := rfl

theorem infinityBits_eq : infinityBits = 2047 * 2 ^ 52 := rfl

theorem Dyadic.Canonical.bits_lt {d : Dyadic} (hd : d.Canonical) : d.bits < infinityBits := by
  have hlt := hd.significand_lt
  have hle := hd.exponent_le
  rw [infinityBits_eq, Dyadic.bits, leastExponent_eq]
  omega

theorem Dyadic.Canonical.eq_of_bits {c d : Dyadic} (hc : c.Canonical) (hd : d.Canonical)
    (h : c.bits = d.bits) : c.significand = d.significand ∧ c.exponent = d.exponent := by
  obtain ⟨hcs, hce, -, hcf⟩ := hc
  obtain ⟨hds, hde, -, hdf⟩ := hd
  simp only [Dyadic.bits, leastExponent_eq] at *
  omega

theorem value_cases (x : Float) :
    (∃ d, value x = .finite d ∧ d.Canonical ∧
      x.toBits.toNat = d.bits + if d.negative then 2 ^ 63 else 0) ∨
    (∃ negative, value x = .infinite negative ∧
      x.toBits.toNat = infinityBits + if negative then 2 ^ 63 else 0) ∨
    value x = .nan ∧ x.toBits.toNat / 2 ^ 52 % 2 ^ 11 = 2047 ∧ x.toBits.toNat % 2 ^ 52 ≠ 0 := by
  have hlt : x.toBits.toNat < 2 ^ 64 := x.toBits.toNat_lt
  generalize hn : x.toBits.toNat = n at hlt
  have hsign : n = n % 2 ^ 63 + if decide (2 ^ 63 ≤ n) = true then 2 ^ 63 else 0 := by
    split
    · rename_i h
      have := of_decide_eq_true h
      omega
    · rename_i h
      have : ¬ 2 ^ 63 ≤ n := fun hle => h (decide_eq_true hle)
      omega
  have hmod : n % 2 ^ 63 = n / 2 ^ 52 % 2 ^ 11 * 2 ^ 52 + n % 2 ^ 52 := by omega
  simp only [value, Value.ofBits, hn, Nat.pow_eq]
  split
  · rename_i hfield
    split
    · rename_i hfraction
      refine .inr (.inl ⟨_, rfl, ?_⟩)
      rw [hfield, hfraction] at hmod
      rw [infinityBits_eq]
      omega
    · rename_i hfraction
      exact .inr (.inr ⟨rfl, hfield, hfraction⟩)
  · rename_i hfield
    left
    split
    · rename_i hzero
      refine ⟨_, rfl, ⟨?_, ?_, ?_, .inr rfl⟩, ?_⟩
      · dsimp only
        omega
      · exact Int.le_refl _
      · dsimp only
        rw [leastExponent_eq]
        omega
      · simp only [Dyadic.bits, Int.sub_self]
        omega
    · refine ⟨_, rfl, ⟨?_, ?_, ?_, .inl ?_⟩, ?_⟩
      · dsimp only
        omega
      · rw [leastExponent_eq]
        dsimp only
        omega
      · dsimp only
        omega
      · dsimp only
        omega
      · simp only [Dyadic.bits, leastExponent_eq]
        omega

/-- A float is made of the bits that its sign and its magnitude have. -/
theorem eq_ofMagnitude {x : Float} {negative : Bool} {b : Nat}
    (h : x.toBits.toNat = b + if negative then 2 ^ 63 else 0) : x = ofMagnitude negative b := by
  have hx := x.ofBits_toBits
  rw [← UInt64.ofNat_toNat (x := x.toBits), h] at hx
  exact hx.symm

theorem finite_of_value {x : Float} {d : Dyadic} (h : value x = .finite d) :
    d.Canonical ∧ x = ofMagnitude d.negative d.bits := by
  rcases value_cases x with ⟨c, hc, hcanonical, hbits⟩ | ⟨_, hi, -⟩ | ⟨hnan, -, -⟩
  · rw [h] at hc
    cases hc
    exact ⟨hcanonical, eq_ofMagnitude hbits⟩
  · rw [h] at hi
    cases hi
  · rw [h] at hnan
    cases hnan

theorem infinite_of_value {x : Float} {negative : Bool} (h : value x = .infinite negative) :
    x = ofMagnitude negative infinityBits := by
  rcases value_cases x with ⟨c, hc, -⟩ | ⟨_, hi, hbits⟩ | ⟨hnan, -, -⟩
  · rw [h] at hc
    cases hc
  · rw [h] at hi
    cases hi
    exact eq_ofMagnitude hbits
  · rw [h] at hnan
    cases hnan

theorem isNaN_of_value {x : Float} (h : value x = .nan) : x.isNaN = true := by
  rcases value_cases x with ⟨c, hc, -⟩ | ⟨_, hi, -⟩ | ⟨-, hfield, hfraction⟩
  · rw [h] at hc
    cases hc
  · rw [h] at hi
    cases hi
  · have hexp : @unpackExponent Format.binary64 x.toBits.toBitVec = -1#11 :=
      BitVec.eq_of_toNat_eq ((toNat_unpackExponent x.toBits.toBitVec).trans hfield)
    have hmant : @unpackMantissa Format.binary64 x.toBits.toBitVec ≠ 0#52 := by
      intro hzero
      apply hfraction
      have := congrArg BitVec.toNat hzero
      exact (toNat_unpackMantissa x.toBits.toBitVec).symm.trans this
    have hvalid : Format.binary64.Valid x.toBits.toBitVec := x.toModel.valid
    exact (UnpackedFloat.isNaN_unpack_iff_of_valid hvalid).mpr (hvalid.eq_packedNaN hexp hmant)

theorem toBits_ofMagnitude {negative : Bool} {b : Nat} (hb : b ≤ infinityBits) :
    (ofMagnitude negative b).toBits.toNat = b + if negative then 2 ^ 63 else 0 := by
  rw [infinityBits_eq] at hb
  have hsum : b + (if negative then 2 ^ 63 else 0) < 2 ^ 64 := by
    split <;> omega
  have hnat : (UInt64.ofNat (b + if negative then Nat.pow 2 63 else 0)).toNat =
      b + if negative then 2 ^ 63 else 0 := by
    rw [UInt64.toNat_ofNat']
    exact Nat.mod_eq_of_lt hsum
  unfold ofMagnitude
  rw [toBits_ofBits, hnat]
  rw [hnat]
  split <;> omega

/-- The sign and the magnitude of a float determine it, and it determines them. -/
theorem ofMagnitude_inj {negative negative' : Bool} {b b' : Nat} (hb : b ≤ infinityBits)
    (hb' : b' ≤ infinityBits) (h : ofMagnitude negative b = ofMagnitude negative' b') :
    negative = negative' ∧ b = b' := by
  have hbits := congrArg (fun x : Float => x.toBits.toNat) h
  rw [toBits_ofMagnitude hb, toBits_ofMagnitude hb'] at hbits
  rw [infinityBits_eq] at hb hb'
  cases negative <;> cases negative' <;> simp at hbits ⊢ <;> omega

end VectorMachine.Binary64
