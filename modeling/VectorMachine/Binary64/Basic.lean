/-!
# Binary floating point as integers

The bits of a 64 bit float are read as a sign, a significand and an exponent, and exact quotients
of natural numbers are rounded back to bits.  Everything that turns floats into integers or text,
or text and integers into floats, goes through these two directions.
-/

namespace VectorMachine.Binary64
set_option autoImplicit false

/-- The number `± significand * 2 ^ exponent`. -/
structure Dyadic where
  negative : Bool
  significand : Nat
  exponent : Int
  deriving DecidableEq, Repr, Inhabited

inductive Value where
  | finite (d : Dyadic)
  | infinite (negative : Bool)
  | nan
  deriving DecidableEq, Repr, Inhabited

/-- The exponent of the smallest positive float. -/
def leastExponent : Int := -1074

def infinityBits : Nat := 2047 * Nat.pow 2 52

def Value.ofBits (bits : UInt64) : Value :=
  let n := bits.toNat
  let negative := decide (Nat.pow 2 63 ≤ n)
  let field : Nat := n / Nat.pow 2 52 % Nat.pow 2 11
  let fraction := n % Nat.pow 2 52
  if field = 2047 then
    if fraction = 0 then .infinite negative else .nan
  else if field = 0 then .finite ⟨negative, fraction, leastExponent⟩
  else .finite ⟨negative, fraction + Nat.pow 2 52, (field : Int) - 1075⟩

def value (x : Float) : Value := Value.ofBits x.toBits

/-- The quotient rounded to the nearest integer, a half to the even one. -/
def roundDiv (num den : Nat) : Nat :=
  let q := num / den
  let r := num % den
  if 2 * r < den then q else if den < 2 * r then q + 1 else q + q % 2

/-- The greatest `e` with `2 ^ e ≤ num / den`, for positive arguments. -/
def floorLog2 (num den : Nat) : Int :=
  let e : Int := (num.log2 : Int) - den.log2
  if den * Nat.pow 2 e.toNat ≤ num * Nat.pow 2 (-e).toNat then e else e - 1

/-- The bits of the float nearest to `num / den`, a tie to the even significand; infinity if it
is out of range. -/
def magnitudeBits (num den : Nat) : Nat :=
  if num = 0 then 0
  else
    let q := max (floorLog2 num den - 52) leastExponent
    let m := roundDiv (num * Nat.pow 2 (-q).toNat) (den * Nat.pow 2 q.toNat)
    min ((q - leastExponent).toNat * Nat.pow 2 52 + m) infinityBits

def ofMagnitude (negative : Bool) (bits : Nat) : Float :=
  Float.ofBits (UInt64.ofNat (bits + if negative then Nat.pow 2 63 else 0))

/-- The float nearest to `± num / den`. -/
def ofRatio (negative : Bool) (num den : Nat) : Float :=
  ofMagnitude negative (magnitudeBits num den)

def ofInt (i : Int) : Float := ofRatio (decide (i < 0)) i.natAbs 1

/-- The magnitude rounded toward zero. -/
def Dyadic.floorMagnitude (d : Dyadic) : Nat :=
  d.significand * Nat.pow 2 d.exponent.toNat / Nat.pow 2 (-d.exponent).toNat

def Dyadic.truncate (d : Dyadic) : Int :=
  if d.negative then -(d.floorMagnitude : Int) else d.floorMagnitude

def leastInt : Int := -Nat.pow 2 63

def greatestInt : Int := Nat.pow 2 63 - 1

/-- Rounds toward zero and stops at the ends of the integer range; a value that is no number
gives zero. -/
def toInt64 (x : Float) : Int64 :=
  match value x with
  | .nan => 0
  | .infinite negative => Int64.ofInt (if negative then leastInt else greatestInt)
  | .finite d => Int64.ofInt (max leastInt (min greatestInt d.truncate))

/-- The remainder of a division that rounds toward zero; it is exact and takes the sign of the
dividend. -/
def remainder (x y : Float) : Float :=
  match value x, value y with
  | .finite _, .infinite _ => x
  | .finite a, .finite b =>
    if b.significand = 0 then Float.ofBits 0x7ff8000000000001
    else
      let q := min a.exponent b.exponent
      let r := a.significand * Nat.pow 2 (a.exponent - q).toNat %
        (b.significand * Nat.pow 2 (b.exponent - q).toNat)
      ofRatio a.negative (r * Nat.pow 2 q.toNat) (Nat.pow 2 (-q).toNat)
  | _, _ => Float.ofBits 0x7ff8000000000001

theorem magnitudeBits_le (num den : Nat) : magnitudeBits num den ≤ infinityBits := by
  unfold magnitudeBits
  split
  · exact Nat.zero_le _
  · exact Nat.min_le_right _ _

@[simp] theorem magnitudeBits_zero (den : Nat) : magnitudeBits 0 den = 0 := by
  simp [magnitudeBits]

end VectorMachine.Binary64
