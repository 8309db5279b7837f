import VectorMachine.Binary64.Shortest

/-!
# Float text

A layout fixes how a shortest decimal is written: which exponents are written positionally, how
an exponent looks, and what stands for values that are no number.
-/

namespace VectorMachine.Binary64
set_option autoImplicit false

structure Layout where
  /-- The least exponent that is written positionally. -/
  positionalFrom : Int
  /-- The first exponent that is too large to be written positionally. -/
  positionalBelow : Int
  /-- Whether an integral part alone is followed by `.0`. -/
  keepFraction : Bool
  exponentMark : Char
  /-- Whether a nonnegative exponent has a plus sign. -/
  exponentPlus : Bool
  exponentWidth : Nat
  nan : String
  infinity : String
  negativeInfinity : String

def digitList (n : Nat) : List Char := Nat.toDigits 10 n

def zeros (n : Nat) : List Char := List.replicate n '0'

/-- An integral part and a fraction part; an empty fraction is left out or written as `0`. -/
def withFraction (keep : Bool) (whole fraction : List Char) : List Char :=
  if fraction.isEmpty then (if keep then whole ++ ['.', '0'] else whole)
  else whole ++ '.' :: fraction

/-- Writes `digits * 10 ^ exponent` without an exponent mark. -/
def positional (keep : Bool) (d : Decimal) : List Char :=
  let ds := digitList d.digits
  let point := (ds.length : Int) + d.exponent
  if point ≤ 0 then withFraction keep ['0'] (zeros (-point).toNat ++ ds)
  else if (ds.length : Int) ≤ point then withFraction keep (ds ++ zeros d.exponent.toNat) []
  else withFraction keep (ds.take point.toNat) (ds.drop point.toNat)

/-- Writes one digit before the point and the exponent behind a mark. -/
def scientific (l : Layout) (d : Decimal) : List Char :=
  let ds := digitList d.digits
  let e := (ds.length : Int) - 1 + d.exponent
  let magnitude := digitList e.natAbs
  let sign := if e < 0 then ['-'] else if l.exponentPlus then ['+'] else []
  withFraction l.keepFraction (ds.take 1) (ds.drop 1) ++
    l.exponentMark :: sign ++ zeros (l.exponentWidth - magnitude.length) ++ magnitude

def decimalText (l : Layout) (d : Decimal) : List Char :=
  let e := ((digitList d.digits).length : Int) - 1 + d.exponent
  if l.positionalFrom ≤ e ∧ e < l.positionalBelow then positional l.keepFraction d
  else scientific l d

def Layout.text (l : Layout) (x : Float) : String :=
  match value x with
  | .nan => l.nan
  | .infinite negative => if negative then l.negativeInfinity else l.infinity
  | .finite d =>
    let sign := if d.negative then ['-'] else []
    let body :=
      if d.significand = 0 then withFraction l.keepFraction ['0'] []
      else decimalText l (shortest d.significand d.exponent)
    String.ofList (sign ++ body)

/-- The text of a float element: positional from a thousandth to below ten million, always with
a fraction. -/
def elementLayout : Layout where
  positionalFrom := -3
  positionalBelow := 7
  keepFraction := true
  exponentMark := 'E'
  exponentPlus := false
  exponentWidth := 1
  nan := "NaN"
  infinity := "Infinity"
  negativeInfinity := "-Infinity"

/-- The text of a float in a description of a container: positional with at most six integral
digits, and a signed exponent of two digits otherwise. -/
def descriptionLayout : Layout where
  positionalFrom := -4
  positionalBelow := 6
  keepFraction := false
  exponentMark := 'e'
  exponentPlus := true
  exponentWidth := 2
  nan := "NaN"
  infinity := "+Inf"
  negativeInfinity := "-Inf"

end VectorMachine.Binary64
