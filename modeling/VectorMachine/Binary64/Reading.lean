import VectorMachine.Binary64.Shortest

/-!
# Reading float text

The number grammar of values that are cast from text: decimal and hexadecimal numbers, digits
separated by single underscores, and the words for infinity and for what is no number.
-/

namespace VectorMachine.Binary64
set_option autoImplicit false

/-- The float nearest to `± digits * 10 ^ exponent`. -/
def ofDecimal (negative : Bool) (digits : Nat) (exponent : Int) : Float :=
  let top := (digitCount digits : Int) + exponent
  if digits = 0 ∨ top < -330 then ofMagnitude negative 0
  else if 310 < top then ofMagnitude negative infinityBits
  else ofRatio negative (digits * Nat.pow 10 exponent.toNat) (Nat.pow 10 (-exponent).toNat)

/-- The float nearest to `± digits * 2 ^ exponent`. -/
def ofScaled (negative : Bool) (digits : Nat) (exponent : Int) : Float :=
  let top := (digits.log2 : Int) + exponent
  if digits = 0 ∨ top < -1080 then ofMagnitude negative 0
  else if 1030 < top then ofMagnitude negative infinityBits
  else ofRatio negative (digits * Nat.pow 2 exponent.toNat) (Nat.pow 2 (-exponent).toNat)

/-- The value of a digit, letters in either case from ten on. -/
def digitValue (c : Char) : Nat :=
  let n := c.toNat
  if 48 ≤ n ∧ n ≤ 57 then n - 48
  else if 97 ≤ n ∧ n ≤ 122 then n - 87
  else if 65 ≤ n ∧ n ≤ 90 then n - 55
  else 255

def isDigitOf (base : Nat) (c : Char) : Bool := digitValue c < base

/-- The number that a digit sequence denotes. -/
def digitsValue (base : Nat) (cs : List Char) : Nat :=
  cs.foldl (fun acc c => acc * base + digitValue c) 0

/-- Splits off a leading sign; true for minus. -/
def splitSign : List Char → Bool × List Char
  | '-' :: cs => (true, cs)
  | '+' :: cs => (false, cs)
  | cs => (false, cs)

/-- Digits with at most one point among them, at least one digit in all. -/
def splitMantissa? (base : Nat) (cs : List Char) : Option (List Char × List Char × List Char) :=
  let whole := cs.takeWhile (isDigitOf base)
  let rest := cs.dropWhile (isDigitOf base)
  let (fraction, rest) := match rest with
    | '.' :: more => (more.takeWhile (isDigitOf base), more.dropWhile (isDigitOf base))
    | more => ([], more)
  if whole.isEmpty && fraction.isEmpty then none else some (whole, fraction, rest)

/-- A signed decimal integer that fills the whole text. -/
def readExponent? (cs : List Char) : Option Int :=
  let (negative, ds) := splitSign cs
  if ds.isEmpty || !ds.all (isDigitOf 10) then none
  else some (if negative then -(digitsValue 10 ds : Int) else digitsValue 10 ds)

/-- A decimal number: its digits as one integer, and the power of ten that scales it. -/
def readDecimal? (cs : List Char) : Option (Nat × Int) := do
  let (whole, fraction, rest) ← splitMantissa? 10 cs
  let shift : Int := -(fraction.length : Int)
  let digits := digitsValue 10 (whole ++ fraction)
  match rest with
  | [] => some (digits, shift)
  | c :: more =>
    if c = 'e' ∨ c = 'E' then (readExponent? more).map fun e => (digits, e + shift) else none

/-- The part of a hexadecimal number behind its `0x`; the binary exponent is mandatory. -/
def readHexadecimal? (cs : List Char) : Option (Nat × Int) := do
  let (whole, fraction, rest) ← splitMantissa? 16 cs
  let digits := digitsValue 16 (whole ++ fraction)
  match rest with
  | [] => none
  | c :: more =>
    if c = 'p' ∨ c = 'P' then
      (readExponent? more).map fun e => (digits, e - 4 * (fraction.length : Int))
    else none

def isBaseLetter (c : Char) : Bool := c.toLower = 'b' || c.toLower = 'o' || c.toLower = 'x'

/-- Whether every underscore follows a digit and is followed by one. -/
def separatesDigits (hex : Bool) : Bool → List Char → Bool
  | _, [] => true
  | afterDigit, '_' :: cs =>
    afterDigit && (match cs with
      | [] => false
      | c :: _ => isDigitOf (if hex then 16 else 10) c) && separatesDigits hex false cs
  | _, c :: cs => separatesDigits hex (isDigitOf (if hex then 16 else 10) c) cs

/-- Whether the underscores of an unsigned number separate digits; a base letter pair counts as a
digit. -/
def underscoresFit : List Char → Bool
  | '0' :: c :: cs =>
    if isBaseLetter c then separatesDigits (c.toLower = 'x') true cs
    else separatesDigits false false ('0' :: c :: cs)
  | cs => separatesDigits false false cs

def sameIgnoringCase (cs : List Char) (word : String) : Bool :=
  cs.map Char.toLower == word.toList

/-- Reads a number that fills the whole text; `none` if it is malformed or out of range. -/
def read? (s : String) : Option Float :=
  let (negative, cs) := splitSign s.toList
  if sameIgnoringCase cs "inf" || sameIgnoringCase cs "infinity" then
    some (ofMagnitude negative infinityBits)
  else if sameIgnoringCase s.toList "nan" then some (Float.ofBits 0x7ff8000000000001)
  else if !underscoresFit cs then none
  else
    let plain := cs.filter (· ≠ '_')
    let x? := match plain with
      | '0' :: c :: more =>
        if c.toLower = 'x' then
          (readHexadecimal? more).map fun (digits, e) => ofScaled negative digits e
        else (readDecimal? plain).map fun (digits, e) => ofDecimal negative digits e
      | _ => (readDecimal? plain).map fun (digits, e) => ofDecimal negative digits e
    x?.bind fun x => match value x with
      | .finite _ => some x
      | _ => none

/-- Reads a signed decimal integer that fills the whole text. -/
def readInt64? (s : String) : Option Int64 :=
  (readExponent? s.toList).bind fun i =>
    if leastInt ≤ i ∧ i ≤ greatestInt then some (Int64.ofInt i) else none

end VectorMachine.Binary64
