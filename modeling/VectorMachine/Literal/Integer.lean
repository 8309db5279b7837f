import VectorMachine.Binary64.Reading

/-!
# Integer literals

A literal is an optional sign, decimal digits or a base mark with digits of that base, and an
optional `l` or `L`.  The number it denotes has to fit 64 bits.
-/

namespace VectorMachine.Literal
set_option autoImplicit false

open Binary64 (digitsValue isDigitOf splitSign leastInt greatestInt)

inductive IntegerError where
  | malformed
  | outOfRange
  deriving DecidableEq, Repr

def IntegerError.message : IntegerError → String
  | .malformed => "not an integer literal"
  | .outOfRange => "integer literal out of range"

/-- Drops one trailing `l` or `L`. -/
def dropLongSuffix (cs : List Char) : List Char :=
  match cs.getLast? with
  | some 'l' | some 'L' => cs.dropLast
  | _ => cs

/-- The base that a base mark stands for. -/
def markedBase? : Char → Option Nat
  | 'x' | 'X' => some 16
  | 'o' | 'O' => some 8
  | 'b' | 'B' => some 2
  | _ => none

/-- Splits an unsigned literal into its base and digits. -/
def splitBase : List Char → Nat × List Char
  | '0' :: c :: cs =>
    match markedBase? c with
    | some base => (base, cs)
    | none => (10, '0' :: c :: cs)
  | cs => (10, cs)

/-- The natural number that an unsigned literal denotes. -/
def readNatural? (cs : List Char) : Option Nat :=
  let (base, ds) := splitBase cs
  if ds.isEmpty || !ds.all (isDigitOf base) then none else some (digitsValue base ds)

/-- The unbounded integer that a literal denotes. -/
def denotedInteger? (cs : List Char) : Option Int :=
  let (negative, body) := splitSign cs
  (readNatural? (dropLongSuffix body)).map fun n => if negative then -(n : Int) else n

def readIntegerList (cs : List Char) : Except IntegerError Int64 :=
  match denotedInteger? cs with
  | none => .error .malformed
  | some i => if leastInt ≤ i ∧ i ≤ greatestInt then .ok (Int64.ofInt i) else .error .outOfRange

def readInteger (s : String) : Except IntegerError Int64 := readIntegerList s.toList

end VectorMachine.Literal
