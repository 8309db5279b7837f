import VectorMachine.Interpreter.Conversion

/-!
# Elementwise instructions

Arithmetic, comparisons and connectives combine the elements of two sources position by position;
a source of a single element is used at every position.  Sources are read before the destination
changes, so they may share their data with it.  Where two containers show parts of one buffer that
overlap but do not start together, computing and storing one position after another would differ.
-/

namespace VectorMachine
set_option autoImplicit false

namespace Arithmetic

/-- Integer arithmetic modulo 2^64; division rounds toward zero. -/
def onInts : Arithmetic → Int64 → Int64 → Int64
  | .add, a, b => a + b
  | .sub, a, b => a - b
  | .mul, a, b => a * b
  | .div, a, b => a / b
  | .rem, a, b => a % b

def onFloats : Arithmetic → Float → Float → Float
  | .add, a, b => a + b
  | .sub, a, b => a - b
  | .mul, a, b => a * b
  | .div, a, b => a / b
  | .rem, a, b => Binary64.remainder a b

def divides : Arithmetic → Bool
  | .div | .rem => true
  | .add | .sub | .mul => false

/-- Whether integer arithmetic is defined for a right operand. -/
def admitsDivisor (op : Arithmetic) (b : Int64) : Bool := !(op.divides && b == 0)

end Arithmetic

namespace Comparison

def onInts : Comparison → Int64 → Int64 → Bool
  | .eq, a, b => a == b
  | .neq, a, b => a != b
  | .gt, a, b => a > b
  | .lt, a, b => a < b
  | .geq, a, b => a ≥ b
  | .leq, a, b => a ≤ b

def onFloats : Comparison → Float → Float → Bool
  | .eq, a, b => a == b
  | .neq, a, b => a != b
  | .gt, a, b => a > b
  | .lt, a, b => a < b
  | .geq, a, b => a ≥ b
  | .leq, a, b => a ≤ b

/-- Texts are compared by code points. -/
def onStrings : Comparison → String → String → Bool
  | .eq, a, b => a == b
  | .neq, a, b => a != b
  | .gt, a, b => b < a
  | .lt, a, b => a < b
  | .geq, a, b => !(a < b)
  | .leq, a, b => !(b < a)

/-- Booleans are only compared for equality. -/
def onBools? : Comparison → Option (Bool → Bool → Bool)
  | .eq => some fun a b => a == b
  | .neq => some fun a b => a != b
  | _ => none

end Comparison

namespace Connective

def apply : Connective → Bool → Bool → Bool
  | .and, a, b => a && b
  | .or, a, b => a || b

/-- The value that decides the result whatever the other operand is. -/
def decider : Connective → Bool
  | .and => false
  | .or => true

/-- Whether the left operand alone determines the result. -/
def isDecidedBy (op : Connective) (xs : Array Bool) : Bool := xs.all (· == op.decider)

end Connective

namespace Store

variable {α β : Type}

/-- Exactly `n` elements: the given ones, or copies of the first. -/
def broadcast (n : Nat) (xs : Array α) : Except Failure (Array α) :=
  if xs.size = n then .ok xs
  else match xs[0]? with
    | some x => .ok (Array.replicate n x)
    | none => .error (.abort .breakdown)

/-- Combines two sources position by position over `lengths`. -/
def combine (f : α → α → β) (lengths : List Int) (xs ys : Array α) : Except Failure (Array β) := do
  let n := (elementCount lengths).toNat
  .ok (Array.zipWith f (← broadcast n xs) (← broadcast n ys))

/-- The lengths of the result of an elementwise instruction: those of the arrays among its
sources, which must agree, and none if both are scalars. -/
def broadcastLengths (s : Store) (a b : CellId) : Except Failure (List Int) :=
  if s.rank a = 0 then .ok (s.lengths b)
  else if s.rank b = 0 ∨ s.lengths a = s.lengths b then .ok (s.lengths a)
  else refuse (.lengths (s.shape a) (s.shape b))

def checkDivisors (op : Arithmetic) (ys : Array Int64) : Except Failure Unit :=
  if ys.all op.admitsDivisor then .ok () else refuse (.zeroDivisor op)

def arithmeticResult (s : Store) (op : Arithmetic) (t : DataType) (a b : CellId) :
    Except Failure (List Int × Lanes) := do
  let lengths ← s.broadcastLengths a b
  match t with
  | .int =>
    let xs ← s.readInts a
    let ys ← s.readInts b
    checkDivisors op ys
    .ok (lengths, .ints (← combine op.onInts lengths xs ys))
  | .float =>
    let xs ← s.readFloats a
    let ys ← s.readFloats b
    .ok (lengths, .floats (← combine op.onFloats lengths xs ys))
  | .string =>
    if op ≠ .add then refuse (.onStrings op)
    let xs ← s.readStrings a
    let ys ← s.readStrings b
    .ok (lengths, .strings (← combine (· ++ ·) lengths xs ys))
  | .bool | .void | .any => refuse (.arithmeticOf t)

def compareResult (s : Store) (op : Comparison) (t : DataType) (a b : CellId) :
    Except Failure (List Int × Lanes) := do
  let lengths ← s.broadcastLengths a b
  match t with
  | .int =>
    let xs ← s.readInts a
    let ys ← s.readInts b
    .ok (lengths, .bools (← combine op.onInts lengths xs ys))
  | .float =>
    let xs ← s.readFloats a
    let ys ← s.readFloats b
    .ok (lengths, .bools (← combine op.onFloats lengths xs ys))
  | .string =>
    let xs ← s.readStrings a
    let ys ← s.readStrings b
    .ok (lengths, .bools (← combine op.onStrings lengths xs ys))
  | .bool =>
    match op.onBools? with
    | none => refuse (.onBooleans op)
    | some f =>
      let xs ← s.readBools a
      let ys ← s.readBools b
      .ok (lengths, .bools (← combine f lengths xs ys))
  | .void | .any => refuse (.comparisonOf t)

/-- A left operand that decides is copied, and the right one is not looked at. -/
def connectResult (s : Store) (op : Connective) (t : DataType) (a b : CellId) :
    Except Failure (List Int × Lanes) :=
  if t ≠ .bool then refuse (.connectiveOn op t)
  else do
    let xs ← s.readBools a
    if op.isDecidedBy xs then .ok (s.lengths a, .bools xs)
    else
      let lengths ← s.broadcastLengths a b
      let ys ← s.readBools b
      .ok (lengths, .bools (← combine op.apply lengths xs ys))

def negateResult (s : Store) (t : DataType) (a : CellId) : Except Failure (List Int × Lanes) :=
  match t with
  | .int => do .ok (s.lengths a, .ints ((← s.readInts a).map (- ·)))
  | .float => do .ok (s.lengths a, .floats ((← s.readFloats a).map (- ·)))
  | .bool | .string | .void | .any => refuse (.negationOf t)

def complementResult (s : Store) (t : DataType) (a : CellId) : Except Failure (List Int × Lanes) :=
  if t ≠ .bool then refuse (.notOf t)
  else do .ok (s.lengths a, .bools ((← s.readBools a).map (! ·)))

def arithmetic (s : Store) (op : Arithmetic) (t : DataType) (dst a b : CellId) :
    Except Failure Store :=
  s.receive dst (s.arithmeticResult op t a b)

def compare (s : Store) (op : Comparison) (t : DataType) (dst a b : CellId) :
    Except Failure Store :=
  s.receive dst (s.compareResult op t a b)

def connect (s : Store) (op : Connective) (t : DataType) (dst a b : CellId) :
    Except Failure Store :=
  s.receive dst (s.connectResult op t a b)

def negate (s : Store) (t : DataType) (dst a : CellId) : Except Failure Store :=
  s.receive dst (s.negateResult t a)

def complement (s : Store) (t : DataType) (dst a : CellId) : Except Failure Store :=
  s.receive dst (s.complementResult t a)

end Store

end VectorMachine
