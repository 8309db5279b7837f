import VectorMachine.Host.Conversion

/-!
# Host data in cases

What a case hands to its program, and what it compares the outcome with.
-/

namespace VectorMachine
set_option autoImplicit false

/-- Whether two scalars are equal; zero has no sign here, and what is not a number equals
nothing. -/
def Scalar.same : Scalar → Scalar → Bool
  | .int a, .int b => a == b
  | .float a, .float b => a == b
  | .bool a, .bool b => a == b
  | .string a, .string b => a == b
  | _, _ => false

mutual

def Nested.same : Nested → Nested → Bool
  | .leaf x, .leaf y => x.same y
  | .node xs, .node ys => Nested.sameList xs ys
  | _, _ => false

def Nested.sameList : List Nested → List Nested → Bool
  | [], [] => true
  | x :: xs, y :: ys => Nested.same x y && Nested.sameList xs ys
  | _, _ => false

end

namespace Contract

inductive Datum where
  | nothing
  | value (kind : Host.Kind) (depth : Nat) (content : Nested)
  deriving Inhabited

namespace Datum

def int (n : Int) : Datum := .value .int64 0 (.leaf (.int (Int64.ofInt n)))
def float (x : Float) : Datum := .value .float64 0 (.leaf (.float x))
def bool (b : Bool) : Datum := .value .bool 0 (.leaf (.bool b))
def string (s : String) : Datum := .value .string 0 (.leaf (.string s))

def row {α : Type} (f : α → Scalar) (xs : List α) : Nested := .node (xs.map fun x => .leaf (f x))

def intRow (xs : List Int) : Nested := row (fun n => .int (Int64.ofInt n)) xs

def ints (xs : List Int) : Datum := .value .int64 1 (intRow xs)
def floats (xs : List Float) : Datum := .value .float64 1 (row .float xs)
def bools (xs : List Bool) : Datum := .value .bool 1 (row .bool xs)
def strings (xs : List String) : Datum := .value .string 1 (row .string xs)
def intRows (xs : List (List Int)) : Datum := .value .int64 2 (.node (xs.map intRow))
def floatRows (xs : List (List Float)) : Datum := .value .float64 2 (.node (xs.map (row .float)))
def boolRows (xs : List (List Bool)) : Datum := .value .bool 2 (.node (xs.map (row .bool)))

/-- Whether a host value is the datum, its type included. -/
def isValue : Datum → Option Host.Value → Bool
  | .nothing, none => true
  | .value k depth content, some v =>
    decide (k = Host.kindOf v.type) && depth == v.depth && content.same v.content
  | _, _ => false

/-- A new container that holds the datum; nothing makes it void. -/
def toContainer? (s : Store) : Datum → Option (CellId × Store)
  | .nothing => some s.fresh
  | .value k depth content =>
    match Host.toContainer s k depth content with
    | .ok (.ok r) => some r
    | _ => none

end Datum

end Contract

end VectorMachine
