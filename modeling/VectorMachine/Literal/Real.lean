import VectorMachine.Binary64.Reading
import VectorMachine.Text.Quoted

/-!
# Float literals

A literal is an optional sign, a decimal number and an optional type letter.  It denotes the
nearest float, and has to be in range.
-/

namespace VectorMachine.Literal
set_option autoImplicit false

open Binary64 (splitSign readDecimal? ofDecimal)

inductive RealError where
  | malformed
  /-- Holds the literal without its type letter. -/
  | outOfRange (digits : String)
  deriving DecidableEq, Repr

def RealError.message : RealError → String
  | .malformed => "not a float literal"
  | .outOfRange digits =>
    "strconv.ParseFloat: parsing " ++ Text.quote digits ++ ": value out of range"

def isTypeLetter (c : Char) : Bool := c = 'd' || c = 'D' || c = 'f' || c = 'F'

/-- Drops one trailing type letter. -/
def dropTypeLetter (cs : List Char) : List Char :=
  match cs.getLast? with
  | some c => if isTypeLetter c then cs.dropLast else cs
  | none => cs

def readRealList (cs : List Char) : Except RealError Float :=
  let body := dropTypeLetter cs
  let (negative, digits) := splitSign body
  match readDecimal? digits with
  | none => .error .malformed
  | some (n, e) =>
    let x := ofDecimal negative n e
    match Binary64.value x with
    | .finite _ => .ok x
    | _ => .error (.outOfRange (String.ofList body))

def readReal (s : String) : Except RealError Float := readRealList s.toList

end VectorMachine.Literal
