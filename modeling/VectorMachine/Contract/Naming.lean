import VectorMachine.Text.Blank
import VectorMachine.Text.Quoted

/-!
# Names in reports

In reports blanks in names are underscores, and a name that was there before gets a number.
-/

namespace VectorMachine.Contract
set_option autoImplicit false

/-- A name without blanks and with all characters printable. -/
def reportName (name : String) : String :=
  String.ofList (name.toList.flatMap fun c =>
    if Text.isBlank c then ['_'] else if Text.isPrintable c then [c] else Text.quoteChar c)

/-- The decimal digits of a number, at least two. -/
def twoDigits (n : Nat) : String := if n < 10 then "0" ++ toString n else toString n

def numbered (name : String) (n : Nat) : String := name ++ "#" ++ twoDigits n

/-- A name that looks numbered, as its front and its number. -/
def splitNumbered? (name : String) : Option (String × Nat) :=
  let cs := name.toList.reverse
  let digits := (cs.takeWhile (· != '#')).reverse
  let front := (cs.drop (digits.length + 1)).reverse
  let n := digits.foldl (fun n c => n * 10 + (c.toNat - 48)) 0
  if !cs.contains '#' || !digits.all Char.isDigit || String.ofList digits != twoDigits n then none
  else if n = 0 && !front.isEmpty then none
  else if n < Nat.pow 2 31 then some (String.ofList front, n)
  else none

/-- How often each name was asked for. -/
abbrev Uses := List (String × Nat)

def Uses.count (u : Uses) (name : String) : Nat := (u.lookup name).getD 0

def Uses.increment (u : Uses) (name : String) : Uses :=
  (name, u.count name + 1) :: u.filter (·.1 != name)

/-- A name that was not given before, found after at most `fuel` tries. -/
def unusedName (name : String) : Nat → Uses → String × Uses
  | 0, u => (name, u)
  | fuel + 1, u =>
    let n := u.count name
    let u := u.increment name
    if n = 0 && name != "" then
      match splitNumbered? name with
      | some (front, k) => if k < u.count front then unusedName name fuel u else (name, u)
      | none => (name, u)
    else if u.count (numbered name n) = 0 then (numbered name n, u)
    else unusedName name fuel u

/-- The names under which cases are reported, in order. -/
def reportNames (names : List String) : List String :=
  (names.foldl (fun (out, u) name =>
    let (name, u) := unusedName (reportName name) (names.length + 2) u
    (out ++ [name], u)) (([], []) : List String × Uses)).1

end VectorMachine.Contract
