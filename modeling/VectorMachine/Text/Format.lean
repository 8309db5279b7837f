import VectorMachine.Text.Quoted

/-!
# Patterns

A pattern is a text with verbs, each a percent sign, flags, a width, a precision and a letter.
Texts are put in for the verbs in their order.  A verb that does not fit and a text that is left
over show in the result, so that formatting never fails.
-/

namespace VectorMachine.Text
set_option autoImplicit false

/-- What stands between the percent sign and the letter of a verb. -/
structure VerbStyle where
  minus : Bool := false
  zero : Bool := false
  sharp : Bool := false
  space : Bool := false
  width : Option Nat := none
  precision : Option Nat := none

/-- Fills up to the width, on the right after a minus and else on the left. -/
def VerbStyle.pad (v : VerbStyle) (cs : List Char) : List Char :=
  let n := v.width.getD 0 - cs.length
  if v.minus then cs ++ List.replicate n ' '
  else List.replicate n (if v.zero then '0' else ' ') ++ cs

def VerbStyle.cut (v : VerbStyle) (cs : List Char) : List Char :=
  match v.precision with
  | some n => cs.take n
  | none => cs

/-- The bytes of a text in hexadecimal. -/
def hexBytes (v : VerbStyle) (upper : Bool) (cs : List Char) : List Char :=
  let bytes := (String.ofList cs).toUTF8.toList
  let bytes := match v.precision with
    | some n => bytes.take n
    | none => bytes
  let mark := if v.sharp then ['0', 'x'] else []
  let digits := bytes.map fun b => (if v.space then mark else []) ++ hexDigits 2 b.toNat
  let body := if v.space then [' '].intercalate digits else
    if bytes.isEmpty then [] else mark ++ digits.flatten
  if upper then body.map Char.toUpper else body

/-- A text under a verb; a letter that is no verb for texts is shown with the text. -/
def applyVerb (v : VerbStyle) (letter : Char) (cs : List Char) : List Char :=
  match letter with
  | 'v' => v.pad (if v.sharp then quoteList (v.cut cs) else v.cut cs)
  | 's' => v.pad (v.cut cs)
  | 'q' => v.pad (quoteList (v.cut cs))
  | 'x' => v.pad (hexBytes v false cs)
  | 'X' => v.pad (hexBytes v true cs)
  | 'T' => v.pad (v.cut "string".toList)
  | _ => '%' :: '!' :: letter :: "(string=".toList ++ v.pad (v.cut cs) ++ [')']

def readFlags : List Char → VerbStyle → VerbStyle × List Char
  | '-' :: r, v => readFlags r { v with minus := true, zero := false }
  | '0' :: r, v => readFlags r { v with zero := !v.minus }
  | '#' :: r, v => readFlags r { v with sharp := true }
  | ' ' :: r, v => readFlags r { v with space := true }
  | '+' :: r, v => readFlags r v
  | r, v => (v, r)

def readNumber (cs : List Char) : Option Nat × List Char :=
  let digits := cs.takeWhile Char.isDigit
  let n := digits.foldl (fun n c => n * 10 + (c.toNat - 48)) 0
  (if digits.isEmpty then none else some n, cs.dropWhile Char.isDigit)

def readStyle (cs : List Char) : VerbStyle × List Char :=
  let (v, cs) := readFlags cs {}
  let (width, cs) := readNumber cs
  let v := { v with width := width }
  match cs with
  | '.' :: r =>
    let (precision, r) := readNumber r
    ({ v with precision := some (precision.getD 0) }, r)
  | r => (v, r)

/-- The texts that no verb asked for. -/
def leftOver (args : List (List Char)) : List Char :=
  if args.isEmpty then []
  else "%!(EXTRA ".toList ++ ", ".toList.intercalate (args.map ("string=".toList ++ ·)) ++ [')']

/-- Formats at most `n` verbs. -/
def formatList : Nat → List Char → List (List Char) → List Char
  | 0, _, _ => []
  | n + 1, pattern, args =>
    let plain := pattern.takeWhile (· != '%')
    plain ++ match pattern.dropWhile (· != '%') with
      | [] => leftOver args
      | _ :: r =>
        let (v, r) := readStyle r
        match r, args with
        | [], _ => "%!(NOVERB)".toList ++ leftOver args
        | '%' :: r, _ => '%' :: formatList n r args
        | letter :: r, [] => '%' :: '!' :: letter :: "(MISSING)".toList ++ formatList n r []
        | letter :: r, a :: args => applyVerb v letter a ++ formatList n r args

def format (pattern : String) (args : List String) : String :=
  String.ofList (formatList (pattern.length + 1) pattern.toList (args.map String.toList))

/-- Like `format`, but a pattern without texts to put in stays as it is. -/
def formatAny (pattern : String) (args : List String) : String :=
  if args.isEmpty then pattern else format pattern args

end VectorMachine.Text
