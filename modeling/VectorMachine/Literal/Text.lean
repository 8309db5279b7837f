/-!
# String literals

A string literal is a text between double quotes in which tab, line feed, carriage return, quote
and backslash are written as escapes.  Reading also accepts the first three as themselves.
-/

namespace VectorMachine.Literal
set_option autoImplicit false

inductive TextError where
  | unquoted
  | danglingEscape
  | unknownEscape (c : Char)
  deriving DecidableEq, Repr

/-- The character whose code point is the first byte of the encoding of `c`. -/
def leadByte (c : Char) : Char :=
  let n := c.toNat
  if n < 0x80 then c
  else if n < 0x800 then Char.ofNat (0xc0 + n / 0x40)
  else if n < 0x10000 then Char.ofNat (0xe0 + n / 0x1000)
  else Char.ofNat (0xf0 + n / 0x40000)

def TextError.message : TextError → String
  | .unquoted => "not a quoted string"
  | .danglingEscape => "dangling escape"
  | .unknownEscape c => "unknown escape \\" ++ (leadByte c).toString

/-- The letter behind the backslash, for a character that is written as an escape. -/
def escapeLetter? : Char → Option Char
  | '\t' => some 't'
  | '\n' => some 'n'
  | '\r' => some 'r'
  | '"' => some '"'
  | '\\' => some '\\'
  | _ => none

/-- The character that an escape letter stands for. -/
def unescape? : Char → Option Char
  | 't' => some '\t'
  | 'n' => some '\n'
  | 'r' => some '\r'
  | '"' => some '"'
  | '\\' => some '\\'
  | _ => none

def encodeChar (c : Char) : List Char :=
  match escapeLetter? c with
  | some l => ['\\', l]
  | none => [c]

def encode (cs : List Char) : List Char := cs.flatMap encodeChar

def decode : List Char → Except TextError (List Char)
  | [] => .ok []
  | ['\\'] => .error .danglingEscape
  | '\\' :: c :: cs =>
    match unescape? c with
    | some d => (decode cs).map (d :: ·)
    | none => .error (.unknownEscape c)
  | c :: cs => (decode cs).map (c :: ·)

def quoteTextList (cs : List Char) : List Char := '"' :: encode cs ++ ['"']

def quoteText (s : String) : String := String.ofList (quoteTextList s.toList)

def readTextList : List Char → Except TextError (List Char)
  | '"' :: cs => if cs.getLast? = some '"' then decode cs.dropLast else .error .unquoted
  | _ => .error .unquoted

def readText (s : String) : Except TextError String := (readTextList s.toList).map String.ofList

theorem unescape?_escapeLetter? {c l : Char} (h : escapeLetter? c = some l) :
    unescape? l = some c := by
  unfold escapeLetter? at h
  split at h <;> simp_all <;> subst h <;> rfl

end VectorMachine.Literal
