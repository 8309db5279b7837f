import VectorMachine.Text.Blank

/-!
# Statements

Assembly text is a sequence of statements, each ended by a semicolon, and a statement is a
sequence of words separated by blanks.  Neither a semicolon nor a blank between double quotes
separates anything; a backslash between quotes takes the next character with it.
-/

namespace VectorMachine.Assembler
set_option autoImplicit false

structure Statement where
  /-- The line of the first word, from one. -/
  line : Nat
  /-- The text without surrounding white space. -/
  text : String
  words : List String
  deriving DecidableEq, Repr, Inhabited

/-- A text that ends inside double quotes. -/
structure Unterminated where
  line : Nat
  text : String
  deriving DecidableEq, Repr

/-- What has been read of a text.  Sequences are kept in reverse. -/
structure Reader where
  done : List Statement := []
  words : List String := []
  word : List Char := []
  text : List Char := []
  line : Nat := 1
  /-- The line of the current statement's first word, zero before it. -/
  start : Nat := 0
  quoted : Bool := false

namespace Reader

def endWord (r : Reader) : Reader :=
  if r.word.isEmpty then r
  else { r with words := String.ofList r.word.reverse :: r.words, word := [] }

def trimmedText (r : Reader) : String := String.ofList (Text.trimBlankList r.text.reverse)

def endStatement (r : Reader) : Reader :=
  let r := r.endWord
  let done :=
    if r.words.isEmpty then r.done else ⟨r.start, r.trimmedText, r.words.reverse⟩ :: r.done
  { done := done, line := r.line, quoted := r.quoted }

/-- Takes a character as part of the statement's text only. -/
def keep (r : Reader) (c : Char) : Reader := { r with text := c :: r.text }

/-- Takes a character as part of the current word. -/
def extend (r : Reader) (c : Char) : Reader := { r.keep c with word := c :: r.word }

/-- Notes the line on which the statement starts. -/
def mark (r : Reader) : Reader := if r.start = 0 then { r with start := r.line } else r

def countLine (r : Reader) (c : Char) : Reader :=
  if c = '\n' then { r with line := r.line + 1 } else r

end Reader

def isSeparator (c : Char) : Bool := c = ' ' || c = '\t' || c = '\r' || c = '\n'

/-- Takes one character that is not between double quotes. -/
def readPlain (r : Reader) (c : Char) : Reader :=
  if c = ';' then r.endStatement
  else if isSeparator c then r.endWord.keep c
  else { r.mark.extend c with quoted := c = '"' }

def readFrom : Reader → List Char → Reader
  | r, [] => r
  | r, '\\' :: d :: cs =>
    if r.quoted then readFrom ((r.extend '\\').extend d) cs
    else readFrom (readPlain r '\\') (d :: cs)
  | r, c :: cs =>
    let r := r.countLine c
    if r.quoted then readFrom { r.extend c with quoted := c ≠ '"' } cs
    else readFrom (readPlain r c) cs

def statements (source : String) : Except Unterminated (List Statement) :=
  let r := readFrom {} source.toList
  if r.quoted then .error ⟨r.line, r.trimmedText⟩ else .ok r.endStatement.done.reverse

end VectorMachine.Assembler
