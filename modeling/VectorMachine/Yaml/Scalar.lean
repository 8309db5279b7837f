import VectorMachine.Binary64.Reading

/-!
# Scalars in documents

Plain and quoted scalars.  A scalar may go on over several lines: the blanks around a line break
are dropped, one break becomes a blank, and each further one stays a break.
-/

namespace VectorMachine.Yaml
set_option autoImplicit false

/-- A place in a text. -/
structure Cursor where
  rest : List Char
  line : Nat := 1
  column : Nat := 0
  deriving Inhabited, Repr

namespace Cursor

def next (c : Cursor) : Cursor :=
  match c.rest with
  | [] => c
  | '\n' :: r => ⟨r, c.line + 1, 0⟩
  | _ :: r => ⟨r, c.line, c.column + 1⟩

def skip : Nat → Cursor → Cursor
  | 0, c => c
  | n + 1, c => skip n c.next

end Cursor

/-- Whether a word ends here. -/
def atGap : List Char → Bool
  | [] => true
  | c :: _ => c == ' ' || c == '\t' || c == '\n'

/-- Whether a line with nothing but a document mark starts here. -/
def atMark (c : Cursor) : Bool :=
  c.column == 0 &&
    match c.rest with
    | '-' :: '-' :: '-' :: r => atGap r
    | '.' :: '.' :: '.' :: r => atGap r
    | _ => false

def isFlowMark (c : Char) : Bool :=
  c == ',' || c == '[' || c == ']' || c == '\x7b' || c == '\x7d'

/-- Whether a plain scalar ends here: before the colon of a key, and inside brackets before
their punctuation. -/
def plainEnds (flow : Bool) : List Char → Bool
  | [] => true
  | ':' :: r => atGap r
  | '?' :: r => flow && atGap r
  | c :: _ => flow && isFlowMark c

/-- Whether a plain scalar may start here. -/
def plainStarts (flow : Bool) : List Char → Bool
  | [] => false
  | '-' :: r => !atGap r
  | '?' :: r | ':' :: r => !flow && !atGap r
  | c :: _ =>
    !(atGap [c] || isFlowMark c ||
      c ∈ ['#', '&', '*', '!', '|', '>', '\'', '"', '%', '@', '\x60'])

/-- The characters up to the next blank or the end of a plain scalar. -/
def word (flow : Bool) : List Char → List Char
  | [] => []
  | c :: r => if atGap (c :: r) || plainEnds flow (c :: r) then [] else c :: word flow r

/-- Blanks and line breaks between two words. -/
structure Gap where
  blanks : List Char := []
  breaks : Nat := 0

def Gap.text (g : Gap) : List Char :=
  match g.breaks with
  | 0 => g.blanks
  | 1 => [' ']
  | n + 2 => List.replicate (n + 1) '\n'

def Gap.isEmpty (g : Gap) : Bool := g.blanks.isEmpty && g.breaks == 0

/-- Reads at most `n` characters of a gap.  A tab may not stand in for the indentation. -/
def readGap (flow : Bool) (indent : Nat) : Nat → Gap → Cursor → Gap × Cursor
  | 0, g, c => (g, c)
  | n + 1, g, c =>
    match c.rest with
    | '\n' :: _ => readGap flow indent n { g with breaks := g.breaks + 1 } c.next
    | ' ' :: _ => readGap flow indent n { g with blanks := g.blanks ++ [' '] } c.next
    | '\t' :: _ =>
      if !flow && 0 < g.breaks && c.column < indent then (g, c)
      else readGap flow indent n { g with blanks := g.blanks ++ ['\t'] } c.next
    | _ => (g, c)

/-- Reads at most `n` words of a plain scalar.  Outside of brackets its lines are indented by
`indent`. -/
def readPlain (flow : Bool) (indent : Nat) : Nat → List Char → Cursor → List Char × Cursor
  | 0, text, c => (text, c)
  | n + 1, text, c =>
    let w := word flow c.rest
    let text := text ++ w
    let stop := c.skip w.length
    let (gap, c) := readGap flow indent stop.rest.length {} stop
    if w.isEmpty || gap.isEmpty || c.rest.head? == some '#' || atMark c ||
        (!flow && 0 < gap.breaks && c.column < indent) || plainEnds flow c.rest then (text, stop)
    else readPlain flow indent n (text ++ gap.text) c

/-- The character for a letter after a backslash. -/
def escape? : Char → Option Char
  | '0' => some '\x00'
  | 'a' => some '\x07'
  | 'b' => some '\x08'
  | 't' | '\t' => some '\t'
  | 'n' => some '\n'
  | 'v' => some '\x0b'
  | 'f' => some '\x0c'
  | 'r' => some '\r'
  | 'e' => some '\x1b'
  | ' ' => some ' '
  | '"' => some '"'
  | '/' => some '/'
  | '\\' => some '\\'
  | 'N' => some '\u0085'
  | '_' => some '\u00a0'
  | 'L' => some '\u2028'
  | 'P' => some '\u2029'
  | _ => none

/-- How many hexadecimal digits follow a letter after a backslash. -/
def escapeWidth : Char → Nat
  | 'x' => 2
  | 'u' => 4
  | 'U' => 8
  | _ => 0

def isHexDigit (c : Char) : Bool := c.isDigit || ('a' ≤ c && c ≤ 'f') || ('A' ≤ c && c ≤ 'F')

/-- The character with a hexadecimal number. -/
def numbered? (digits : List Char) : Option Char :=
  let n := digits.foldl (fun n c => n * 16 + Binary64.digitValue c) 0
  if digits.all isHexDigit && n.isValidChar then some (Char.ofNat n) else none

/-- Reads at most `n` characters of a scalar between quotes, and the quote at its end. -/
def readQuoted (double : Bool) : Nat → List Char → Cursor → Option (List Char × Cursor)
  | 0, _, _ => none
  | n + 1, text, c =>
    if atMark c then none
    else match double, c.rest with
      | _, [] => none
      | true, '"' :: _ => some (text, c.next)
      | true, '\\' :: '\n' :: _ =>
        let (gap, c) := readGap true 0 c.rest.length {} c.next
        readQuoted double n (text ++ List.replicate (gap.breaks - 1) '\n') c
      | true, '\\' :: l :: r =>
        if escapeWidth l = 0 then
          match escape? l with
          | some x => readQuoted double n (text ++ [x]) (c.skip 2)
          | none => none
        else if r.length < escapeWidth l then none
        else match numbered? (r.take (escapeWidth l)) with
          | some x => readQuoted double n (text ++ [x]) (c.skip (2 + escapeWidth l))
          | none => none
      | false, '\'' :: '\'' :: _ => readQuoted double n (text ++ ['\'']) (c.skip 2)
      | false, '\'' :: _ => some (text, c.next)
      | _, x :: r =>
        if atGap (x :: r) then
          let (gap, c) := readGap true 0 c.rest.length {} c
          readQuoted double n (text ++ gap.text) c
        else readQuoted double n (text ++ [x]) c.next

end VectorMachine.Yaml
