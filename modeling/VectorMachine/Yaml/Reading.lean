import VectorMachine.Yaml.Node
import VectorMachine.Yaml.Scalar

/-!
# Reading documents

Documents have their structure from indentation or from brackets.  Mappings and sequences, plain
and quoted scalars, comments and document marks are read; a text with any other construct counts
as malformed.
-/

namespace VectorMachine.Yaml
set_option autoImplicit false

/-- Skips at most `n` blanks, comments and line breaks.  Outside of brackets a tab may not stand
in front of the first token of a line. -/
def skipSpace (flow : Bool) : Nat → Bool → Cursor → Cursor
  | 0, _, c => c
  | n + 1, tabs, c =>
    match c.rest with
    | ' ' :: _ => skipSpace flow n tabs c.next
    | '\t' :: _ => if flow || tabs then skipSpace flow n tabs c.next else c
    | '\n' :: _ => skipSpace flow n false c.next
    | '#' :: r => skipSpace flow n tabs (c.skip (1 + (r.takeWhile (· != '\n')).length))
    | _ => c

namespace Cursor

/-- The next token outside of brackets. -/
def token (c : Cursor) (tabs : Bool) : Cursor := skipSpace false c.rest.length tabs c

/-- The next token inside of brackets. -/
def flowToken (c : Cursor) : Cursor := skipSpace true c.rest.length true c

/-- Whether a document ends here. -/
def atEnd (c : Cursor) : Bool := c.rest.isEmpty || atMark c

def startsEntry (c : Cursor) : Bool :=
  match c.rest with
  | '-' :: r => atGap r
  | _ => false

/-- Whether a colon that follows a key is here. -/
def startsValue (c : Cursor) : Bool :=
  match c.rest with
  | ':' :: r => atGap r
  | _ => false

def sees (c : Cursor) (x : Char) : Bool := c.rest.head? == some x

end Cursor

def readScalar (flow : Bool) (indent : Nat) (c : Cursor) : Option (Node × Cursor) :=
  match c.rest with
  | '"' :: r => do
    let (text, d) ← readQuoted true (r.length + 1) [] c.next
    some (.scalar c.line true (String.ofList text), d)
  | '\'' :: r => do
    let (text, d) ← readQuoted false (r.length + 1) [] c.next
    some (.scalar c.line true (String.ofList text), d)
  | r =>
    if plainStarts flow r then
      let (text, d) := readPlain flow indent r.length [] c
      some (.scalar c.line false (String.ofList text), d)
    else none

mutual

/-- Reads a scalar or a collection in brackets. -/
def readFlow (flow : Bool) (indent : Nat) : Nat → Cursor → Option (Node × Cursor)
  | 0, _ => none
  | n + 1, c =>
    if flow && atMark c then none
    else match c.rest with
      | '[' :: _ => do
        let (items, d) ← readFlowItems n [] c.next
        some (.sequence c.line items, d)
      | '\x7b' :: _ => do
        let (entries, d) ← readFlowEntries n [] c.next
        some (.mapping c.line entries, d)
      | _ => readScalar flow indent c

/-- Reads what follows a key in brackets, if there is anything. -/
def readFlowValue : Nat → Cursor → Option (Node × Cursor)
  | 0, _ => none
  | n + 1, c =>
    let c := c.flowToken
    if c.sees ',' || c.sees ']' || c.sees '\x7d' then some (.empty c.line, c)
    else readFlow true 0 n c

def readFlowItems : Nat → List Node → Cursor → Option (List Node × Cursor)
  | 0, _, _ => none
  | n + 1, items, c => do
    let c := c.flowToken
    if c.sees ']' then some (items, c.next)
    else
      let (key, d) ← readFlow true 0 n c
      let d := d.flowToken
      let (item, d) ←
        if d.sees ':' then do
          let (value, e) ← readFlowValue n d.next
          some (Node.mapping c.line [(key, value)], e)
        else some (key, d)
      let d := d.flowToken
      if d.sees ',' then readFlowItems n (items ++ [item]) d.next
      else if d.sees ']' then some (items ++ [item], d.next)
      else none

def readFlowEntries : Nat → List (Node × Node) → Cursor → Option (List (Node × Node) × Cursor)
  | 0, _, _ => none
  | n + 1, entries, c => do
    let c := c.flowToken
    if c.sees '\x7d' then some (entries, c.next)
    else
      let (key, d) ← readFlow true 0 n c
      let d := d.flowToken
      let (value, d) ← if d.sees ':' then readFlowValue n d.next else some (.empty d.line, d)
      let d := d.flowToken
      if d.sees ',' then readFlowEntries n (entries ++ [(key, value)]) d.next
      else if d.sees '\x7d' then some (entries ++ [(key, value)], d.next)
      else none

end

/-- The place of the colon, if the node read from `c` to `d` is the key of a mapping: all on one
line, and a colon behind it. -/
def keyEnd? (c d : Cursor) : Option Cursor :=
  let e := d.token true
  if c.line = d.line && d.line = e.line && e.startsValue then some e else none

mutual

/-- Reads a node whose parent has its tokens in column `indent - 1`.  `structured` allows it to
be a mapping or a sequence without brackets. -/
def readBlock : Nat → Nat → Bool → Cursor → Option (Node × Cursor)
  | 0, _, _, _ => none
  | n + 1, indent, structured, c =>
    if c.startsEntry then
      if structured then do
        let (items, d) ← readItems n c.column [] c
        some (.sequence c.line items, d)
      else none
    else do
      let (node, d) ← readFlow false indent n c
      match keyEnd? c d with
      | none => some (node, d)
      | some e =>
        if structured then
          let (entries, d) ← readEntries n c.column [] node e
          some (.mapping c.line entries, d)
        else none

/-- Reads the rest of a mapping in column `column`, from the colon behind `key` on. -/
def readEntries : Nat → Nat → List (Node × Node) → Node → Cursor →
    Option (List (Node × Node) × Cursor)
  | 0, _, _, _, _ => none
  | n + 1, column, entries, key, colon => do
    let c := colon.next.token true
    let (value, d) ←
      if c.atEnd then some (.empty colon.line, colon.next)
      else if c.line = colon.line then readBlock n (column + 1) false c
      else if column < c.column then readBlock n (column + 1) true c
      else if c.column = column && c.startsEntry then do
        let (items, d) ← readItems n column [] c
        some (.sequence c.line items, d)
      else some (.empty colon.line, colon.next)
    let entries := entries ++ [(key, value)]
    let e := d.token true
    if e.atEnd then some (entries, d)
    else if e.line = d.line then none
    else if e.column < column then some (entries, d)
    else if e.column = column then do
      let (key, d) ← readFlow false (column + 1) n e
      let colon ← keyEnd? e d
      readEntries n column entries key colon
    else none

/-- Reads the items of a sequence whose dashes stand in column `column`. -/
def readItems : Nat → Nat → List Node → Cursor → Option (List Node × Cursor)
  | 0, _, _, _ => none
  | n + 1, column, items, dash => do
    let c := dash.next.token false
    let (item, d) ←
      if c.atEnd then some (.empty dash.line, dash.next)
      else if c.line = dash.line || column < c.column then readBlock n (column + 1) true c
      else some (.empty dash.line, dash.next)
    let items := items ++ [item]
    let e := d.token true
    if e.atEnd then some (items, d)
    else if e.line = d.line then none
    else if e.column < column then some (items, d)
    else if e.column = column && e.startsEntry then readItems n column items e
    else if e.column = column then some (items, d)
    else none

end

/-- Whether a character may stand in a document. -/
def isAllowed (c : Char) : Bool :=
  let n := c.toNat
  n == 9 || n == 10 || n == 13 || (0x20 ≤ n && n ≤ 0x7e) || n == 0x85 ||
    (0xa0 ≤ n && n ≤ 0xfffd && n != 0xfeff) || 0x10000 ≤ n

/-- All line breaks in one form. -/
def unifyBreaks : List Char → List Char
  | '\r' :: '\n' :: r => '\n' :: unifyBreaks r
  | '\r' :: r => '\n' :: unifyBreaks r
  | c :: r => c :: unifyBreaks r
  | [] => []

/-- Skips marks of documents that ended. -/
def skipEndMarks : Nat → Cursor → Cursor
  | 0, c => c
  | n + 1, c =>
    let c := c.token false
    if atMark c && c.sees '.' then skipEndMarks n (c.skip 3) else c

/-- Reads the document after its start mark, if it has one. -/
def readContent (fuel : Nat) (c : Cursor) : Option Node :=
  if atMark c && c.sees '-' then
    let d := (c.skip 3).token true
    if d.atEnd then some (.empty c.line)
    else (readBlock fuel 0 (d.line != c.line) d).map (·.1)
  else (readBlock fuel 0 true c).map (·.1)

/-- Reads the first document of a text: no result for a malformed text, and no document in a text
of blanks and comments. -/
def readDocument (s : String) : Option (Option Node) :=
  let cs := unifyBreaks s.toList
  if cs.all isAllowed then
    let c := skipEndMarks cs.length { rest := cs }
    if c.rest.isEmpty then some none
    else (readContent (2 * cs.length + 2) c).map some
  else none

end VectorMachine.Yaml
