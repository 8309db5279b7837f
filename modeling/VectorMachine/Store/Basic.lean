import VectorMachine.Lanes
import VectorMachine.Fault

/-!
# The store of containers

A container is a cell of the store.  Its data are a window into a numbered buffer, so that two
cells may show parts of one buffer.  A cell may instead delegate to another cell; following these
links ends at the root, and every accessor and every change of data goes to the root.

An operation that fails returns no store, so a failure changes nothing.
-/

namespace VectorMachine
set_option autoImplicit false

abbrev CellId := Nat

abbrev BufferId := Nat

/-- A container: the shape of its data, where they are, and the cell it delegates to.  Without a
buffer it is void. -/
structure Cell where
  buffer : Option BufferId := none
  size : Int := 0
  lengths : List Int := []
  offset : Nat := 0
  target : Option CellId := none
  deriving DecidableEq, Repr, Inhabited

structure Store where
  cells : Array Cell := #[]
  buffers : Array Lanes := #[]
  deriving Inhabited

/-- The representative of an integer among the signed 64 bit numbers. -/
def wrap (i : Int) : Int := i.bmod (Nat.pow 2 64)

/-- The number of elements of an array with the given lengths, in 64 bit arithmetic. -/
def elementCount (lengths : List Int) : Int := wrap (lengths.foldr (· * ·) 1)

/-- No allocation takes more bytes. -/
def greatestAllocation : Int := Nat.pow 2 48

namespace Store

def cell (s : Store) (c : CellId) : Cell := s.cells[c]?.getD {}

def lanes? (s : Store) (x : Cell) : Option Lanes := x.buffer.bind fun b => s.buffers[b]?

/-- Follows at most `n` links. -/
def follow (s : Store) : Nat → CellId → CellId
  | 0, c => c
  | n + 1, c =>
    match (s.cell c).target with
    | none => c
    | some d => follow s n d

/-- The end of the chain of links from `c`. -/
def root (s : Store) (c : CellId) : CellId := s.follow s.cells.size c

def rootCell (s : Store) (c : CellId) : Cell := s.cell (s.root c)

def isAlias (s : Store) (c : CellId) : Bool := (s.cell c).target.isSome

/-- All elements of the buffer that `c` shows a part of. -/
def buffer? (s : Store) (c : CellId) : Option Lanes := s.lanes? (s.rootCell c)

def type (s : Store) (c : CellId) : DataType := (s.buffer? c).elim .void Lanes.type

def bufferSize (s : Store) (c : CellId) : Nat := (s.buffer? c).elim 0 Lanes.size

def isVoid (s : Store) (c : CellId) : Bool := s.type c == .void

def lengths (s : Store) (c : CellId) : List Int := (s.rootCell c).lengths

def rank (s : Store) (c : CellId) : Nat := (s.lengths c).length

def size (s : Store) (c : CellId) : Int := (s.rootCell c).size

def offset (s : Store) (c : CellId) : Nat := (s.rootCell c).offset

def fresh (s : Store) : CellId × Store :=
  (s.cells.size, { s with cells := s.cells.push {} })

def freshMany (s : Store) (n : Nat) : Array CellId × Store :=
  ((Array.range n).map (s.cells.size + ·), { s with cells := s.cells ++ Array.replicate n {} })

def setCell (s : Store) (c : CellId) (f : Cell → Cell) : Store :=
  { s with cells := s.cells.modify c f }

/-- Shows `lengths` elements of buffer `b` from `offset` on in the root of `c`. -/
def present (s : Store) (c : CellId) (b : Option BufferId) (offset : Nat) (lengths : List Int) :
    Store :=
  s.setCell (s.root c) fun x =>
    { x with buffer := b, size := elementCount lengths, lengths := lengths, offset := offset }

def exceedsBuffer (size : Int) (offset length : Nat) : Abort :=
  .fault { operation := "set data",
           detail := toString size ++ " elements at offset " ++ toString offset ++
             " exceed buffer of " ++ toString length }

/-- Gives the root of `c` a new buffer that holds `data`, shaped by `lengths`. -/
def setData (s : Store) (c : CellId) (data : Lanes) (lengths : List Int) : Except Abort Store :=
  if elementCount lengths > data.size then
    .error (exceedsBuffer (elementCount lengths) 0 data.size)
  else
    let b := s.buffers.size
    .ok (({ s with buffers := s.buffers.push data } : Store).present c (some b) 0 lengths)

/-- Makes the root of `c` void with the given lengths, which must hold no element. -/
def setVoid (s : Store) (c : CellId) (lengths : List Int) : Except Abort Store :=
  if elementCount lengths > 0 then .error (exceedsBuffer (elementCount lengths) 0 0)
  else .ok (s.present c none 0 lengths)

def isAllocated (s : Store) (c : CellId) (t : DataType) (lengths : List Int) : Bool :=
  s.type c == t && s.offset c == 0 && s.lengths c == lengths && (s.bufferSize c : Int) == s.size c

/-- Whether a buffer of `n` elements of type `t` can be made. -/
def isAllocatable (t : DataType) (n : Int) : Bool :=
  0 ≤ n && n * Lanes.elementBytes t ≤ greatestAllocation

/-- Shapes the root of `c` as an array of zero elements, no lengths making a scalar.  A root that
already has exactly this type and shape keeps its data. -/
def alloc (s : Store) (c : CellId) (t : DataType) (lengths : List Int) : Except Abort Store :=
  if s.isAllocated c t lengths then .ok s
  else match lengths.find? (· < 0) with
    | some n => .error (.fault { operation := "alloc", detail := "negative length " ++ toString n })
    | none =>
      let n := elementCount lengths
      if !t.isConcrete then s.setVoid c lengths
      else if !isAllocatable t n then .error .oversized
      else match Lanes.zeros? t n.toNat with
        | some data => s.setData c data lengths
        | none => .error .oversized

/-- Links `c` to the root of `target`, unless that is `c` itself. -/
def link (s : Store) (c target : CellId) : Store :=
  let r := s.root target
  if r = c then s else s.setCell c fun x => { x with target := some r }

/-- Cuts the link of `c`; its own data, kept from before, show again. -/
def unlink (s : Store) (c : CellId) : Store := s.setCell c fun x => { x with target := none }

/-- Drops the link and the data of `c` itself. -/
def free (s : Store) (c : CellId) : Store := s.setCell c fun _ => {}

/-- Makes the root of `c` a scalar that shows the element of `array` at a flat index; both then
share one buffer. -/
def setElementView (s : Store) (c array : CellId) (index : Int) : Except Abort Store :=
  let a := s.rootCell array
  if index < 0 ∨ a.size ≤ index then
    .error (.fault { operation := "element view",
                     detail := "index " ++ toString index ++ " outside size " ++ toString a.size })
  else
    let offset := a.offset + index.toNat
    if s.bufferSize array < offset + 1 then .error (exceedsBuffer 1 offset (s.bufferSize array))
    else .ok (s.present c a.buffer offset [])

/-- The elements that `c` shows. -/
def window (s : Store) (c : CellId) : Except Abort Lanes :=
  match s.buffer? c with
  | none => .error .breakdown
  | some data =>
    let x := s.rootCell c
    if x.size < 0 ∨ (data.size : Int) < x.offset + x.size then .error .breakdown
    else .ok (data.extract x.offset x.size.toNat)

/-- Writes into the elements that `c` shows, in place. -/
def write (s : Store) (c : CellId) (data : Lanes) : Store :=
  match (s.rootCell c).buffer with
  | none => s
  | some b => { s with buffers := s.buffers.modify b (Lanes.overwrite (s.offset c) · data) }

/-- A new cell with a copy of the elements that `c` shows. -/
def clone (s : Store) (c : CellId) : Except Abort (CellId × Store) :=
  let (d, s') := s.fresh
  if s.isVoid c then .ok (d, s')
  else do
    let s' ← s'.alloc d (s.type c) (s.lengths c)
    let data ← s.window c
    .ok (d, s'.write d data)

def ofScalar (s : Store) (x : Scalar) : CellId × Store :=
  let (c, s) := s.fresh
  let b := s.buffers.size
  (c, ({ s with buffers := s.buffers.push (Lanes.ofScalar x) } : Store).present c (some b) 0 [])

/-- A new cell of rank one. -/
def ofLanes (s : Store) (data : Lanes) : CellId × Store :=
  let (c, s) := s.fresh
  let b := s.buffers.size
  (c, ({ s with buffers := s.buffers.push data } : Store).present c (some b) 0 [(data.size : Int)])

/-- The names of the scalar accessors in faults. -/
def accessorName : DataType → String
  | .int => "int64"
  | .float => "float64"
  | .bool => "bool"
  | .string => "string"
  | t => t.name

def holdsType (operation : String) (t : DataType) : Abort :=
  .fault { operation := operation, detail := "container holds " ++ t.name }

/-- The first element that `c` shows, which must be of type `t`. -/
def scalarAs (s : Store) (operation : String) (c : CellId) (t : DataType) : Except Abort Scalar :=
  if s.type c ≠ t then .error (holdsType operation (s.type c))
  else match (s.buffer? c).bind fun data => data.get? (s.offset c) with
    | some x => .ok x
    | none =>
      .error (.fault { operation := operation,
                       detail := "offset " ++ toString (s.offset c) ++ " outside buffer of " ++
                         toString (s.bufferSize c) })

def scalar (s : Store) (c : CellId) (t : DataType) : Except Abort Scalar :=
  s.scalarAs (accessorName t) c t

def int (s : Store) (c : CellId) : Except Abort Int64 := do
  match ← s.scalar c .int with
  | .int v => .ok v
  | _ => .error .breakdown

def float (s : Store) (c : CellId) : Except Abort Float := do
  match ← s.scalar c .float with
  | .float v => .ok v
  | _ => .error .breakdown

def bool (s : Store) (c : CellId) : Except Abort Bool := do
  match ← s.scalar c .bool with
  | .bool v => .ok v
  | _ => .error .breakdown

def string (s : Store) (c : CellId) : Except Abort String := do
  match ← s.scalar c .string with
  | .string v => .ok v
  | _ => .error .breakdown

/-- Stores the first element; a void root becomes a scalar. -/
def setScalar (s : Store) (c : CellId) (x : Scalar) : Except Abort Store :=
  if s.isVoid c then s.setData c (Lanes.ofScalar x) []
  else do
    let _ ← s.scalarAs ("set " ++ accessorName x.type) c x.type
    .ok (s.write c (Lanes.ofScalar x))

/-- All elements of the buffer of `c`, which must be of type `t`. -/
def bufferAs (s : Store) (c : CellId) (t : DataType) : Except Abort Lanes :=
  match s.buffer? c with
  | some data =>
    if data.type = t then .ok data else .error (holdsType (accessorName t ++ "s") data.type)
  | none => .error (holdsType (accessorName t ++ "s") .void)

end Store

end VectorMachine
