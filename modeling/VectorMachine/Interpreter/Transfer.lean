import VectorMachine.Interpreter.Conversion

/-!
# Transfer instructions

Allocation, assignment, conversion, filling, and access to single elements of an array.
-/

namespace VectorMachine
set_option autoImplicit false

namespace Store

/-- A length operand: a nonnegative int scalar. -/
def readLength (s : Store) (c : CellId) : Except Failure Int :=
  if s.type c ≠ .int ∨ s.size c ≠ 1 then refuse (.lengthShape (s.shape c))
  else do
    let n ← (s.int c).mapError .abort
    if n.toInt < 0 then refuse (.negativeLength n.toInt) else .ok n.toInt

def allocate (s : Store) (t : DataType) (dst : CellId) (lengths : List CellId) :
    Except Failure Store :=
  if !t.isConcrete then refuse (.allocationOf t)
  else do
    let lengths ← lengths.mapM s.readLength
    (s.alloc dst t lengths).mapError .abort

/-- Allocates `dst` with the lengths of `like`, and with its type if none is given. -/
def allocateLike (s : Store) (t : DataType) (dst like : CellId) : Except Failure Store :=
  let t := if t.isConcrete then t else s.type like
  if !t.isConcrete then refuse (.allocationOf t)
  else (s.alloc dst t (s.lengths like)).mapError .abort

/-- The elements of `src` as type `t`, for an allocated scalar or for any other destination.  A
scalar keeps its rank and takes a single element only; any other destination takes the lengths
of the source. -/
def moveResult (s : Store) (t : DataType) (intoScalar : Bool) (src : CellId) :
    Except Failure (List Int × Lanes) :=
  if s.isVoid src then refuse .assignmentFromVoid
  else
    let t := if t.isConcrete then t else s.type src
    if intoScalar then
      if s.size src ≠ 1 then refuse (.intoScalar (s.shape src))
      else (s.readAs t src).map (([], ·))
    else (s.readAs t src).map ((s.lengths src, ·))

/-- Whether `c` is an allocated scalar. -/
def isScalar (s : Store) (c : CellId) : Bool := !s.isVoid c && s.rank c == 0

def move (s : Store) (t : DataType) (dst src : CellId) : Except Failure Store :=
  s.receive dst (s.moveResult t (s.isScalar dst) src)

def textToInt (text : String) : Except Failure Int64 :=
  match Binary64.readInt64? text with
  | some v => .ok v
  | none => match Binary64.read? text with
    | none => refuse (.castText text .int)
    | some x => match Binary64.value x with
      | .finite _ => .ok (Binary64.toInt64 x)
      | _ => refuse (.castText text .int)

def textToFloat (text : String) : Except Failure Float :=
  match Binary64.read? text with
  | some x => .ok x
  | none => refuse (.castText text .float)

/-- The elements of `c` converted to `t`. -/
def castLanes (s : Store) (t : DataType) (c : CellId) : Except Failure Lanes := do
  let data ← s.lanes c
  match t, data with
  | .int, .ints xs => .ok (.ints xs)
  | .int, .floats xs => .ok (.ints (xs.map Binary64.toInt64))
  | .int, .strings xs => (xs.mapM textToInt).map .ints
  | .float, .floats xs => .ok (.floats xs)
  | .float, .ints xs => .ok (.floats (xs.map intToFloat))
  | .float, .strings xs => (xs.mapM textToFloat).map .floats
  | .bool, .bools xs => .ok (.bools xs)
  | .string, _ => (s.readStrings c).map .strings
  | .void, _ | .any, _ => refuse (.castTo t)
  | _, _ => refuse (.castBetween data.type t)

/-- The elements of `src` converted one by one, for a destination that is void or has a shape;
an allocated destination must have the rank of the source. -/
def castResult (s : Store) (t : DataType) (into : Shape) (src : CellId) :
    Except Failure (List Int × Lanes) :=
  if s.isVoid src then refuse .castFromVoid
  else if into.type ≠ .void ∧ into.lengths.length ≠ s.rank src then
    refuse (.castRank (s.shape src) into)
  else (s.castLanes t src).map ((s.lengths src, ·))

def cast (s : Store) (t : DataType) (dst src : CellId) : Except Failure Store :=
  s.receive dst (s.castResult t (s.shape dst) src)

/-- The single element of `src` for every element of a shape. -/
def fillResult (s : Store) (t : DataType) (into : Shape) (src : CellId) :
    Except Failure (List Int × Lanes) :=
  if into.type = .void then refuse .fillOfVoid
  else if s.size src ≠ 1 then refuse (.fillFrom (s.shape src))
  else do
    let t := if t.isConcrete then t else into.type
    match (← s.readAs t src).replicateFirst? (elementCount into.lengths).toNat with
    | some data => .ok (into.lengths, data)
    | none => .error (.abort .breakdown)

/-- Stores the single element of `src` into every element of `dst`. -/
def fill (s : Store) (t : DataType) (dst src : CellId) : Except Failure Store :=
  s.receive dst (s.fillResult t (s.shape dst) src)

/-- Folds the remaining indices into a row-major index. -/
def flatIndexFrom (s : Store) : Int → List Int → List CellId → Except Failure Int
  | flat, n :: lengths, c :: indices =>
    if s.type c ≠ .int ∨ s.size c ≠ 1 then refuse (.indexShape (s.shape c))
    else do
      let i ← (s.int c).mapError .abort
      if i.toInt < 0 ∨ n ≤ i.toInt then refuse (.indexRange i.toInt n)
      else s.flatIndexFrom (wrap (flat * n + i.toInt)) lengths indices
  | flat, _, _ => .ok flat

/-- The row-major index that one int scalar for each dimension of `array` selects. -/
def flatIndex (s : Store) (array : CellId) (indices : List CellId) : Except Failure Int :=
  if indices.length ≠ s.rank array then refuse (.indexCount indices.length (s.shape array))
  else s.flatIndexFrom 0 (s.lengths array) indices

/-- One element of an array, read as type `t` through a cell that shows it. -/
def elementResult (s : Store) (t : DataType) (array : CellId) (indices : List CellId) :
    Except Failure (List Int × Lanes) := do
  let i ← s.flatIndex array indices
  let (e, s) := s.fresh
  let s ← (s.setElementView e array i).mapError .abort
  (s.readAs (if t.isConcrete then t else s.type e) e).map (([], ·))

/-- Assigns one element of an array to a scalar. -/
def moveElement (s : Store) (t : DataType) (dst array : CellId) (indices : List CellId) :
    Except Failure Store :=
  s.receive dst (s.elementResult t array indices)

/-- Makes `dst` show one element of an array. -/
def referElement (s : Store) (dst array : CellId) (indices : List CellId) :
    Except Failure Store := do
  let i ← s.flatIndex array indices
  (s.setElementView dst array i).mapError .abort

/-- Whether every lane of a condition equals `on`. -/
def branches (s : Store) (on : Bool) (c : CellId) : Except Failure Bool := do
  .ok ((← s.readBools c).all (· == on))

end Store

end VectorMachine
