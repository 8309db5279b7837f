import VectorMachine.Interpreter.DataError
import VectorMachine.Binary64.Reading

/-!
# Reading and delivering elements

Instructions read the elements of their sources as one type and deliver elements to their
destination.  Ints are read as floats, and everything but void is read as text.
-/

namespace VectorMachine
set_option autoImplicit false

/-- The text of an element, as programs see it. -/
def Scalar.text : Scalar → String
  | .int v => toString v.toInt
  | .float v => Binary64.elementLayout.text v
  | .bool v => toString v
  | .string v => v

def intToFloat (v : Int64) : Float := Binary64.ofInt v.toInt

namespace Store

def lanes (s : Store) (c : CellId) : Except Failure Lanes := (s.window c).mapError .abort

def refuse {α : Type} (c : DataCause) : Except Failure α := .error (.data c)

def readInts (s : Store) (c : CellId) : Except Failure (Array Int64) :=
  if s.type c ≠ .int then refuse (.usedAs (s.shape c) .int)
  else do
    match ← s.lanes c with
    | .ints xs => .ok xs
    | _ => .error (.abort .breakdown)

def readFloats (s : Store) (c : CellId) : Except Failure (Array Float) :=
  if s.type c ≠ .float ∧ s.type c ≠ .int then refuse (.usedAs (s.shape c) .float)
  else do
    match ← s.lanes c with
    | .floats xs => .ok xs
    | .ints xs => .ok (xs.map intToFloat)
    | _ => .error (.abort .breakdown)

def readBools (s : Store) (c : CellId) : Except Failure (Array Bool) :=
  if s.type c ≠ .bool then refuse (.usedAs (s.shape c) .bool)
  else do
    match ← s.lanes c with
    | .bools xs => .ok xs
    | _ => .error (.abort .breakdown)

def readStrings (s : Store) (c : CellId) : Except Failure (Array String) :=
  if s.isVoid c then refuse (.usedAs (s.shape c) .string)
  else do
    match ← s.lanes c with
    | .ints xs => .ok (xs.map fun v => (Scalar.int v).text)
    | .floats xs => .ok (xs.map fun v => (Scalar.float v).text)
    | .bools xs => .ok (xs.map fun v => (Scalar.bool v).text)
    | .strings xs => .ok xs

/-- The elements of `c` read as type `t`. -/
def readAs (s : Store) (t : DataType) (c : CellId) : Except Failure Lanes :=
  match t with
  | .int => (s.readInts c).map .ints
  | .float => (s.readFloats c).map .floats
  | .bool => (s.readBools c).map .bools
  | .string => (s.readStrings c).map .strings
  | .void | .any => refuse (.assignmentOf t)

/-- Gives `c` a type and lengths; a container that has them keeps its buffer. -/
def prepare (s : Store) (c : CellId) (t : DataType) (lengths : List Int) : Except Failure Store :=
  if s.type c = t ∧ s.lengths c = lengths then .ok s
  else (s.alloc c t lengths).mapError .abort

/-- Shapes `c` by type and lengths and stores elements into it. -/
def deliver (s : Store) (c : CellId) (lengths : List Int) (data : Lanes) :
    Except Failure Store := do
  let s ← s.prepare c data.type lengths
  .ok (s.write c data)

/-- Stores computed elements with their lengths into `c`. -/
def receive (s : Store) (c : CellId) (r : Except Failure (List Int × Lanes)) :
    Except Failure Store := do
  let (lengths, data) ← r
  s.deliver c lengths data

end Store

end VectorMachine
