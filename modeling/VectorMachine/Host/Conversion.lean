import VectorMachine.Host.Value

/-!
# Containers from host values

Host elements come in more kinds than a buffer has types; an element of an integer kind becomes an
int, and one of a float kind a float.
-/

namespace VectorMachine.Host
set_option autoImplicit false

/-- The kinds of host elements. -/
inductive Kind where
  | int | int8 | int16 | int32 | int64
  | uint | uint8 | uint16 | uint32 | uint64
  | float32 | float64
  | bool | string
  | record | complex
  deriving DecidableEq, Repr, Inhabited

def Kind.all : List Kind :=
  [.int, .int8, .int16, .int32, .int64, .uint, .uint8, .uint16, .uint32, .uint64, .float32,
    .float64, .bool, .string, .record, .complex]

def Kind.name : Kind → String
  | .int => "int"
  | .int8 => "int8"
  | .int16 => "int16"
  | .int32 => "int32"
  | .int64 => "int64"
  | .uint => "uint"
  | .uint8 => "uint8"
  | .uint16 => "uint16"
  | .uint32 => "uint32"
  | .uint64 => "uint64"
  | .float32 => "float32"
  | .float64 => "float64"
  | .bool => "bool"
  | .string => "string"
  | .record => "struct \x7b\x7d"
  | .complex => "complex128"

/-- The element type that holds a kind. -/
def Kind.type? : Kind → Option DataType
  | .int | .int8 | .int16 | .int32 | .int64 => some .int
  | .uint | .uint8 | .uint16 | .uint32 => some .int
  | .float32 | .float64 => some .float
  | .bool => some .bool
  | .string => some .string
  | .uint64 | .record | .complex => none

/-- The kind that a container's elements have on the host side. -/
def kindOf : DataType → Kind
  | .int => .int64
  | .float => .float64
  | .bool => .bool
  | .string | .void | .any => .string

def typeName (k : Kind) (depth : Nat) : String :=
  String.join (List.replicate depth "[]") ++ k.name

inductive ConversionError where
  | unsupported (typeName : String)
  | ragged (typeName : String) (length expected : Nat)
  deriving DecidableEq, Repr

def ConversionError.message : ConversionError → String
  | .unsupported t => "unsupported host value type " ++ t
  | .ragged t n m =>
    "host value " ++ t ++ ": ragged array: length " ++ toString n ++ ", expected " ++ toString m

/-- The lengths along the first elements; below an empty list every length is zero. -/
def firstLengths : Nat → Nested → List Nat
  | 0, _ => []
  | d + 1, .node (x :: xs) => (xs.length + 1) :: firstLengths d x
  | d + 1, _ => 0 :: List.replicate d 0

/-- One walk after another; where the first one stops, the second does not begin. -/
def followedBy {ε : Type} (a b : List Scalar × Option ε) : List Scalar × Option ε :=
  match a with
  | (xs, none) => (xs ++ b.1, b.2)
  | (xs, some e) => (xs, some e)

/-- The elements in row-major order, up to the first list that has not the length that its depth
demands, and the length of this list with the demanded one. -/
def flatten : List Nat → Nested → List Scalar × Option (Nat × Nat)
  | [], .leaf x => ([x], none)
  | [], .node _ => ([], none)
  | n :: _, .leaf _ => ([], some (0, n))
  | n :: rest, .node xs =>
    if xs.length ≠ n then ([], some (xs.length, n))
    else (xs.map (flatten rest)).foldr followedBy ([], none)

/-- The elements of one type, others left out. -/
def lanesOf (t : DataType) (xs : List Scalar) : Lanes :=
  match t with
  | .int => .ints (xs.filterMap fun | .int v => some v | _ => none).toArray
  | .float => .floats (xs.filterMap fun | .float v => some v | _ => none).toArray
  | .bool => .bools (xs.filterMap fun | .bool v => some v | _ => none).toArray
  | .string | .void | .any => .strings (xs.filterMap fun | .string v => some v | _ => none).toArray

/-- A new container that holds a host value.  Its buffer is made for the lengths along the first
elements, before it is known whether the other lists have these lengths too. -/
def toContainer (s : Store) (k : Kind) (depth : Nat) (v : Nested) :
    Except ConversionError (Except Abort (CellId × Store)) :=
  match k.type? with
  | none => .error (.unsupported (typeName k depth))
  | some t =>
    let lengths := firstLengths depth v
    let size := elementCount (lengths.map Int.ofNat)
    let (xs, stop) := flatten lengths v
    if !Store.isAllocatable t size then .ok (.error .oversized)
    else if size < xs.length then .ok (.error .breakdown)
    else match stop with
      | some (n, m) => .error (.ragged (typeName k depth) n m)
      | none =>
        let (c, s) := s.fresh
        .ok ((s.setData c (lanesOf t xs) (lengths.map Int.ofNat)).map fun s => (c, s))

/-! ### Typed values -/

/-- The elements of a kind.  Nothing is known of those that no container holds. -/
abbrev Kind.Element : Kind → Type
  | .int | .int64 => Int64
  | .int8 => Int8
  | .int16 => Int16
  | .int32 => Int32
  | .uint => UInt64
  | .uint8 => UInt8
  | .uint16 => UInt16
  | .uint32 => UInt32
  | .float32 => Float32
  | .float64 => Float
  | .bool => Bool
  | .string => String
  | .uint64 | .record | .complex => Unit

/-- The scalar that holds an element; a number from 2⁶³ on comes out negative. -/
def Kind.widen : (k : Kind) → k.Element → Scalar
  | .int, v | .int64, v => .int v
  | .int8, v => .int v.toInt64
  | .int16, v => .int v.toInt64
  | .int32, v => .int v.toInt64
  | .uint, v => .int v.toInt64
  | .uint8, v => .int v.toUInt64.toInt64
  | .uint16, v => .int v.toUInt64.toInt64
  | .uint32, v => .int v.toUInt64.toInt64
  | .float32, v => .float v.toFloat
  | .float64, v => .float v
  | .bool, v => .bool v
  | .string, v => .string v
  | .uint64, _ | .record, _ | .complex, _ => default

/-- An element of a kind, or lists of them, nested to a depth. -/
abbrev Items (k : Kind) : Nat → Type
  | 0 => k.Element
  | d + 1 => List (Items k d)

/-- The value with every element widened. -/
def Items.widen {k : Kind} : {d : Nat} → Items k d → Nested
  | 0, x => .leaf (k.widen x)
  | _ + 1, xs => .node (xs.map widen)

def Items.toContainer (s : Store) {k : Kind} {d : Nat} (x : Items k d) :
    Except ConversionError (Except Abort (CellId × Store)) :=
  Host.toContainer s k d x.widen

end VectorMachine.Host
