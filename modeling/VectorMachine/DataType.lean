/-!
# Element types

The tag of an element buffer or of an instruction's type annotation.  `void` is the tag of an
empty container, and `any` only occurs as an annotation.
-/

namespace VectorMachine
set_option autoImplicit false

inductive DataType where
  | void | int | float | bool | string | any
  deriving DecidableEq, Repr, Inhabited

namespace DataType

/-- All tags, in the order of their numbers. -/
def all : List DataType := [.void, .int, .float, .bool, .string, .any]

def name : DataType → String
  | .void => "void"
  | .int => "int"
  | .float => "float"
  | .bool => "bool"
  | .string => "string"
  | .any => "any"

/-- The types that a buffer can hold. -/
def isConcrete : DataType → Bool
  | .int | .float | .bool | .string => true
  | .void | .any => false

/-- Reads an annotation; `long` and `double` are second spellings of `int` and `float`. -/
def ofName? : String → Option DataType
  | "void" => some .void
  | "int" | "long" => some .int
  | "float" | "double" => some .float
  | "bool" => some .bool
  | "string" => some .string
  | "any" => some .any
  | _ => none

def ofNumber? (n : UInt8) : Option DataType := all[n.toNat]?

/-- The text of a tag number, also of one that names no tag. -/
def nameOfNumber (n : UInt8) : String :=
  match ofNumber? n with
  | some t => t.name
  | none => "DataType(" ++ toString n.toNat ++ ")"

theorem ofName?_name (t : DataType) : ofName? t.name = some t := by
  cases t <;> rfl

theorem name_injective {s t : DataType} (h : s.name = t.name) : s = t := by
  have := congrArg ofName? h
  simpa [ofName?_name] using this

/-- Types whose scalars fit a cache slot. -/
def isCacheable : DataType → Bool
  | .int | .float | .bool => true
  | .void | .string | .any => false

/-- Whether a scalar of type `source` can be read as `target`. -/
def converts (source target : DataType) : Bool :=
  source == target || (source == .int && target == .float)

end DataType

end VectorMachine
