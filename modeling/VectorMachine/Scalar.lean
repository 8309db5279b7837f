import VectorMachine.DataType

/-!
# Scalars

One element of a buffer.
-/

namespace VectorMachine
set_option autoImplicit false

inductive Scalar where
  | int (v : Int64)
  | float (v : Float)
  | bool (v : Bool)
  | string (v : String)
  deriving Inhabited

namespace Scalar

def type : Scalar → DataType
  | .int _ => .int
  | .float _ => .float
  | .bool _ => .bool
  | .string _ => .string

theorem isConcrete_type (x : Scalar) : x.type.isConcrete = true := by
  cases x <;> rfl

end Scalar

end VectorMachine
