import VectorMachine.Scalar

/-!
# Lanes

A sequence of elements of one type: the whole content of a buffer, or a part of it.
-/

namespace VectorMachine
set_option autoImplicit false

inductive Lanes where
  | ints (xs : Array Int64)
  | floats (xs : Array Float)
  | bools (xs : Array Bool)
  | strings (xs : Array String)
  deriving Inhabited

namespace Lanes

variable {α : Type}

def type : Lanes → DataType
  | .ints _ => .int
  | .floats _ => .float
  | .bools _ => .bool
  | .strings _ => .string

def size : Lanes → Nat
  | .ints xs => xs.size
  | .floats xs => xs.size
  | .bools xs => xs.size
  | .strings xs => xs.size

/-- The bytes that one element of a type takes, for the limit on allocations. -/
def elementBytes : DataType → Nat
  | .int | .float => 8
  | .bool => 1
  | .string => 16
  | .void | .any => 0

/-- Zero elements of a concrete type: 0, 0.0, false or the empty text. -/
def zeros? (t : DataType) (n : Nat) : Option Lanes :=
  match t with
  | .int => some (.ints (Array.replicate n 0))
  | .float => some (.floats (Array.replicate n (Float.ofBits 0)))
  | .bool => some (.bools (Array.replicate n false))
  | .string => some (.strings (Array.replicate n ""))
  | .void | .any => none

def ofScalar : Scalar → Lanes
  | .int v => .ints #[v]
  | .float v => .floats #[v]
  | .bool v => .bools #[v]
  | .string v => .strings #[v]

def get? : Lanes → Nat → Option Scalar
  | .ints xs, i => xs[i]?.map .int
  | .floats xs, i => xs[i]?.map .float
  | .bools xs, i => xs[i]?.map .bool
  | .strings xs, i => xs[i]?.map .string

def toList : Lanes → List Scalar
  | .ints xs => xs.toList.map .int
  | .floats xs => xs.toList.map .float
  | .bools xs => xs.toList.map .bool
  | .strings xs => xs.toList.map .string

/-- The `n` elements from `lo` on. -/
def extract (lo n : Nat) : Lanes → Lanes
  | .ints xs => .ints (xs.extract lo (lo + n))
  | .floats xs => .floats (xs.extract lo (lo + n))
  | .bools xs => .bools (xs.extract lo (lo + n))
  | .strings xs => .strings (xs.extract lo (lo + n))

/-- Replaces the elements of `xs` from `lo` on by those of `ys`, as far as they fit. -/
def overwriteArray (xs : Array α) (lo : Nat) (ys : Array α) : Array α :=
  xs.mapIdx fun i x => if lo ≤ i then ys[i - lo]?.getD x else x

/-- Replaces elements from `lo` on; elements of another type change nothing. -/
def overwrite (lo : Nat) : Lanes → Lanes → Lanes
  | .ints xs, .ints ys => .ints (overwriteArray xs lo ys)
  | .floats xs, .floats ys => .floats (overwriteArray xs lo ys)
  | .bools xs, .bools ys => .bools (overwriteArray xs lo ys)
  | .strings xs, .strings ys => .strings (overwriteArray xs lo ys)
  | xs, _ => xs

/-- `n` copies of the first element. -/
def replicateFirst? (n : Nat) : Lanes → Option Lanes
  | .ints xs => xs[0]?.map fun x => .ints (Array.replicate n x)
  | .floats xs => xs[0]?.map fun x => .floats (Array.replicate n x)
  | .bools xs => xs[0]?.map fun x => .bools (Array.replicate n x)
  | .strings xs => xs[0]?.map fun x => .strings (Array.replicate n x)

theorem isConcrete_type (xs : Lanes) : xs.type.isConcrete = true := by
  cases xs <;> rfl

@[simp] theorem type_ofScalar (x : Scalar) : (ofScalar x).type = x.type := by
  cases x <;> rfl

@[simp] theorem size_ofScalar (x : Scalar) : (ofScalar x).size = 1 := by
  cases x <;> rfl

theorem type_zeros? {t : DataType} {n : Nat} {xs : Lanes} (h : zeros? t n = some xs) :
    xs.type = t := by
  cases t <;> simp [zeros?] at h <;> subst h <;> rfl

theorem size_zeros? {t : DataType} {n : Nat} {xs : Lanes} (h : zeros? t n = some xs) :
    xs.size = n := by
  cases t <;> simp [zeros?] at h <;> subst h <;> simp [size]

theorem zeros?_isSome (t : DataType) (n : Nat) : (zeros? t n).isSome = t.isConcrete := by
  cases t <;> rfl

@[simp] theorem type_extract (lo n : Nat) (xs : Lanes) : (xs.extract lo n).type = xs.type := by
  cases xs <;> rfl

@[simp] theorem size_overwriteArray (xs : Array α) (lo : Nat) (ys : Array α) :
    (overwriteArray xs lo ys).size = xs.size := by
  simp [overwriteArray]

@[simp] theorem type_overwrite (lo : Nat) (xs ys : Lanes) :
    (overwrite lo xs ys).type = xs.type := by
  cases xs <;> cases ys <;> rfl

@[simp] theorem size_overwrite (lo : Nat) (xs ys : Lanes) :
    (overwrite lo xs ys).size = xs.size := by
  cases xs <;> cases ys <;> simp [overwrite, size]

theorem size_extract {lo n : Nat} {xs : Lanes} (h : lo + n ≤ xs.size) :
    (xs.extract lo n).size = n := by
  cases xs <;> simp [extract, size] at * <;> omega

end Lanes

end VectorMachine
