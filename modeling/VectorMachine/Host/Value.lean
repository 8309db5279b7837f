import VectorMachine.Store.Basic

/-!
# Host values

Programs exchange data with their host as scalars and nested lists.  A container gives a nested
list in row-major order, and a nested list that is rectangular gives a container.
-/

namespace VectorMachine
set_option autoImplicit false

/-- A scalar, or a list of values of one depth less. -/
inductive Nested where
  | leaf (x : Scalar)
  | node (xs : List Nested)
  deriving Inhabited

namespace Host

/-- A nested list of known depth and element type; the type shows where the list is empty. -/
structure Value where
  type : DataType
  depth : Nat
  content : Nested
  deriving Inhabited

/-- The bytes of the header of an inner list. -/
def listBytes : Nat := 24

/-- Reads `n` values one after another, each from where the one before ended. -/
def threaded (read : Nat → Except Abort (Nested × Nat)) :
    Nat → Nat → Except Abort (List Nested × Nat)
  | 0, pos => .ok ([], pos)
  | n + 1, pos => do
    let (x, pos) ← read pos
    let (xs, pos) ← threaded read n pos
    .ok (x :: xs, pos)

/-- Nests the elements of `data` from `pos` on by `lengths`; the second result is where the
elements end. -/
def nest (data : Lanes) : List Int → Nat → Except Abort (Nested × Nat)
  | [], pos =>
    match data.get? pos with
    | some x => .ok (.leaf x, pos + 1)
    | none => .error .breakdown
  | n :: rest, pos =>
    let bytes := if rest.isEmpty then Lanes.elementBytes data.type else listBytes
    if n < 0 ∨ greatestAllocation < n * bytes then .error .oversized
    else do
      let (xs, pos) ← threaded (nest data rest) n.toNat pos
      .ok (.node xs, pos)

/-- The host value of a container, none for a void one. -/
def ofContainer (s : Store) (c : CellId) : Except Abort (Option Value) :=
  match s.buffer? c with
  | none => .ok none
  | some data => do
    let (content, _) ← nest data (s.lengths c) (s.offset c)
    .ok (some ⟨data.type, s.rank c, content⟩)

end Host

end VectorMachine
