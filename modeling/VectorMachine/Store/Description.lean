import VectorMachine.Store.Basic
import VectorMachine.Binary64.Layout
import VectorMachine.Literal.Text

/-!
# Describing containers

The shape of a container stands in messages about data, its description in traces and records.
-/

namespace VectorMachine
set_option autoImplicit false

structure Shape where
  type : DataType
  lengths : List Int
  deriving DecidableEq, Repr, Inhabited

def lengthsText (lengths : List Int) : String :=
  String.join (lengths.map fun n => "[" ++ toString n ++ "]")

def Shape.text (x : Shape) : String :=
  if x.type = .void then "void" else x.type.name ++ lengthsText x.lengths

/-- The text of an element: its decimal digits, the digits of a float, or a string literal. -/
def Scalar.description : Scalar → String
  | .int v => toString v.toInt
  | .float v => Binary64.descriptionLayout.text v
  | .bool v => toString v
  | .string v => Literal.quoteText v

namespace Store

def shape (s : Store) (c : CellId) : Shape := ⟨s.type c, s.lengths c⟩

/-- The elements that `c` shows, as far as there are any. -/
def elements (s : Store) (c : CellId) : List Scalar :=
  match s.buffer? c with
  | none => []
  | some data => (data.extract (s.offset c) (s.size c).toNat).toList

/-- Type, lengths and elements, as in `int[3]{1 2 3}`, `alias->float(2.5)` or `void`. -/
def description (s : Store) (c : CellId) : String :=
  let mark := if s.isAlias c then "alias->" else ""
  let body :=
    if s.isVoid c then "void"
    else
      let items := " ".intercalate ((s.elements c).map Scalar.description)
      let shape := (s.shape c).text
      if s.rank c = 0 then shape ++ "(" ++ items ++ ")" else shape ++ "\x7b" ++ items ++ "\x7d"
  mark ++ body

/-- The description of what may be no container at all. -/
def description? (s : Store) (c : Option CellId) : String := c.elim "<nil>" s.description

def shapeText? (s : Store) (c : Option CellId) : String := c.elim "none" fun c => (s.shape c).text

end Store

end VectorMachine
