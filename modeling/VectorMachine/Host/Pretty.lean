import VectorMachine.Host.Conversion
import VectorMachine.Binary64.Layout
import VectorMachine.Text.Quoted

/-!
# Showing host values

A host value is shown as an expression of its type.  Lists of scalars stand on one line, and lists
of lists have a line for each item.
-/

namespace VectorMachine.Host
set_option autoImplicit false

def scalarText : Scalar → String
  | .int v => toString v.toInt
  | .float v => Binary64.descriptionLayout.text v
  | .bool v => toString v
  | .string v => Text.quote v

/-- A scalar with its type, which a quoted text shows already. -/
def typedText (x : Scalar) : String :=
  match x with
  | .string _ => scalarText x
  | _ => (kindOf x.type).name ++ "(" ++ scalarText x ++ ")"

def indentation (level : Nat) : String := String.ofList (List.replicate (4 * level) ' ')

/-- The items of a list of the given depth; `level` counts the lists around it. -/
def itemsText : Nat → Nat → Nested → String
  | _, _, .leaf x => scalarText x
  | 0, _, .node _ => ""
  | 1, _, .node xs => "\x7b" ++ ", ".intercalate (xs.map (itemsText 0 0)) ++ "\x7d"
  | depth + 2, level, .node xs =>
    let lines := xs.map fun x =>
      indentation (level + 1) ++ itemsText (depth + 1) (level + 1) x ++ ",\n"
    "\x7b\n" ++ String.join lines ++ indentation level ++ "\x7d"

def Value.text (v : Value) : String :=
  match v.content with
  | .leaf x => typedText x
  | .node _ => typeName (kindOf v.type) v.depth ++ itemsText v.depth 0 v.content

/-- The text of what a run gives, which may be nothing. -/
def resultText : Option Value → String
  | none => "nil"
  | some v => v.text

end VectorMachine.Host
