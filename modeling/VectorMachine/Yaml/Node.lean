/-!
# Documents

A document is a tree of scalars, sequences and mappings.  Entries stay in the order of the text,
and each node knows the line that it starts on.
-/

namespace VectorMachine.Yaml
set_option autoImplicit false

inductive Node where
  | scalar (line : Nat) (quoted : Bool) (text : String)
  | sequence (line : Nat) (items : List Node)
  | mapping (line : Nat) (entries : List (Node × Node))
  deriving Inhabited, Repr

namespace Node

def line : Node → Nat
  | .scalar n _ _ | .sequence n _ | .mapping n _ => n

/-- The text of a scalar, empty for other nodes. -/
def text : Node → String
  | .scalar _ _ s => s
  | .sequence _ _ | .mapping _ _ => ""

/-- An unquoted scalar that stands for no value. -/
def isNull : Node → Bool
  | .scalar _ false s => s ∈ ["", "~", "null", "Null", "NULL"]
  | _ => false

def isScalar : Node → Bool
  | .scalar _ _ _ => true
  | _ => false

/-- The node of a place where nothing is written. -/
def empty (line : Nat) : Node := .scalar line false ""

/-- The truth value of a scalar; the words of a switch count also between quotes. -/
def bool? : Node → Option Bool
  | .scalar _ quoted s =>
    if s ∈ ["y", "Y", "yes", "Yes", "YES", "on", "On", "ON"] then some true
    else if s ∈ ["n", "N", "no", "No", "NO", "off", "Off", "OFF"] then some false
    else if quoted then none
    else if s ∈ ["true", "True", "TRUE"] then some true
    else if s ∈ ["false", "False", "FALSE"] then some false
    else none
  | _ => none

end Node

end VectorMachine.Yaml
