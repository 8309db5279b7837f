import VectorMachine.Literal.Integer
import VectorMachine.Literal.Real
import VectorMachine.Literal.Text
import VectorMachine.Scalar

/-!
# Immediates

An immediate is the text of a constant operand, `~type:value`; the mark may also be `#` or
missing.  It decodes to one scalar.
-/

namespace VectorMachine.Literal
set_option autoImplicit false

/-- Why an immediate has no value. -/
inductive Reason where
  | missingSeparator
  | unknownType (name : String)
  | integer (e : IntegerError)
  | real (e : RealError)
  | boolean
  | text (e : TextError)
  | noLiteralForm (type : DataType)
  deriving DecidableEq, Repr

def Reason.message : Reason → String
  | .missingSeparator => "missing type separator"
  | .unknownType name => "unknown type " ++ Text.quote name
  | .integer e => e.message
  | .real e => e.message
  | .boolean => "not a boolean literal"
  | .text e => e.message
  | .noLiteralForm type => type.name ++ " has no literal form"

structure ImmediateError where
  immediate : String
  reason : Reason
  deriving DecidableEq, Repr

def ImmediateError.message (e : ImmediateError) : String :=
  "invalid immediate value " ++ Text.quote e.immediate ++ ": " ++ e.reason.message

def dropMark : List Char → List Char
  | '~' :: cs => cs
  | '#' :: cs => cs
  | cs => cs

/-- Splits at the first colon. -/
def splitAtColon? (cs : List Char) : Option (List Char × List Char) :=
  match cs.dropWhile (· ≠ ':') with
  | [] => none
  | _ :: value => some (cs.takeWhile (· ≠ ':'), value)

/-- The type name and the value text of an immediate. -/
def splitImmediate (s : String) : Except ImmediateError (String × String) :=
  match splitAtColon? (dropMark s.toList) with
  | some (name, value) => .ok (String.ofList name, String.ofList value)
  | none => .error ⟨s, .missingSeparator⟩

def readBoolean : String → Except Reason Bool
  | "true" => .ok true
  | "false" => .ok false
  | _ => .error .boolean

def readValue (type : DataType) (s : String) : Except Reason Scalar :=
  match type with
  | .int => ((readInteger s).mapError .integer).map .int
  | .float => ((readReal s).mapError .real).map .float
  | .bool => (readBoolean s).map .bool
  | .string => ((readText s).mapError .text).map .string
  | .void | .any => .error (.noLiteralForm type)

/-- The scalar that an immediate denotes. -/
def decodeImmediate (s : String) : Except ImmediateError Scalar := do
  let (name, text) ← splitImmediate s
  match DataType.ofName? name with
  | none => .error ⟨s, .unknownType name⟩
  | some type => (readValue type text).mapError fun r => ⟨s, r⟩

end VectorMachine.Literal
