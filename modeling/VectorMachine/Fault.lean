import VectorMachine.Operand

/-!
# Faults

A fault names an operation that met a broken contract: an address outside its partition, an
access as the wrong element type, a shape that does not fit its data.
-/

namespace VectorMachine
set_option autoImplicit false

structure Fault where
  operation : String
  operand : Operand := Operand.absent
  detail : String := ""
  deriving DecidableEq, Repr, Inhabited

def Fault.message (f : Fault) : String :=
  let place := if f.operand.isAbsent then "" else " @" ++ f.operand.text
  let detail := if f.detail = "" then "" else ": " ++ f.detail
  "memory fault in " ++ f.operation ++ place ++ detail

/-- Why a computation stops without an answer. -/
inductive Abort where
  | fault (f : Fault)
  /-- An allocation of a negative or too large number of elements. -/
  | oversized
  /-- An operand, element or instruction that is not there. -/
  | breakdown
  /-- Host code gave up with a text of its own. -/
  | raised (text : String)
  deriving DecidableEq, Repr, Inhabited

def Abort.message : Abort → String
  | .fault f => f.message
  | .oversized => "runtime error: makeslice: len out of range"
  | .breakdown => "runtime error: index out of range"
  | .raised text => text

end VectorMachine
