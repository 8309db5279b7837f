import VectorMachine.DataType
import VectorMachine.Operand
import VectorMachine.Opcode

/-!
# Instructions

An instruction with its operands resolved to addresses.
-/

namespace VectorMachine
set_option autoImplicit false

structure Instruction where
  opcode : Opcode
  types : List DataType := []
  operands : List Operand := []
  /-- The string constant that describes this part of the program, if any. -/
  note : Operand := Operand.absent
  deriving DecidableEq, Repr, Inhabited

namespace Instruction

/-- The first type annotation, `void` if there is none. -/
def type (x : Instruction) : DataType := x.types.headD .void

/-- The operation with its annotations. -/
def heading (x : Instruction) : String :=
  if x.types.isEmpty then x.opcode.name
  else x.opcode.name ++ " " ++ ":".intercalate (x.types.map DataType.name)

def text (x : Instruction) : String :=
  x.heading ++ String.join (x.operands.map fun o => " " ++ o.text)

/-- The instruction that stands where a label or a return lands. -/
def landing (note : Operand) : Instruction := { opcode := .nop, types := [.void], note := note }

end Instruction

end VectorMachine
