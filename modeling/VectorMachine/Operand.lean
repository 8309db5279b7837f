/-!
# Operands

An operand names one container by address space and address.  The absent operand is written `-`.
-/

namespace VectorMachine
set_option autoImplicit false

/-- The address spaces of a memory.  `unknown` keeps the number of a space that no memory has. -/
inductive Partition where
  | absent | globals | locals | constants | registers | stack
  | unknown (number : UInt8)
  deriving DecidableEq, Repr, Inhabited

namespace Partition

def ofNumber (n : UInt8) : Partition :=
  match n.toNat with
  | 0 => .absent
  | 1 => .globals
  | 2 => .locals
  | 3 => .constants
  | 4 => .registers
  | 5 => .stack
  | _ => .unknown n

def name : Partition → String
  | .absent => "none"
  | .globals => "global"
  | .locals => "local"
  | .constants => "constant"
  | .registers => "register"
  | .stack => "stack"
  | .unknown n => "Partition(" ++ toString n.toNat ++ ")"

/-- The letter that stands for a partition in listings and assembly. -/
def letter : Partition → Char
  | .absent => '-'
  | .globals => 'G'
  | .locals => 'L'
  | .constants => 'C'
  | .registers => 'R'
  | .stack => 'S'
  | .unknown _ => '?'

end Partition

structure Operand where
  part : Partition
  addr : Int
  deriving DecidableEq, Repr, Inhabited

namespace Operand

def absent : Operand := ⟨.absent, 0⟩

def isAbsent (x : Operand) : Bool := x.part == .absent

def text (x : Operand) : String :=
  if x.isAbsent then "-" else x.part.letter.toString ++ toString x.addr

@[simp] theorem isAbsent_absent : absent.isAbsent = true := rfl

end Operand

end VectorMachine
