/-!
# Opcodes

The operations of the instruction set, grouped by what they do.  A number that names no
operation is kept, so that an instruction can hold it.
-/

namespace VectorMachine
set_option autoImplicit false

inductive Arithmetic where
  | add | sub | mul | div | rem
  deriving DecidableEq, Repr, Inhabited

inductive Comparison where
  | eq | neq | gt | lt | geq | leq
  deriving DecidableEq, Repr, Inhabited

inductive Connective where
  | and | or
  deriving DecidableEq, Repr, Inhabited

inductive Opcode where
  | nop
  | arithmetic (op : Arithmetic)
  | negate
  | compare (op : Comparison)
  | connect (op : Connective)
  | not
  | alloc | allocLike | allocTop | allocType
  | free
  | move | cast | fill
  | refer
  | pop | movePop | referPop
  | moveElement | referElement
  /-- Jumps if every lane of the condition equals `on`. -/
  | jump (on : Bool)
  | call | callExternal
  | ret
  | endParameters | endFunction | finish
  | label
  | unknown (number : UInt8)
  deriving DecidableEq, Repr, Inhabited

def Arithmetic.name : Arithmetic → String
  | .add => "ADD"
  | .sub => "SUB"
  | .mul => "MUL"
  | .div => "DIV"
  | .rem => "REM"

def Comparison.name : Comparison → String
  | .eq => "EQ"
  | .neq => "NEQ"
  | .gt => "GT"
  | .lt => "LT"
  | .geq => "GEQ"
  | .leq => "LEQ"

def Connective.name : Connective → String
  | .and => "ANDM"
  | .or => "ORM"

namespace Opcode

def all : List Opcode := [
  .nop, .arithmetic .add, .arithmetic .sub, .arithmetic .mul, .arithmetic .div, .arithmetic .rem,
  .negate, .compare .eq, .compare .neq, .compare .gt, .compare .lt, .compare .geq, .compare .leq,
  .connect .and, .connect .or, .not, .alloc, .allocLike, .allocTop, .allocType, .free, .move, .cast,
  .fill, .refer, .pop, .movePop, .referPop, .moveElement, .referElement, .jump true, .jump false,
  .call, .callExternal, .ret, .endParameters, .endFunction, .finish, .label]

def name : Opcode → String
  | .nop => "NOP"
  | .arithmetic op => op.name
  | .negate => "NEG"
  | .compare op => op.name
  | .connect op => op.name
  | .not => "NOT"
  | .alloc => "ALLOC"
  | .allocLike => "ALLOCR"
  | .allocTop => "ALLOCP"
  | .allocType => "ALLOCT"
  | .free => "FREE"
  | .move => "MOV"
  | .cast => "CAST"
  | .fill => "FILL"
  | .refer => "REF"
  | .pop => "POP"
  | .movePop => "MOVPOP"
  | .referPop => "REFPOP"
  | .moveElement => "MOVELM"
  | .referElement => "REFELM"
  | .jump true => "JMP"
  | .jump false => "JMPN"
  | .call => "CALL"
  | .callExternal => "CALLX"
  | .ret => "RET"
  | .endParameters => "ENDPRM"
  | .endFunction => "ENDFUN"
  | .finish => "END"
  | .label => "LABEL"
  | .unknown n => "Opcode(" ++ toString n.toNat ++ ")"

def ofNumber (n : UInt8) : Opcode := all[n.toNat]?.getD (.unknown n)

def ofName? (s : String) : Option Opcode := all.find? (·.name == s)

def number (op : Opcode) : Nat := all.idxOf op

/-- Whether an operation stores into its first operand. -/
def writes : Opcode → Bool
  | .arithmetic _ | .negate | .compare _ | .connect _ | .not => true
  | .alloc | .allocLike | .allocTop | .free | .move | .cast | .fill | .refer => true
  | .movePop | .referPop | .moveElement | .referElement | .callExternal => true
  | _ => false

def isComparison : Opcode → Bool
  | .compare _ => true
  | _ => false

def isArithmetic : Opcode → Bool
  | .arithmetic _ => true
  | _ => false

/-- How many operands an operation takes; without a greatest number it takes any more. -/
structure Arity where
  least : Nat
  greatest : Option Nat
  deriving DecidableEq, Repr

def Arity.admits (a : Arity) (n : Nat) : Bool :=
  a.least ≤ n && a.greatest.all (n ≤ ·)

def arity : Opcode → Arity
  | .arithmetic _ | .compare _ | .connect _ | .jump _ => ⟨3, some 3⟩
  | .negate | .not | .allocLike | .move | .cast | .fill | .refer => ⟨2, some 2⟩
  | .allocTop | .allocType | .free | .movePop | .referPop => ⟨1, some 1⟩
  | .alloc => ⟨1, none⟩
  | .moveElement | .referElement => ⟨3, none⟩
  | .call | .callExternal => ⟨2, none⟩
  | .ret => ⟨2, some 3⟩
  | .finish => ⟨0, some 2⟩
  | .nop | .pop | .endParameters | .endFunction | .label => ⟨0, some 1⟩
  | .unknown _ => ⟨0, none⟩

/-- What is wrong with a number of operands. -/
def arityMessage (op : Opcode) (n : Nat) : String :=
  let takes := match op.arity.greatest with
    | none => "at least " ++ toString op.arity.least
    | some m =>
      if m = op.arity.least then toString m else toString op.arity.least ++ " to " ++ toString m
  op.name ++ " takes " ++ takes ++ " operands, got " ++ toString n

end Opcode

end VectorMachine
