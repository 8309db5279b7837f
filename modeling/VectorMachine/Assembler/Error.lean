import VectorMachine.Literal.Immediate
import VectorMachine.Opcode
import VectorMachine.Operand

/-!
# Assembly errors

Why a statement cannot be assembled, and how it is said.
-/

namespace VectorMachine.Assembler
set_option autoImplicit false

inductive ErrorKind where
  | unresolved | literal | operand | opcode | type | directive | constantWrite
  deriving DecidableEq, Repr, Inhabited

def ErrorKind.all : List ErrorKind :=
  [.unresolved, .literal, .operand, .opcode, .type, .directive, .constantWrite]

def ErrorKind.title : ErrorKind → String
  | .unresolved => "unresolved symbol"
  | .literal => "malformed literal"
  | .operand => "bad operand"
  | .opcode => "unknown opcode"
  | .type => "unknown data type"
  | .directive => "malformed directive"
  | .constantWrite => "write to constant"

/-- What a directive lacks. -/
inductive Missing where
  | localName | globalName | functionName | value
  deriving DecidableEq, Repr

def Missing.text : Missing → String
  | .localName => "missing local identifier"
  | .globalName => "missing global identifier"
  | .functionName => "missing function identifier"
  | .value => "missing value"

inductive Cause where
  | unboundGlobal (name : String)
  | unboundFunction (name : String)
  | undefinedName (name : String)
  | undefinedLabel (name : String)
  | immediate (e : Literal.ImmediateError)
  | unterminated
  | badAddress (word : String)
  | unrecognized (word : String)
  | operandCount (op : Opcode) (count : Nat)
  | unknownOpcode (word : String)
  | missingType (op : Opcode)
  | unknownType (name : String)
  | castTypes
  | missing (what : Missing)
  | duplicateLocal (name : String)
  | badLabel (name : String)
  | duplicateLabel (name : String)
  | note (e : Literal.TextError)
  | unknownDirective (word : String)
  | constantDestination (op : Opcode) (x : Operand)
  | constantSource (op : Opcode) (x : Operand)
  deriving DecidableEq, Repr

namespace Cause

def kind : Cause → ErrorKind
  | .unboundGlobal _ | .unboundFunction _ | .undefinedName _ | .undefinedLabel _ => .unresolved
  | .immediate _ | .unterminated => .literal
  | .badAddress _ | .unrecognized _ | .operandCount _ _ => .operand
  | .unknownOpcode _ => .opcode
  | .missingType _ | .unknownType _ | .castTypes => .type
  | .missing _ | .duplicateLocal _ | .badLabel _ | .duplicateLabel _ | .note _
  | .unknownDirective _ => .directive
  | .constantDestination _ _ | .constantSource _ _ => .constantWrite

def detail : Cause → String
  | .unboundGlobal n => "no external binding for global " ++ n
  | .unboundFunction n => "no external binding for function " ++ n
  | .undefinedName n => "undefined identifier " ++ n
  | .undefinedLabel n => "undefined label " ++ n
  | .immediate e => e.message
  | .unterminated => "unterminated string literal"
  | .badAddress w => "bad address " ++ Text.quote w
  | .unrecognized w => "unrecognized operand " ++ Text.quote w
  | .operandCount op n => op.arityMessage n
  | .unknownOpcode w => w
  | .missingType op => op.name ++ " is missing its type annotation"
  | .unknownType n => Text.quote n
  | .castTypes => "CAST needs destination and source types"
  | .missing what => what.text
  | .duplicateLocal n => "duplicate local " ++ n
  | .badLabel n => "bad label " ++ Text.quote n
  | .duplicateLabel n => "duplicate label " ++ n
  | .note e => e.message
  | .unknownDirective w => "unknown directive " ++ w
  | .constantDestination op x => op.name ++ " destination " ++ x.text ++ " is a constant"
  | .constantSource op x => op.name ++ " source " ++ x.text ++ " is a constant"

def message (c : Cause) : String := c.kind.title ++ ": " ++ c.detail

end Cause

/-- A failure at one statement. -/
structure Error where
  line : Nat
  text : String
  cause : Cause
  deriving DecidableEq, Repr

def Error.message (e : Error) : String :=
  "assembly error at line " ++ toString e.line ++ ": " ++ e.cause.message ++
    " (in " ++ Text.quote e.text ++ ")"

end VectorMachine.Assembler
