import VectorMachine.Store.Description
import VectorMachine.Program.Instruction
import VectorMachine.Text.Quoted

/-!
# Data errors

An instruction that cannot work on the data it is given stops the run with a data error.  The
error names the instruction, the shapes of its operands and the reason.
-/

namespace VectorMachine
set_option autoImplicit false

/-- Why a call of an external function failed. -/
inductive CallError where
  | noFunction (index : Int)
  | noImplementation (name : String)
  | failed (text : String)
  deriving DecidableEq, Repr, Inhabited

def CallError.message : CallError → String
  | .noFunction index => "no such binding: function index " ++ toString index
  | .noImplementation name =>
    "no such binding: function " ++ Text.quote name ++ " has no implementation"
  | .failed text => text

inductive DataErrorKind where
  | unsupportedType | rankMismatch | scalarSize | lengthMismatch | arrayLength | divideByZero
  | indexOutOfRange | castValue | recursiveCall | noReturn | externalFunction
  deriving DecidableEq, Repr, Inhabited

def DataErrorKind.all : List DataErrorKind :=
  [.unsupportedType, .rankMismatch, .scalarSize, .lengthMismatch, .arrayLength, .divideByZero,
    .indexOutOfRange, .castValue, .recursiveCall, .noReturn, .externalFunction]

def DataErrorKind.title : DataErrorKind → String
  | .unsupportedType => "unsupported operand type"
  | .rankMismatch => "incompatible array rank"
  | .scalarSize => "array size is too large to be assigned to a scalar"
  | .lengthMismatch => "operand array lengths differ"
  | .arrayLength => "invalid array length"
  | .divideByZero => "division by zero"
  | .indexOutOfRange => "array index out of range"
  | .castValue => "value cannot be cast"
  | .recursiveCall => "recursive function call"
  | .noReturn => "function ended without returning a value"
  | .externalFunction => "external function failed"

inductive DataCause where
  | usedAs (shape : Shape) (type : DataType)
  | onStrings (op : Arithmetic)
  | arithmeticOf (type : DataType)
  | onBooleans (op : Comparison)
  | comparisonOf (type : DataType)
  | connectiveOn (op : Connective) (type : DataType)
  | negationOf (type : DataType)
  | notOf (type : DataType)
  | allocationOf (type : DataType)
  | assignmentFromVoid
  | assignmentOf (type : DataType)
  | castFromVoid
  | castBetween (source target : DataType)
  | castTo (type : DataType)
  | fillOfVoid
  | indexShape (shape : Shape)
  | castRank (source target : Shape)
  | indexCount (count : Nat) (array : Shape)
  | intoScalar (shape : Shape)
  | fillFrom (shape : Shape)
  | lengths (a b : Shape)
  | lengthShape (shape : Shape)
  | negativeLength (n : Int)
  | zeroDivisor (op : Arithmetic)
  | indexRange (index length : Int)
  | castText (text : String) (type : DataType)
  | alreadyRunning (name : String)
  | noReturn (name : String)
  | noExternals
  | external (name : String) (e : CallError)
  deriving DecidableEq, Repr, Inhabited

namespace DataCause

def kind : DataCause → DataErrorKind
  | .usedAs _ _ | .onStrings _ | .arithmeticOf _ | .onBooleans _ | .comparisonOf _
  | .connectiveOn _ _ | .negationOf _ | .notOf _ | .allocationOf _ | .assignmentFromVoid
  | .assignmentOf _ | .castFromVoid | .castBetween _ _ | .castTo _ | .fillOfVoid
  | .indexShape _ => .unsupportedType
  | .castRank _ _ | .indexCount _ _ => .rankMismatch
  | .intoScalar _ | .fillFrom _ => .scalarSize
  | .lengths _ _ => .lengthMismatch
  | .lengthShape _ | .negativeLength _ => .arrayLength
  | .zeroDivisor _ => .divideByZero
  | .indexRange _ _ => .indexOutOfRange
  | .castText _ _ => .castValue
  | .alreadyRunning _ => .recursiveCall
  | .noReturn _ => .noReturn
  | .noExternals | .external _ _ => .externalFunction

def detail : DataCause → String
  | .usedAs x t => x.text ++ " operand used as " ++ t.name
  | .onStrings op => op.name ++ " on strings"
  | .arithmeticOf t => t.name ++ " arithmetic"
  | .onBooleans op => op.name ++ " on booleans"
  | .comparisonOf t => t.name ++ " comparison"
  | .connectiveOn op t => op.name ++ " on " ++ t.name
  | .negationOf t => "negation of " ++ t.name
  | .notOf t => "NOT of " ++ t.name
  | .allocationOf t => "allocation of " ++ t.name
  | .assignmentFromVoid => "assignment from void"
  | .assignmentOf t => "assignment of " ++ t.name
  | .castFromVoid => "cast from void"
  | .castBetween s t => "cast " ++ s.name ++ " to " ++ t.name
  | .castTo t => "cast to " ++ t.name
  | .fillOfVoid => "fill of void"
  | .indexShape x => "index " ++ x.text ++ " is not an int scalar"
  | .castRank s t => "cast " ++ s.text ++ " into " ++ t.text
  | .indexCount n x => toString n ++ " indices into " ++ x.text
  | .intoScalar x => x.text ++ " into a scalar"
  | .fillFrom x => "fill from " ++ x.text
  | .lengths a b => a.text ++ " and " ++ b.text
  | .lengthShape x => "length " ++ x.text ++ " is not an int scalar"
  | .negativeLength n => "negative length " ++ toString n
  | .zeroDivisor op => op.name ++ " by int zero"
  | .indexRange i n => "index " ++ toString i ++ " outside [0, " ++ toString n ++ ")"
  | .castText s t => Text.quote s ++ " to " ++ t.name
  | .alreadyRunning name => name ++ " is already running"
  | .noReturn name => name
  | .noExternals => "no external functions are bound"
  | .external _ e => e.message

def message (c : DataCause) : String :=
  match c with
  | .external name e => c.kind.title ++ " " ++ name ++ ": " ++ e.message
  | _ => c.kind.title ++ ": " ++ c.detail

end DataCause

structure DataError where
  pc : Int
  instruction : Instruction
  shapes : List Shape
  /-- The note that the program attached to the instruction, empty without one. -/
  note : String
  cause : DataCause
  deriving DecidableEq, Repr, Inhabited

def DataError.message (e : DataError) : String :=
  let shapes :=
    if e.shapes.isEmpty then "" else " (" ++ ", ".intercalate (e.shapes.map Shape.text) ++ ")"
  let note := if e.note = "" then "" else " [" ++ e.note ++ "]"
  "data error at @" ++ toString e.pc ++ " " ++ e.instruction.heading ++ shapes ++ ": " ++
    e.cause.message ++ note

/-- Why an operation on containers gives no result. -/
inductive Failure where
  | data (c : DataCause)
  | abort (a : Abort)
  deriving DecidableEq, Repr, Inhabited

/-- Why a run stops before its end. -/
inductive Stop where
  | data (e : DataError)
  | abort (a : Abort)
  | canceled
  | deadline
  deriving DecidableEq, Repr, Inhabited

end VectorMachine
