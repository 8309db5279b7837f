import VectorMachine.Program.Instruction
import VectorMachine.Program.SymbolTable
import VectorMachine.Memory

/-!
# Programs

A program is a sequence of instructions with the names and addresses that it uses.
-/

namespace VectorMachine
set_option autoImplicit false

/-- What a program says of the languages that it was written in. -/
structure LanguageInfo where
  assemblyIdentifier : Option String := none
  assemblyVersion : Option String := none
  scriptIdentifier : Option String := none
  scriptVersion : Option String := none
  deriving DecidableEq, Repr, Inhabited

inductive InfoKey where
  | assemblyIdentifier | assemblyVersion | scriptIdentifier | scriptVersion
  deriving DecidableEq, Repr, Inhabited

namespace InfoKey

/-- All keys, in the order of their directives. -/
def all : List InfoKey :=
  [.assemblyIdentifier, .assemblyVersion, .scriptIdentifier, .scriptVersion]

def directive : InfoKey → String
  | .assemblyIdentifier => "#ASSEMBLY_LANGUAGE_IDENTIFIER"
  | .assemblyVersion => "#ASSEMBLY_LANGUAGE_VERSION"
  | .scriptIdentifier => "#SCRIPT_LANGUAGE_IDENTIFIER"
  | .scriptVersion => "#SCRIPT_LANGUAGE_VERSION"

end InfoKey

namespace LanguageInfo

def get? (i : LanguageInfo) : InfoKey → Option String
  | .assemblyIdentifier => i.assemblyIdentifier
  | .assemblyVersion => i.assemblyVersion
  | .scriptIdentifier => i.scriptIdentifier
  | .scriptVersion => i.scriptVersion

def set (i : LanguageInfo) (k : InfoKey) (v : String) : LanguageInfo :=
  match k with
  | .assemblyIdentifier => { i with assemblyIdentifier := some v }
  | .assemblyVersion => { i with assemblyVersion := some v }
  | .scriptIdentifier => { i with scriptIdentifier := some v }
  | .scriptVersion => { i with scriptVersion := some v }

/-- The given information, in the order of the directives. -/
def entries (i : LanguageInfo) : List (InfoKey × String) :=
  InfoKey.all.filterMap fun k => (i.get? k).map fun v => (k, v)

end LanguageInfo

/-- The greatest address used in each partition that programs address, -1 without any. -/
structure Extent where
  globals : Int := -1
  locals : Int := -1
  constants : Int := -1
  registers : Int := -1
  deriving DecidableEq, Repr, Inhabited

structure Program where
  code : Array Instruction := #[]
  locals : SymbolTable := {}
  globals : SymbolTable := {}
  /-- External functions by call index. -/
  functions : SymbolTable := {}
  /-- Labels by instruction address. -/
  labels : SymbolTable := {}
  /-- Immediates by constant address. -/
  constants : SymbolTable := {}
  localFunctions : List String := []
  info : LanguageInfo := {}
  /-- The operand whose value the program returns. -/
  result : Operand := Operand.absent
  extent : Extent := {}
  /-- The register addresses in use, ascending. -/
  registers : List Int := []
  deriving DecidableEq, Repr, Inhabited

namespace Program

def greatestAddress (p : Program) : Partition → Int
  | .globals => p.extent.globals
  | .locals => p.extent.locals
  | .constants => p.extent.constants
  | .registers => p.extent.registers
  | .absent | .stack | .unknown _ => -1

/-- The constant pool: immediates by address. -/
def immediates (p : Program) : List String :=
  (List.range (p.constants.greatest + 1).toNat).map fun (i : Nat) => p.constants.name i

def layout (p : Program) : Layout where
  greatestLocal := p.extent.locals
  greatestRegister := p.extent.registers
  immediates := p.immediates

/-- Inserts into an ascending list, unless the number is there. -/
def insertAscending (a : Int) : List Int → List Int
  | [] => [a]
  | b :: rest =>
    if a < b then a :: b :: rest
    else if a = b then b :: rest
    else b :: insertAscending a rest

/-- Records the use of an address. -/
def use (p : Program) (x : Operand) : Program :=
  match x.part with
  | .globals => { p with extent.globals := max p.extent.globals x.addr }
  | .locals => { p with extent.locals := max p.extent.locals x.addr }
  | .constants => { p with extent.constants := max p.extent.constants x.addr }
  | .registers =>
    { p with extent.registers := max p.extent.registers x.addr,
             registers := insertAscending x.addr p.registers }
  | .absent | .stack | .unknown _ => p

theorem mem_insertAscending {a b : Int} {l : List Int} :
    b ∈ insertAscending a l ↔ b = a ∨ b ∈ l := by
  induction l with
  | nil => simp [insertAscending]
  | cons x rest ih =>
    simp only [insertAscending]
    split
    · simp
    · split <;> simp_all
      grind

end Program

end VectorMachine
