import VectorMachine.Program.Basic
import VectorMachine.Blake2b
import VectorMachine.Text.Quoted

/-!
# Listings

A listing shows all of a program as text.  The digest of its body identifies the program.
-/

namespace VectorMachine.Program
set_option autoImplicit false

def padRight (width : Nat) (s : String) : String :=
  s ++ String.ofList (List.replicate (width - s.length) ' ')

def infoLines (p : Program) : List String :=
  if p.info.entries.isEmpty then []
  else "## Info\n" :: p.info.entries.map fun (k, v) =>
    "  " ++ k.directive ++ " " ++ Text.quote v ++ "\n"

def instructionLine (width : Nat) (pc : Nat) (x : Instruction) : String :=
  let note := if x.note.isAbsent then "" else "  # " ++ x.note.text
  "  @" ++ padRight width (toString pc) ++ " " ++ x.text ++ note ++ "\n"

def codeLines (p : Program) : List String :=
  let width := (toString p.code.size).length
  "## Instructions\n" :: (p.code.toList.zipIdx.map fun (x, pc) => instructionLine width pc x)

def tableLines (title mark : String) (t : SymbolTable) : List String :=
  if t.isEmpty then []
  else ("## " ++ title ++ "\n") :: t.entries.map fun (name, addr) =>
    "  " ++ mark ++ toString addr ++ " " ++ name ++ "\n"

def constantLines (p : Program) : List String :=
  if p.constants.isEmpty then []
  else "## Constants\n" :: p.immediates.zipIdx.map fun (text, addr) =>
    "  C" ++ toString addr ++ " " ++ text ++ "\n"

def registerLines (p : Program) : List String :=
  if p.registers.isEmpty then []
  else ["## Registers\n  " ++ " ".intercalate (p.registers.map fun r => "R" ++ toString r) ++ "\n"]

def resultLines (p : Program) : List String :=
  if p.result.isAbsent then [] else ["## Result\n  " ++ p.result.text ++ "\n"]

/-- The lines of a listing below its head. -/
def bodyLines (p : Program) : List String :=
  p.infoLines ++ p.codeLines ++ tableLines "Labels" "@" p.labels ++
    tableLines "Functions" "#" p.functions ++ tableLines "Globals" "G" p.globals ++
    tableLines "Locals" "L" p.locals ++ p.constantLines ++ p.registerLines ++ p.resultLines

def body (p : Program) : String := String.join p.bodyLines

/-- The 32 bytes that identify a program by its content. -/
def hash (p : Program) : List UInt8 := Blake2b.digest p.body.toUTF8

def hexText (bytes : List UInt8) : String :=
  String.ofList (bytes.flatMap fun b => Text.hexDigits 2 b.toNat)

/-- The pieces of a listing in the order in which they are written. -/
def listingPieces (p : Program) : List String :=
  "# Program Dump\n" :: ("  hash: " ++ hexText (p.hash.take 8) ++ "\n") :: p.bodyLines

/-- The listing: a head with the start of the hash, and the body. -/
def listing (p : Program) : String := String.join p.listingPieces

end VectorMachine.Program
