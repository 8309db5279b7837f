import VectorMachine.Store.Basic
import VectorMachine.Literal.Immediate

/-!
# Memory

The partitions of a program's memory hold cells of the store, addressed from zero; the stack
holds cells too, its bottom at address zero.
-/

namespace VectorMachine
set_option autoImplicit false

structure Memory where
  globals : Array CellId := #[]
  locals : Array CellId := #[]
  constants : Array CellId := #[]
  registers : Array CellId := #[]
  stack : Array CellId := #[]
  deriving Inhabited, Repr

/-- What an allocation needs to know of a program: the greatest local and register address, -1
without any, and the immediates by constant address. -/
structure Layout where
  greatestLocal : Int := -1
  greatestRegister : Int := -1
  immediates : List String := []

inductive AllocationError where
  | abort (a : Abort)
  | literal (e : Literal.ImmediateError)

namespace Memory

def referenceBytes : Int := 8

/-- The addressable cells of a partition; none for the absent and for unknown partitions. -/
def cells? (m : Memory) : Partition → Option (Array CellId)
  | .globals => some m.globals
  | .locals => some m.locals
  | .constants => some m.constants
  | .registers => some m.registers
  | .stack => some m.stack
  | .absent | .unknown _ => none

/-- The number of addressable cells of a partition. -/
def length (m : Memory) (p : Partition) : Except Abort Nat :=
  match m.cells? p with
  | some cs => .ok cs.size
  | none => .error (.fault { operation := "len", operand := ⟨p, 0⟩, detail := "unknown partition" })

def outside (x : Operand) (n : Nat) : Abort :=
  .fault { operation := "get", operand := x,
           detail := if x.part = .stack then "outside stack of " ++ toString n
             else "outside " ++ x.part.name ++ " partition of " ++ toString n }

/-- The cell at an operand; the absent operand gives a fresh void cell. -/
def get (m : Memory) (s : Store) (x : Operand) : Except Abort (CellId × Store) :=
  match x.part with
  | .absent => .ok s.fresh
  | p => match m.cells? p with
    | none =>
      .error (.fault { operation := "get", operand := x, detail := "unknown partition" })
    | some cs =>
      if x.addr < 0 then .error (outside x cs.size)
      else match cs[x.addr.toNat]? with
        | some c => .ok (c, s)
        | none => .error (outside x cs.size)

/-- Puts `c` at address `i`, with fresh void cells in front if the array is too short. -/
def putAt (cs : Array CellId) (s : Store) (i : Nat) (c : CellId) : Array CellId × Store :=
  let (pad, s) := s.freshMany (i + 1 - cs.size)
  ((cs ++ pad).setIfInBounds i c, s)

/-- Puts a cell at an operand of a partition other than the stack. -/
def set (m : Memory) (s : Store) (x : Operand) (c : CellId) : Except Abort (Memory × Store) :=
  let fault (detail : String) : Except Abort (Memory × Store) :=
    .error (.fault { operation := "set", operand := x, detail := detail })
  match x.part with
  | .absent | .stack | .unknown _ => fault "not a settable partition"
  | p =>
    if x.addr < 0 then fault "negative address"
    else
      let (cs, s) := putAt ((m.cells? p).getD #[]) s x.addr.toNat c
      match p with
      | .globals => .ok ({ m with globals := cs }, s)
      | .locals => .ok ({ m with locals := cs }, s)
      | .constants => .ok ({ m with constants := cs }, s)
      | _ => .ok ({ m with registers := cs }, s)

def push (m : Memory) (c : CellId) : Memory := { m with stack := m.stack.push c }

def underflow (operation : String) : Abort :=
  .fault { operation := operation, detail := "stack underflow" }

def pop (m : Memory) : Except Abort (CellId × Memory) :=
  match m.stack.back? with
  | some c => .ok (c, { m with stack := m.stack.pop })
  | none => .error (underflow "pop")

def peek (m : Memory) : Except Abort CellId :=
  match m.stack.back? with
  | some c => .ok c
  | none => .error (underflow "peek")

def bindGlobals (m : Memory) (globals : Array CellId) : Memory := { m with globals := globals }

/-- Prepares a used memory for another run: the stack is dropped and every link of a local or a
register is cut. -/
def rewind (m : Memory) (s : Store) : Memory × Store :=
  ({ m with stack := #[] }, (m.locals ++ m.registers).foldl Store.unlink s)

/-- Void cells for the addresses up to `greatest`. -/
def voidCells (s : Store) (greatest : Int) : Except Abort (Array CellId × Store) :=
  let n := wrap (greatest + 1)
  if n ≤ 0 then .ok (#[], s)
  else if greatestAllocation < n * referenceBytes then .error .oversized
  else .ok (s.freshMany n.toNat)

/-- A scalar cell for each immediate. -/
def constantCells (s : Store) (texts : List String) :
    Except Literal.ImmediateError (Array CellId × Store) :=
  texts.foldlM (fun (cs, s) text => do
    let x ← Literal.decodeImmediate text
    let (c, s) := s.ofScalar x
    .ok (cs.push c, s)) (#[], s)

/-- The memory for a program: void locals and registers, the given globals, and its constants. -/
def allocate (s : Store) (layout : Layout) (globals : Array CellId) :
    Except AllocationError (Memory × Store) := do
  let (locals, s) ← (voidCells s layout.greatestLocal).mapError .abort
  let (registers, s) ← (voidCells s layout.greatestRegister).mapError .abort
  let (constants, s) ← (constantCells s layout.immediates).mapError .literal
  .ok ({ globals := globals, locals := locals, constants := constants, registers := registers }, s)

end Memory

end VectorMachine
