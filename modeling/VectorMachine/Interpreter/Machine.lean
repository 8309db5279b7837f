import VectorMachine.Interpreter.Elementwise
import VectorMachine.Interpreter.Transfer
import VectorMachine.Program.Basic

/-!
# The machine

One step of the machine executes one instruction: it fetches the operands, changes containers,
the stack or the set of running functions, and gives the address of the next instruction.  The
state is kept when a step fails, so that it shows how far the step came.
-/

namespace VectorMachine
set_option autoImplicit false

/-- What programs and host code both change: the containers, and what host functions note. -/
structure World where
  store : Store := {}
  journal : Array String := #[]
  deriving Inhabited

/-- Why a call of host code gives no result. -/
inductive CallStop where
  | error (e : CallError)
  | abort (a : Abort)
  deriving DecidableEq, Repr, Inhabited

/-- Calls an external function by index, with its arguments and the cell for its result. -/
abbrev Linker := Int → List CellId → CellId → EStateM CallStop World Unit

/-- What stays the same during a run. -/
structure Environment where
  program : Program
  linker : Option Linker := none

structure Machine where
  world : World := {}
  memory : Memory := {}
  /-- The addresses of the functions that have been called and have not returned. -/
  running : List Int := []
  deriving Inhabited

namespace Machine

abbrev Action := EStateM Failure Machine

/-- Runs a computation that needs the state but does not change it. -/
def consult {α : Type} (f : Machine → Except Failure α) : Action α := fun m =>
  match f m with
  | .ok x => .ok x m
  | .error e => .error e m

/-- Changes the store; a failure leaves it as it was. -/
def onStore (f : Store → Except Failure Store) : Action Unit := fun m =>
  match f m.world.store with
  | .ok s => .ok () { m with world.store := s }
  | .error e => .error e m

def abortWith {α : Type} (a : Abort) : Action α := throw (.abort a)

def freshCell : EStateM Abort Machine CellId := fun ⟨⟨store, journal⟩, memory, running⟩ =>
  let (c, store) := store.fresh
  .ok c ⟨⟨store, journal⟩, memory, running⟩

/-- The cell at an operand; the absent operand gives a fresh void cell. -/
def fetch (x : Operand) : EStateM Abort Machine CellId := fun m =>
  if x.part = .absent then freshCell m
  else
    match m.memory.get m.world.store x with
    | .ok (c, _) => .ok c m
    | .error a => .error a m

def fetchAll : List Operand → EStateM Abort Machine (List CellId)
  | [] => pure []
  | x :: xs => do
    let c ← fetch x
    let cs ← fetchAll xs
    return c :: cs

def pop : Action CellId := fun m =>
  match m.memory.pop with
  | .ok (c, memory) => .ok c { m with memory := memory }
  | .error a => .error (.abort a) m

def peek : Action CellId := consult fun m => m.memory.peek.mapError .abort

def push (c : CellId) : Action Unit := modify fun m => { m with memory := m.memory.push c }

def pushFresh : Action Unit := fun m =>
  let (c, s) := m.world.store.fresh
  push c { m with world.store := s }

def pushScalar (x : Scalar) : Action Unit := fun m =>
  let (c, s) := m.world.store.ofScalar x
  push c { m with world.store := s }

/-- The instruction address or function index that a cell holds. -/
def address (c : CellId) : Action Int :=
  consult fun m => ((m.world.store.int c).map Int64.toInt).mapError .abort

/-- The cell to hand over for an operand: constants are copied, so that nobody can change them. -/
def handedOver (x : Operand) (c : CellId) : Action CellId := fun m =>
  if x.part = .constants then
    match m.world.store.clone c with
    | .ok (d, s) => .ok d { m with world.store := s }
    | .error a => .error (.abort a) m
  else .ok c m

def handedOverAll : List Operand → List CellId → Action (List CellId)
  | x :: xs, c :: cs => do
    let d ← handedOver x c
    let ds ← handedOverAll xs cs
    return d :: ds
  | _, _ => pure []

/-- Hands arguments over one after another, each pushed before the next is looked at. -/
def pushAll : List Operand → List CellId → Action Unit
  | x :: xs, c :: cs => do
    push (← handedOver x c)
    pushAll xs cs
  | _, _ => pure ()

/-- The label at an address, or the address itself. -/
def functionName (p : Program) (addr : Int) : String :=
  if p.labels.name addr = "" then "@" ++ toString addr else p.labels.name addr

/-- Enters a function: pushes the return address and the arguments. -/
def call (p : Program) (pc : Int) (x : Instruction) (ops : List CellId) : Action Int :=
  match ops with
  | _ :: target :: args => do
    let f ← address target
    if (← get).running.contains f then throw (.data (.alreadyRunning (functionName p f)))
    modify fun m => { m with running := f :: m.running }
    pushScalar (.int (Int64.ofInt (pc + 1)))
    pushAll (x.operands.drop 2) args
    return f
  | _ => abortWith .breakdown

/-- Pushes the value of a return, void without one. -/
def pushValue (x : Instruction) (ops : List CellId) : Action Unit :=
  match x.operands.drop 2, ops.drop 2 with
  | y :: _, c :: _ => do push (← handedOver y c)
  | _, _ => pushFresh

/-- Marks a function as no longer running. -/
def leave (ops : List CellId) : Action Unit :=
  match ops with
  | _ :: target :: _ => do
    let f ← address target
    modify fun m => { m with running := m.running.filter (· ≠ f) }
  | _ => abortWith .breakdown

/-- Leaves a function: pops the return address and pushes the value. -/
def ret (x : Instruction) (ops : List CellId) : Action Int := do
  let back ← address (← pop)
  pushValue x ops
  leave ops
  return back

/-- Calls host code; an error names the function. -/
def invoke (p : Program) (link : Linker) (index : Int) (args : List CellId) (result : CellId) :
    Action Unit := fun m =>
  match link index args result m.world with
  | .ok _ w => .ok () { m with world := w }
  | .error (.error e) w =>
    .error (.data (.external (p.functions.name index) e)) { m with world := w }
  | .error (.abort a) w => .error (.abort a) { m with world := w }

def callExternal (env : Environment) (x : Instruction) (ops : List CellId) : Action Unit :=
  match env.linker, ops with
  | none, _ => throw (.data .noExternals)
  | some link, result :: target :: args => do
    let index ← address target
    let args ← handedOverAll (x.operands.drop 2) args
    invoke env.program link index args result
  | some _, _ => abortWith .breakdown

/-- The name of the function that ends, if its operand gives one. -/
def endedName (p : Program) : List CellId → Action String
  | [] => pure ""
  | c :: _ => do
    match (← get).world.store.type c with
    | .string => consult fun m => (m.world.store.string c).mapError .abort
    | .int => return functionName p (← address c)
    | _ => return ""

/-- A function that ends without a return is an error. -/
def endFunction (p : Program) (ops : List CellId) : Action Unit := do
  throw (.data (.noReturn (← endedName p ops)))

def unknownOpcode (op : Opcode) : Abort :=
  .fault { operation := "dispatch", detail := "unknown opcode " ++ op.name }

/-- The change of the store that an instruction makes, if it does nothing else. -/
def change? (x : Instruction) (ops : List CellId) : Option (Store → Except Failure Store) :=
  let t := x.type
  match x.opcode, ops with
  | .arithmetic op, d :: a :: b :: _ => some (·.arithmetic op t d a b)
  | .compare op, d :: a :: b :: _ => some (·.compare op t d a b)
  | .connect op, d :: a :: b :: _ => some (·.connect op t d a b)
  | .negate, d :: a :: _ => some (·.negate t d a)
  | .not, d :: a :: _ => some (·.complement t d a)
  | .alloc, d :: lengths => some (·.allocate t d lengths)
  | .allocLike, d :: like :: _ => some (·.allocateLike t d like)
  | .free, d :: _ => some fun s => .ok (s.free d)
  | .move, d :: a :: _ => some (·.move t d a)
  | .cast, d :: a :: _ => some (·.cast t d a)
  | .fill, d :: a :: _ => some (·.fill t d a)
  | .refer, d :: a :: _ => some fun s => .ok (s.link d a)
  | .moveElement, d :: a :: indices => some (·.moveElement t d a indices)
  | .referElement, d :: a :: indices => some (·.referElement d a indices)
  | _, _ => none

/-- Changes the store by a destination and the cell that was found on the stack. -/
def onDestination (ops : List CellId) (f : CellId → Store → Except Failure Store) : Action Unit :=
  match ops with
  | d :: _ => onStore (f d)
  | [] => abortWith .breakdown

/-- Executes an instruction that has to do with the stack, the program counter or host code. -/
def control (env : Environment) (pc : Int) (x : Instruction) (ops : List CellId) : Action Int :=
  match x.opcode, ops with
  | .allocTop, _ => do
    let like ← peek
    onDestination ops fun d s => s.allocateLike x.type d like
    return pc + 1
  | .pop, _ => do let _ ← pop; return pc + 1
  | .movePop, _ => do
    let top ← pop
    onDestination ops fun d s => s.move x.type d top
    return pc + 1
  | .referPop, _ => do
    let top ← pop
    onDestination ops fun d s => .ok (s.link d top)
    return pc + 1
  | .jump on, _ :: target :: condition :: _ => do
    if ← consult fun m => m.world.store.branches on condition then address target
    else return pc + 1
  | .call, _ => call env.program pc x ops
  | .callExternal, _ => do callExternal env x ops; return pc + 1
  | .ret, _ => ret x ops
  | .endFunction, _ => do endFunction env.program ops; return pc + 1
  | .finish, _ => return -1
  | .nop, _ | .label, _ | .allocType, _ | .endParameters, _ => return pc + 1
  | .unknown n, _ => abortWith (unknownOpcode (.unknown n))
  | _, _ => abortWith .breakdown

def execute (env : Environment) (pc : Int) (x : Instruction) (ops : List CellId) : Action Int :=
  match change? x ops with
  | some f => do onStore f; return pc + 1
  | none => control env pc x ops

/-- The text of the note on an instruction, empty without one. -/
def noteText (x : Instruction) (m : Machine) : Except Abort String :=
  if x.note.isAbsent then .ok ""
  else do
    let (c, s) ← m.memory.get m.world.store x.note
    if s.type c = .string then s.string c else .ok ""

/-- The error that an instruction stops with, in the state that it left. -/
def dataStop (pc : Int) (x : Instruction) (ops : List CellId) (c : DataCause) (m : Machine) :
    Stop :=
  match noteText x m with
  | .ok note => .data ⟨pc, x, ops.map m.world.store.shape, note, c⟩
  | .error a => .abort a

def instructionAt? (p : Program) (pc : Int) : Option Instruction :=
  if pc < 0 then none else p.code[pc.toNat]?

/-- Executes the instruction at `pc` and gives the address of the next one; a negative address
means that the program ended. -/
def step (env : Environment) (pc : Int) : EStateM Stop Machine Int := fun m =>
  match instructionAt? env.program pc with
  | none => .error (.abort .breakdown) m
  | some x =>
    match fetchAll x.operands m with
    | .error a m => .error (.abort a) m
    | .ok ops m =>
      match execute env pc x ops m with
      | .ok next m => .ok next m
      | .error (.abort a) m => .error (.abort a) m
      | .error (.data c) m => .error (dataStop pc x ops c m) m

/-- The description of what an operand stands for, if there is anything. -/
def describe? (m : Machine) (x : Operand) : Option String :=
  if x.part = .absent then some DataType.void.name
  else match m.memory.get m.world.store x with
    | .ok (c, s) => some (s.description c)
    | .error _ => none

/-- What a trace shows before a step: the instruction and descriptions of its operands, if they
can be fetched. -/
def traceText? (p : Program) (pc : Int) (m : Machine) : Option String := do
  let x ← instructionAt? p pc
  let ops ← x.operands.mapM m.describe?
  some (x.text ++ " -- [" ++ " ".intercalate ops ++ "]")

end Machine

end VectorMachine
