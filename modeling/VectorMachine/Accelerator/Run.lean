import VectorMachine.Accelerator.Plan
import VectorMachine.Interpreter.Run

/-!
# Accelerated runs

An accelerated run keeps scalars in slots: all slots are loaded before the first instruction and
written back after the last one, also when the run fails.  A unit that cannot do its work hands
the instruction to the machine, with the slots of its operands written back before and loaded
after.
-/

namespace VectorMachine.Accelerator
set_option autoImplicit false

/-- The state of a run: a slot without a value stands for a void cell. -/
structure State where
  machine : Machine
  values : Array (Option Scalar)
  trace : Log.Trace
  /-- The width of the widest mark of the machine. -/
  machineWidth : Nat := 0
  /-- The width of the widest mark of the units. -/
  unitWidth : Nat := 0

/-- The scalar in the cell of a slot, if there is one of its type. -/
def loadSlot (s : Store) (x : Slot) : Option Scalar :=
  if s.type x.cell = x.type ∧ s.rank x.cell = 0 ∧ s.size x.cell = 1 then
    (s.scalar x.cell x.type).toOption
  else none

/-- Writes the value of a slot back to its cell; constants stay as they are. -/
def flushSlot (s : Store) (x : Slot) (v : Option Scalar) : Except Abort Store :=
  match v with
  | none => .ok s
  | some v =>
    if x.isConstant then .ok s
    else if s.type x.cell ≠ x.type ∨ s.rank x.cell ≠ 0 then do
      (← s.alloc x.cell x.type []).setScalar x.cell v
    else s.setScalar x.cell v

namespace State

def store (x : State) : Store := x.machine.world.store

def value? (x : State) (i : SlotId) : Option Scalar := (x.values[i]?).join

def float? (x : State) (i : SlotId) : Option Float :=
  match x.value? i with
  | some (.int v) => some (intToFloat v)
  | some (.float v) => some v
  | _ => none

def int? (x : State) (i : SlotId) : Option Int64 :=
  match x.value? i with
  | some (.int v) => some v
  | _ => none

def bool? (x : State) (i : SlotId) : Option Bool :=
  match x.value? i with
  | some (.bool v) => some v
  | _ => none

def set (x : State) (i : SlotId) (v : Scalar) : State :=
  { x with values := x.values.setIfInBounds i (some v) }

/-- Loads some slots from their cells. -/
def load (p : Plan) (ids : List SlotId) (x : State) : State :=
  { x with values := ids.foldl (fun vs i =>
      match p.slots[i]? with
      | some slot => vs.setIfInBounds i (loadSlot x.store slot)
      | none => vs) x.values }

/-- The first state of a run, with all slots loaded. -/
def start (p : Plan) (machine : Machine) (trace : Log.Trace) (width : Nat) : State :=
  load p p.slotIds
    { machine := machine, values := Array.replicate p.slots.size none, trace := trace,
      unitWidth := width }

def flushOne (p : Plan) (i : SlotId) : EStateM Stop State Unit := fun x =>
  match p.slots[i]? with
  | none => .ok () x
  | some slot =>
    match flushSlot x.store slot (x.value? i) with
    | .ok s => .ok () { x with machine.world.store := s }
    | .error a => .error (.abort a) x

def flush (p : Plan) : List SlotId → EStateM Stop State Unit
  | [] => pure ()
  | i :: ids => do
    flushOne p i
    flush p ids

end State

/-- A step of the machine, with its line in the trace. -/
def machineStep (env : Environment) (pc : Int) : EStateM Stop State Int :=
  fun ⟨machine, values, trace, machineWidth, unitWidth⟩ =>
    match Traced.step env pc ⟨machine, trace, machineWidth⟩ with
    | .ok next ⟨m, t, w⟩ => .ok next ⟨m, values, t, w, unitWidth⟩
    | .error e ⟨m, t, w⟩ => .error e ⟨m, values, t, w, unitWidth⟩

/-- Hands an instruction to the machine.  Slots are loaded again after a data error too, but not
after an abort. -/
def fallBack (env : Environment) (p : Plan) (cached : List SlotId) (pc : Int) :
    EStateM Stop State Int := do
  State.flush p cached
  fun x =>
    match machineStep env pc x with
    | .ok next x => .ok next (x.load p cached)
    | .error (.abort a) x => .error (.abort a) x
    | .error e x => .error e (x.load p cached)

/-- The new value of the destination slot of a scalar operation, if its operands allow one. -/
def ScalarOp.result? (x : State) : ScalarOp → Option (SlotId × Scalar)
  | .arithmetic op .int d a b => do
    let u ← x.int? a
    let v ← x.int? b
    if op.admitsDivisor v then some (d, .int (op.onInts u v)) else none
  | .arithmetic op _ d a b => do
    let u ← x.float? a
    let v ← x.float? b
    some (d, .float (op.onFloats u v))
  | .compare op .int d a b => do
    let u ← x.int? a
    let v ← x.int? b
    some (d, .bool (op.onInts u v))
  | .compare op .float d a b => do
    let u ← x.float? a
    let v ← x.float? b
    some (d, .bool (op.onFloats u v))
  | .compare op _ d a b => do
    let u ← x.bool? a
    let v ← x.bool? b
    let f ← op.onBools?
    some (d, .bool (f u v))
  | .connect op d a b => do
    let u ← x.bool? a
    if u = op.decider then some (d, .bool u)
    else
      let v ← x.bool? b
      some (d, .bool (op.apply u v))
  | .negate .int d a => do some (d, .int (- (← x.int? a)))
  | .negate _ d a => do some (d, .float (- (← x.float? a)))
  | .not d a => do some (d, .bool (!(← x.bool? a)))
  | .move d a => do some (d, ← x.value? a)

/-- The value in the type of the slot that takes it. -/
def coerce (t : DataType) (v : Scalar) : Scalar :=
  match t, v with
  | .float, .int i => .float (intToFloat i)
  | _, v => v

def storeResult (p : Plan) (x : State) (d : SlotId) (v : Scalar) : State :=
  match p.slots[d]? with
  | some slot => x.set d (coerce slot.type v)
  | none => x

/-- The elements that a unit on arrays delivers, if the three containers have one type and
shape. -/
def vectorLanes? (s : Store) (op : Arithmetic) (t : DataType) (d a b : CellId) : Option Lanes :=
  if s.type a = t ∧ s.type b = t ∧ s.type d = t ∧ 0 < s.rank a ∧
      s.lengths a = s.lengths b ∧ s.lengths a = s.lengths d then
    match s.window a, s.window b with
    | .ok (.ints xs), .ok (.ints ys) => some (.ints (Array.zipWith op.onInts xs ys))
    | .ok (.floats xs), .ok (.floats ys) => some (.floats (Array.zipWith op.onFloats xs ys))
    | _, _ => none
  else none

def fetchCell (x : Operand) : EStateM Stop State CellId := fun st =>
  match Machine.fetch x st.machine with
  | .ok c m => .ok c { st with machine := m }
  | .error a m => .error (.abort a) { st with machine := m }

/-- Gives a slot without a value the zero of its type. -/
def State.allocate (p : Plan) (d : SlotId) (x : State) : State :=
  match x.value? d, (p.slots[d]?).bind fun slot => (Lanes.zeros? slot.type 1).bind (·.get? 0) with
  | none, some zero => x.set d zero
  | _, _ => x

/-- Writes the elements of a unit on arrays into its destination; no elements leave the
instruction to the machine. -/
def deliverLanes (env : Environment) (p : Plan) (cached : List SlotId) (pc : Int) (d : CellId)
    (data : Option Lanes) : EStateM Stop State Int := fun x =>
  match data with
  | some data => .ok (pc + 1) { x with machine.world.store := x.store.write d data }
  | none => fallBack env p cached pc x

def execute (env : Environment) (p : Plan) (u : ExecutionUnit) (pc : Int) :
    EStateM Stop State Int :=
  match u.kind with
  | .skip => pure (pc + 1)
  | .fallback => fallBack env p u.cached pc
  | .alloc d => fun x => .ok (pc + 1) (x.allocate p d)
  | .jump condition on target => fun x =>
    match x.bool? condition with
    | some b => .ok (if b = on then target else pc + 1) x
    | none => fallBack env p u.cached pc x
  | .scalar op => fun x =>
    match op.result? x with
    | some (d, v) => .ok (pc + 1) (storeResult p x d v)
    | none => fallBack env p u.cached pc x
  | .vector op t d a b => do
    let d ← fetchCell d
    let a ← fetchCell a
    let b ← fetchCell b
    deliverLanes env p u.cached pc d (vectorLanes? (← get).store op t d a b)

/-- Executes the unit at `pc`; the units that are not fallbacks have a line of their own in the
trace. -/
def step (env : Environment) (p : Plan) (pc : Int) : EStateM Stop State Int := fun x =>
  match p.units[pc.toNat]? with
  | none => .error (.abort .breakdown) x
  | some u =>
    let x :=
      if u.isFallback then x
      else
        let text := (Machine.instructionAt? env.program pc).elim "" Instruction.text
        let (width, trace) := x.trace.add x.unitWidth ("@" ++ toString pc) text
        { x with trace := trace, unitWidth := width }
    execute env p u pc x

/-- What the trace says of a new plan. -/
def Plan.summary (p : Plan) : String :=
  "compiled " ++ toString p.units.size ++ " units: " ++ toString p.specializedCount ++
    " specialized, " ++ toString p.fallbackCount ++ " fallback, " ++ toString p.cachedCount ++
    " cached scalars"

/-- Runs a program by its plan.  The last result is the width of the widest unit mark. -/
def runPlan (env : Environment) (p : Plan) (patience : Patience) (world : World) (memory : Memory)
    (trace : Log.Trace) (width : Nat) : RunResult × Nat :=
  let start := State.start p { world := world, memory := memory } trace width
  let (outcome, steps, x) := driveAll p.units.size (step env p) patience start
  let (outcome, x) := match State.flush p p.slotIds x with
    | .ok _ x => (outcome, x)
    | .error e x => (.error e, x)
  ({ outcome := outcome,
     stats := { steps := steps, specialized := p.specializedCount, fallback := p.fallbackCount,
                cachedScalars := p.cachedCount },
     world := x.machine.world, memory := x.machine.memory, trace := x.trace }, x.unitWidth)

end VectorMachine.Accelerator
