import VectorMachine.Accelerator.Typing
import VectorMachine.Memory

/-!
# Plans

A plan has one execution unit for each instruction of a program.  Units on scalars work on slots
that keep the values of cacheable addresses, units on arrays work on containers of one shape, and
all other instructions fall back to the machine.
-/

namespace VectorMachine.Accelerator
set_option autoImplicit false

abbrev SlotId := Nat

/-- The place of a cacheable address: its operand, its cell and the type of its scalar. -/
structure Slot where
  operand : Operand
  cell : CellId
  type : DataType
  deriving DecidableEq, Repr, Inhabited

def Slot.isConstant (x : Slot) : Bool := x.operand.part == .constants

/-- What a unit does on slots. -/
inductive ScalarOp where
  | arithmetic (op : Arithmetic) (type : DataType) (dst a b : SlotId)
  | compare (op : Comparison) (type : DataType) (dst a b : SlotId)
  | connect (op : Connective) (dst a b : SlotId)
  | negate (type : DataType) (dst a : SlotId)
  | not (dst a : SlotId)
  | move (dst a : SlotId)
  deriving DecidableEq, Repr, Inhabited

inductive UnitKind where
  | skip
  | alloc (dst : SlotId)
  | jump (condition : SlotId) (on : Bool) (target : Int)
  | scalar (op : ScalarOp)
  | vector (op : Arithmetic) (type : DataType) (dst a b : Operand)
  | fallback
  deriving DecidableEq, Repr, Inhabited

/-- An execution unit; `cached` are the slots of its operands, which are written back before the
machine takes over. -/
structure ExecutionUnit where
  kind : UnitKind
  cached : List SlotId := []
  deriving DecidableEq, Repr, Inhabited

def ExecutionUnit.isFallback (u : ExecutionUnit) : Bool := u.kind == .fallback

structure Plan where
  units : Array ExecutionUnit := #[]
  slots : Array Slot := #[]
  deriving Inhabited, Repr

namespace Plan

def fallbackCount (p : Plan) : Nat := (p.units.filter ExecutionUnit.isFallback).size

def specializedCount (p : Plan) : Nat := p.units.size - p.fallbackCount

def slotIds (p : Plan) : List SlotId := List.range p.slots.size

def cachedCount (p : Plan) : Nat := (p.slots.filter fun x => !x.isConstant).size

end Plan

/-- What the units of a plan are built from. -/
structure Source where
  typing : Typing
  store : Store
  memory : Memory
  scalarCache : Bool

/-- Building a plan may meet an address that is not there. -/
abbrev Build := StateT (Array Slot) (Except Abort)

/-- The slot of an operand, if it is cacheable; a first use makes it. -/
def slotOf (src : Source) (x : Operand) : Build (Option SlotId) := fun slots =>
  match slots.findIdx? (·.operand == x) with
  | some i => .ok (some i, slots)
  | none =>
    match src.typing.type? x with
    | none => .ok (none, slots)
    | some t => do
      let (c, _) ← src.memory.get src.store x
      .ok (some slots.size, slots.push ⟨x, c, t⟩)

def slotsOf (src : Source) (xs : List Operand) : Build (List (Option SlotId)) :=
  xs.mapM (slotOf src)

/-- The slots that a unit has to write back, each once. -/
def cachedSlots (src : Source) (x : Instruction) : Build (List SlotId) := do
  return ((← slotsOf src x.operands).filterMap id).eraseDups

def slotType? (i : Option SlotId) : Build (Option DataType) := do
  let slots ← get
  return i.bind fun i => slots[i]?.map Slot.type

def withCached (src : Source) (x : Instruction) (kind : UnitKind) : Build ExecutionUnit := do
  return ⟨kind, ← cachedSlots src x⟩

def allocUnit? (src : Source) (x : Instruction) : Build (Option ExecutionUnit) :=
  match x.operands with
  | [d] => do
    let slot ← slotOf src d
    match slot, ← slotType? slot with
    | some i, some t => return if t = x.type then some ⟨.alloc i, []⟩ else none
    | _, _ => return none
  | _ => return none

/-- A jump on a cached condition; its target is read now, once for all. -/
def jumpUnit? (src : Source) (x : Instruction) (on : Bool) : Build (Option ExecutionUnit) :=
  match x.operands with
  | _ :: target :: condition :: _ => do
    let (c, s) ← src.memory.get src.store target
    if s.type c ≠ .int ∨ s.rank c ≠ 0 then return none
    let slot ← slotOf src condition
    match slot, ← slotType? slot with
    | some i, some .bool =>
      let addr ← s.int c
      return some (← withCached src x (.jump i on addr.toInt))
    | _, _ => return none
  | _ => return none

/-- The operation of an instruction on slots. -/
def scalarOp? (x : Instruction) (slots : List SlotId) : Option ScalarOp :=
  match x.opcode, slots with
  | .arithmetic op, [d, a, b] => some (.arithmetic op x.type d a b)
  | .compare op, [d, a, b] => some (.compare op x.type d a b)
  | .connect op, [d, a, b] => some (.connect op d a b)
  | .negate, [d, a] => some (.negate x.type d a)
  | .not, [d, a] => some (.not d a)
  | .move, [d, a] => some (.move d a)
  | _, _ => none

/-- Whether an instruction writes a cached destination with its type, or writes nothing. -/
def fitsDestination (src : Source) (x : Instruction) : Build Bool :=
  if !x.opcode.writes then return true
  else match x.operands with
    | [] => return false
    | d :: _ => do
      match ← slotType? (← slotOf src d) with
      | none => return false
      | some t => return src.typing.produces? x == some t

def operationUnit? (src : Source) (x : Instruction) : Build (Option ExecutionUnit) := do
  if !(← fitsDestination src x) then return none
  let slots ← slotsOf src x.operands
  match slots.mapM id with
  | none => return none
  | some slots =>
    match scalarOp? x slots with
    | none => return none
    | some op => return some (← withCached src x (.scalar op))

/-- A unit on slots, if the instruction allows one. -/
def scalarUnit? (src : Source) (x : Instruction) : Build (Option ExecutionUnit) :=
  match x.opcode with
  | .alloc => allocUnit? src x
  | .jump on => jumpUnit? src x on
  | _ => operationUnit? src x

/-- The operations that have units on arrays. -/
def isVectorOp (op : Arithmetic) (t : DataType) : Bool :=
  match op with
  | .add | .sub | .mul => t = .int || t = .float
  | .div => t = .float
  | .rem => false

/-- A unit on arrays of one shape, if the instruction allows one. -/
def vectorUnit? (src : Source) (x : Instruction) : Build (Option ExecutionUnit) :=
  match x.opcode, x.operands with
  | .arithmetic op, [d, a, b] => do
    if !isVectorOp op x.type then return none
    if x.operands.any fun y => y.isAbsent || src.typing.has y then return none
    return some (← withCached src x (.vector op x.type d a b))
  | _, _ => return none

def isNoOperation : Opcode → Bool
  | .nop | .label | .allocType | .endParameters => true
  | _ => false

/-- The unit of an instruction that needs containers: elementwise arithmetic, or a fallback. -/
def containerUnit (src : Source) (x : Instruction) : Build ExecutionUnit := do
  if let some u ← vectorUnit? src x then return u
  withCached src x .fallback

def buildUnit (src : Source) (x : Instruction) : Build ExecutionUnit := do
  if isNoOperation x.opcode then return ⟨.skip, []⟩
  if src.scalarCache then
    if let some u ← scalarUnit? src x then return u
  containerUnit src x

/-- What the plan of a program on a memory is built from. -/
def sourceOf (p : Program) (store : Store) (memory : Memory) (scalarCache : Bool) : Source where
  typing := if scalarCache then typing p store memory else {}
  store := store
  memory := memory
  scalarCache := scalarCache

def compile (p : Program) (store : Store) (memory : Memory) (scalarCache : Bool) :
    Except Abort Plan := do
  let (units, slots) ← (p.code.mapM (buildUnit (sourceOf p store memory scalarCache))).run #[]
  .ok { units := units, slots := slots }

end VectorMachine.Accelerator
