import VectorMachine.Program.Basic
import VectorMachine.Store.Basic

/-!
# Cacheable addresses

An address is cacheable if it always holds a scalar int, float or bool that nothing else can
show: a constant that is never handed over, or a local or register that is only allocated as a
scalar of one type and only written by instructions that produce this type from cacheable
operands.  The typing of a program is the greatest one with these properties: it starts from
all candidates and drops, until nothing changes, those with a write that does not fit.
-/

namespace VectorMachine.Accelerator
set_option autoImplicit false

/-- Cacheable addresses with the type of their scalars. -/
structure Typing where
  entries : List (Operand × DataType) := []
  deriving Inhabited

namespace Typing

def type? (g : Typing) (x : Operand) : Option DataType := g.entries.lookup x

def has (g : Typing) (x : Operand) : Bool := (g.type? x).isSome

/-- Whether every operand is cacheable and can be read as `t`. -/
def reads (g : Typing) (xs : List Operand) (t : DataType) : Bool :=
  xs.all fun x => (g.type? x).any fun u => u.converts t

/-- The type that a move assigns: that of its source if the annotation leaves it open. -/
def movedType (g : Typing) (t : DataType) (sources : List Operand) : DataType :=
  match t, sources with
  | .any, [x] => (g.type? x).getD .void
  | _, _ => t

/-- The type of the scalar that an instruction writes, if it reads cacheable operands only and its
operation accepts them. -/
def produces? (g : Typing) (x : Instruction) : Option DataType :=
  let t := x.type
  let sources := x.operands.drop 1
  match x.opcode with
  | .arithmetic _ | .negate => if (t = .int ∨ t = .float) ∧ g.reads sources t then some t else none
  | .compare op =>
    if t.isCacheable ∧ (t = .bool → op = .eq ∨ op = .neq) ∧ g.reads sources t then some .bool
    else none
  | .connect _ | .not => if t = .bool ∧ g.reads sources .bool then some .bool else none
  | .move =>
    let t := g.movedType t sources
    if t.isCacheable ∧ g.reads sources t then some t else none
  | _ => none

end Typing

def isWorkingPart (p : Partition) : Bool := p = .locals || p = .registers

/-- The scalar allocation that an instruction makes of a local or register. -/
def allocation? (x : Instruction) : Option (Operand × DataType) :=
  match x.opcode, x.operands with
  | .alloc, [d] => if x.type.isCacheable ∧ isWorkingPart d.part then some (d, x.type) else none
  | _, _ => none

/-- The operands that an instruction may link, show, hand over, or write in other ways than
producing a scalar. -/
def excluded (x : Instruction) : List Operand :=
  match x.opcode with
  | .alloc => if (allocation? x).isSome then [] else x.operands.take 1
  | .refer | .referElement => x.operands.take 2
  | .call => x.operands.drop 2
  | .callExternal => x.operands.take 1 ++ x.operands.drop 2
  | .ret => (x.operands.drop 2).take 1
  | .allocLike | .allocTop | .free | .cast | .fill | .movePop | .referPop | .moveElement =>
    x.operands.take 1
  | _ => []

/-- The constants that hold a scalar of a cacheable type. -/
def constantEntries (s : Store) (m : Memory) : List (Operand × DataType) :=
  m.constants.toList.zipIdx.filterMap fun (c, i) =>
    if (s.type c).isCacheable ∧ s.rank c = 0 then some (⟨.constants, (i : Int)⟩, s.type c) else none

/-- What may be cacheable as far as allocations and exclusions tell. -/
def candidates (code : List Instruction) (constants : List (Operand × DataType)) : Typing :=
  let out := code.flatMap excluded
  let allocations := code.filterMap allocation?
  ⟨(constants ++ allocations.eraseDups).filter fun (x, t) =>
    !out.contains x && allocations.all fun (y, u) => y != x || u == t⟩

/-- Whether an instruction other than an allocation writes `x`. -/
def writesTo (i : Instruction) (x : Operand) : Bool :=
  i.opcode.writes && i.opcode != .alloc && i.operands.head? == some x

/-- Whether all writes of an entry produce its type. -/
def isFitting (code : List Instruction) (g : Typing) (x : Operand) (t : DataType) : Bool :=
  x.part == .constants || code.all fun i => !writesTo i x || g.produces? i == some t

/-- Drops the entries with a write that does not fit. -/
def refine (code : List Instruction) (g : Typing) : Typing :=
  ⟨g.entries.filter fun (x, t) => isFitting code g x t⟩

def refineTimes (code : List Instruction) : Nat → Typing → Typing
  | 0, g => g
  | n + 1, g => refineTimes code n (refine code g)

/-- The cacheable addresses of a program.  Each round that changes anything drops an entry, so as
many rounds as there are entries reach the end. -/
def typing (p : Program) (s : Store) (m : Memory) : Typing :=
  let code := p.code.toList
  let g := candidates code (constantEntries s m)
  refineTimes code g.entries.length g

end VectorMachine.Accelerator
