import VectorMachine.Proofs.Machine.Effects
import VectorMachine.Proofs.Program.Assembled

/-!
# Stack frames

A step looks at the stack from the top only.  So a step on a stack with more cells below is the same
step, with these cells kept below; unless it takes the top of an empty stack, where the larger stack
has one.
-/

namespace VectorMachine
set_option autoImplicit false

/-- Whether an operation removes the top of the stack. -/
def Opcode.pops : Opcode → Bool
  | .pop | .movePop | .referPop | .ret => true
  | _ => false

namespace Machine

variable {P : Array CellId} {m m' : Machine} {α β ε : Type} {pc : Int} {z : Instruction}
  {ops : List CellId}

/-- The machine with more cells below its stack. -/
def above (P : Array CellId) (m : Machine) : Machine :=
  { m with memory.stack := P ++ m.memory.stack }

@[simp] theorem world_above : (m.above P).world = m.world := rfl

@[simp] theorem running_above : (m.above P).running = m.running := rfl

@[simp] theorem stack_above : (m.above P).memory.stack = P ++ m.memory.stack := rfl

/-- Every machine is one over the lower part of its stack. -/
theorem exists_above {T : Array CellId} (h : m.memory.stack = P ++ T) :
    ∃ n : Machine, m = n.above P ∧ n.memory.stack = T := by
  obtain ⟨world, ⟨globals, locals, constants, registers, stack⟩, running⟩ := m
  cases h
  exact ⟨⟨world, ⟨globals, locals, constants, registers, T⟩, running⟩, rfl, rfl⟩

/-- The outcome of a computation with more cells below the stack. -/
def lifted (P : Array CellId) : EStateM.Result ε Machine α → EStateM.Result ε Machine α
  | .ok a m => .ok a (m.above P)
  | .error e m => .error e (m.above P)

/-- A computation leaves alone what lies below the stack. -/
def Frames (P : Array CellId) (x : EStateM ε Machine α) (m : Machine) : Prop :=
  x (m.above P) = lifted P (x m)

theorem Frames.bind {x : EStateM ε Machine α} {f : α → EStateM ε Machine β} (hx : Frames P x m)
    (hf : ∀ a m', x m = .ok a m' → Frames P (f a) m') : Frames P (x >>= f) m := by
  simp only [Frames, Bind.bind, EStateM.bind] at *
  rw [hx]
  cases hr : x m with
  | ok a m' => exact hf a m' hr
  | error e m' => rfl

theorem Frames.pure (a : α) : Frames P (Pure.pure a : EStateM ε Machine α) m := rfl

theorem Frames.throw (e : ε) : Frames P (MonadExcept.throw e : EStateM ε Machine α) m := rfl

theorem frames_consult {f : Machine → Except Failure α} (hf : f (m.above P) = f m) :
    Frames P (consult f) m := by
  simp only [Frames, consult, hf]
  cases f m <;> rfl

theorem frames_onStore (f : Store → Except Failure Store) : Frames P (onStore f) m := by
  simp only [Frames, onStore, world_above]
  cases f m.world.store <;> rfl

theorem frames_address (c : CellId) : Frames P (address c) m := frames_consult rfl

theorem frames_modify {f : Machine → Machine} (hf : f (m.above P) = (f m).above P) :
    Frames P (modify f : EStateM ε Machine PUnit) m :=
  congrArg (EStateM.Result.ok PUnit.unit) hf

theorem frames_onDestination (f : CellId → Store → Except Failure Store) :
    Frames P (onDestination ops f) m := by
  cases ops with
  | nil => exact .throw _
  | cons d ops => exact frames_onStore _

theorem frames_push (c : CellId) : Frames P (push c) m :=
  frames_modify (by simp [above, Memory.push])

theorem frames_pop (h : m.memory.stack ≠ #[]) : Frames P pop m := by
  have hsize : m.memory.stack.size ≠ 0 := by simpa using h
  obtain ⟨T, c, hT⟩ := Array.eq_push_of_size_ne_zero hsize
  simp [Frames, pop, Memory.pop, hT, above, lifted, ← Array.push_append]

theorem frames_peek (h : m.memory.stack ≠ #[]) : Frames P peek m := by
  have hsize : m.memory.stack.size ≠ 0 := by simpa using h
  obtain ⟨T, c, hT⟩ := Array.eq_push_of_size_ne_zero hsize
  exact frames_consult (by simp [Memory.peek, hT, ← Array.push_append])

theorem frames_pushFresh : Frames P pushFresh m := by
  have h := frames_push (P := P) (m := { m with world.store := m.store.fresh.2 }) m.store.fresh.1
  exact h

theorem frames_pushScalar (x : Scalar) : Frames P (pushScalar x) m := by
  have h := frames_push (P := P) (m := { m with world.store := (m.store.ofScalar x).2 })
    (m.store.ofScalar x).1
  exact h

theorem frames_handedOver (y : Operand) (c : CellId) : Frames P (handedOver y c) m := by
  simp only [Frames, handedOver, world_above]
  split
  · cases m.world.store.clone c <;> rfl
  · rfl

theorem frames_handedOverAll (ys : List Operand) (cs : List CellId) :
    Frames P (handedOverAll ys cs) m := by
  induction ys generalizing cs m with
  | nil => exact .pure _
  | cons y ys ih =>
    cases cs with
    | nil => exact .pure _
    | cons c cs =>
      refine (frames_handedOver y c).bind fun d m₁ _ => ?_
      exact (ih cs).bind fun _ _ _ => .pure _

theorem frames_pushAll (ys : List Operand) (cs : List CellId) : Frames P (pushAll ys cs) m := by
  induction ys generalizing cs m with
  | nil => exact .pure _
  | cons y ys ih =>
    cases cs with
    | nil => exact .pure _
    | cons c cs =>
      refine (frames_handedOver y c).bind fun d m₁ _ => ?_
      exact (frames_push d).bind fun _ _ _ => ih cs

/-- What is asked of the state is no part of the stack. -/
theorem Frames.get {f : Machine → EStateM ε Machine β} (hf : f (m.above P) = f m)
    (h : Frames P (f m) m) : Frames P (MonadState.get >>= f) m := by
  change f (m.above P) (m.above P) = lifted P (f m m)
  rw [hf]
  exact h

theorem frames_call (p : Program) : Frames P (call p pc z ops) m := by
  unfold call
  split
  · rename_i target args
    refine (frames_address _).bind fun f m₁ _ => ?_
    refine .get rfl ?_
    have hrest : Frames P (do
        modify fun m => { m with running := f :: m.running }
        pushScalar (.int (Int64.ofInt (pc + 1)))
        pushAll (z.operands.drop 2) args
        return f : Action Int) m₁ := by
      refine (frames_modify (ε := Failure)
        (f := fun m => { m with running := f :: m.running }) rfl).bind fun _ m₂ _ => ?_
      refine (frames_pushScalar _).bind fun _ m₃ _ => ?_
      exact (frames_pushAll _ _).bind fun _ _ _ => .pure _
    split
    · exact (Frames.throw _).bind fun _ _ h => by cases h
    · exact hrest
  · exact .throw _

theorem frames_pushValue : Frames P (pushValue z ops) m := by
  unfold pushValue
  split
  · exact (frames_handedOver _ _).bind fun _ _ _ => frames_push _
  · exact frames_pushFresh

theorem frames_leave : Frames P (leave ops) m := by
  unfold leave
  split
  · exact (frames_address _).bind fun _ _ _ => frames_modify rfl
  · exact .throw _

theorem frames_ret (h : m.memory.stack ≠ #[]) : Frames P (ret z ops) m := by
  refine (frames_pop h).bind fun top m₁ _ => ?_
  refine (frames_address top).bind fun back m₂ _ => ?_
  refine frames_pushValue.bind fun _ m₃ _ => ?_
  exact frames_leave.bind fun _ _ _ => .pure _

theorem frames_invoke (p : Program) (link : Linker) (index : Int) (args : List CellId)
    (result : CellId) : Frames P (invoke p link index args result) m := by
  simp only [Frames, invoke, world_above]
  rcases link index args result m.world with _ | ⟨_ | _, _⟩ <;> rfl

theorem frames_callExternal (env : Environment) : Frames P (callExternal env z ops) m := by
  unfold callExternal
  split
  · exact .throw _
  · refine (frames_address _).bind fun index m₁ _ => ?_
    refine (frames_handedOverAll _ _).bind fun args m₂ _ => ?_
    exact frames_invoke _ _ _ _ _
  · exact .throw _

theorem frames_endFunction (p : Program) : Frames P (endFunction p ops) m := by
  refine Frames.bind ?_ fun _ _ _ => .throw _
  cases ops with
  | nil => exact .pure _
  | cons c cs =>
    refine .get rfl ?_
    cases m.world.store.type c
    case string => exact frames_consult rfl
    case int => exact (frames_address _).bind fun _ _ _ => .pure _
    all_goals exact .pure _

theorem frames_control (env : Environment)
    (h : z.opcode.pops = true ∨ z.opcode = .allocTop → m.memory.stack ≠ #[]) :
    Frames P (control env pc z ops) m := by
  unfold control
  cases hop : z.opcode
  case allocTop =>
    refine (frames_peek (h (.inr hop))).bind fun like m₁ _ => ?_
    exact (frames_onDestination _).bind fun _ _ _ => .pure _
  case pop => exact (frames_pop (h (.inl (by simp [hop, Opcode.pops])))).bind fun _ _ _ => .pure _
  case movePop =>
    refine (frames_pop (h (.inl (by simp [hop, Opcode.pops])))).bind fun top m₁ _ => ?_
    exact (frames_onDestination _).bind fun _ _ _ => .pure _
  case referPop =>
    refine (frames_pop (h (.inl (by simp [hop, Opcode.pops])))).bind fun top m₁ _ => ?_
    exact (frames_onDestination _).bind fun _ _ _ => .pure _
  case jump on =>
    rcases ops with _ | ⟨_, _ | ⟨target, _ | ⟨condition, ops⟩⟩⟩
    case cons.cons.cons =>
      refine (frames_consult rfl).bind fun b m₁ _ => ?_
      cases b with
      | true => exact frames_address _
      | false => exact .pure _
    all_goals exact .throw _
  case call => exact frames_call _
  case callExternal => exact (frames_callExternal env).bind fun _ _ _ => .pure _
  case ret => exact frames_ret (h (.inl (by simp [hop, Opcode.pops])))
  case endFunction => exact (frames_endFunction _).bind fun _ _ _ => .pure _
  case finish | nop | label | allocType | endParameters => exact .pure _
  all_goals exact .throw _

theorem frames_execute (env : Environment)
    (h : z.opcode.pops = true ∨ z.opcode = .allocTop → m.memory.stack ≠ #[]) :
    Frames P (execute env pc z ops) m := by
  unfold execute
  cases change? z ops with
  | none => exact frames_control env h
  | some f => exact (frames_onStore f).bind fun _ _ _ => .pure _

theorem cells?_above {part : Partition} (h : part ≠ .stack) :
    (m.above P).memory.cells? part = m.memory.cells? part := by
  cases part <;> first | rfl | exact absurd rfl h

theorem get_above {y : Operand} {s : Store} (hy : y.part ≠ .stack) :
    (m.above P).memory.get s y = m.memory.get s y := by
  obtain ⟨part, addr⟩ := y
  cases part <;> first | rfl | exact absurd rfl hy

theorem cell?_above {y : Operand} (hy : y.part ≠ .stack) :
    (m.above P).memory.cell? y = m.memory.cell? y := by
  simp only [Memory.cell?, cells?_above hy]

theorem frames_fetch {y : Operand} (hy : y.part ≠ .stack) : Frames P (fetch y) m := by
  simp only [Frames, fetch, world_above, get_above hy]
  split
  · rfl
  · cases m.memory.get m.world.store y <;> rfl

theorem frames_fetchAll {ys : List Operand} (hys : ∀ y ∈ ys, y.part ≠ .stack) :
    Frames P (fetchAll ys) m := by
  induction ys generalizing m with
  | nil => exact .pure _
  | cons y ys ih =>
    refine (frames_fetch (hys y (by simp))).bind fun c m₁ _ => ?_
    exact (ih fun y' hy' => hys y' (by simp [hy'])).bind fun _ _ _ => .pure _

theorem dataStop_above (c : DataCause) (hn : z.note.part ≠ .stack) :
    dataStop pc z ops c (m.above P) = dataStop pc z ops c m := by
  simp only [dataStop, noteText, world_above, get_above hn]

/-- An instruction addresses the stack from the top only. -/
structure Topmost (z : Instruction) : Prop where
  operands : ∀ y ∈ z.operands, y.part ≠ .stack
  note : z.note.part ≠ .stack

/-- A step on a larger stack is the same step, unless it needs a top that the smaller stack does not
have. -/
theorem frames_step {env : Environment} (hz : instructionAt? env.program pc = some z)
    (htop : Topmost z) (h : z.opcode.pops = true ∨ z.opcode = .allocTop → m.memory.stack ≠ #[]) :
    Frames P (step env pc) m := by
  have hf := frames_fetchAll (P := P) (m := m) htop.operands
  simp only [Frames, step, hz] at *
  rw [hf]
  cases hr : fetchAll z.operands m with
  | error a m₁ => rfl
  | ok ops m₁ =>
    obtain ⟨n, hn, -⟩ := fetchAll_spec z.operands m
    rw [hr] at hn
    obtain rfl : m₁ = m.grown n := hn
    have he : Frames P (execute env pc z ops) (m.grown n) := frames_execute env h
    simp only [Frames] at he
    simp only [lifted, he]
    cases hx : execute env pc z ops (m.grown n) with
    | ok next m₂ => rfl
    | error e m₂ =>
      cases e with
      | abort a => rfl
      | data c => simp only [dataStop_above c htop.note]

end Machine

theorem Instruction.Admissible.topmost {p : Program} {z : Instruction} (h : z.Admissible p) :
    Machine.Topmost z := by
  have hknows : ∀ {y : Operand}, p.Knows y → y.part ≠ .stack := by
    intro y hy hs
    simp [Program.Knows, hs] at hy
  exact ⟨fun y hy => hknows (h.knows y hy), hknows h.notes.1⟩

end VectorMachine
