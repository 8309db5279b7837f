import VectorMachine.Processor
import VectorMachine.Proofs.Accelerator.Plans
import VectorMachine.Proofs.Machine.Pools
import VectorMachine.Proofs.Machine.Runs

/-!
# Sessions on one memory

A session allocates a memory and runs its program on it any number of times, on the machine or by
a plan.  Its stages are the states between two runs and all states inside them: a run may stop
after any of its steps, and the steps may come in any order, which only adds stages.
-/

namespace VectorMachine
set_option autoImplicit false

inductive Stage where
  | idle (machine : Machine)
  | interpreting (machine : Machine)
  | accelerating (plan : Accelerator.Plan) (state : Accelerator.State)

def Stage.machine : Stage → Machine
  | .idle m => m
  | .interpreting m => m
  | .accelerating _ x => x.machine

/-- How a session on a memory starts: containers that are there before, some of which are bound
as globals, and the new memory. -/
structure Launch where
  program : Program
  linker : Option Linker
  /-- The containers that are there before the memory. -/
  containers : Store
  globals : Array CellId
  memory : Memory
  store : Store
  journal : Array String := #[]

namespace Launch

/-- The number of containers that are there before the memory. -/
def base (l : Launch) : Nat := l.containers.cells.size

def environment (l : Launch) : Environment := ⟨l.program, l.linker⟩

def machine (l : Launch) : Machine := { world := ⟨l.store, l.journal⟩, memory := l.memory }

/-- An assembled program on a memory that was allocated for it, with containers of its host as
globals. -/
structure Prepared (l : Launch) : Prop where
  assembled : ∃ src syms, Assembler.assemble src syms = .ok l.program
  sound : l.containers.Sound
  globals_lt : ∀ c ∈ l.globals, c < l.base
  allocated : Memory.allocate l.containers l.program.layout l.globals = .ok (l.memory, l.store)

/-- The containers that the memory has not made itself. -/
def Outside (l : Launch) (c : CellId) : Prop :=
  ∀ y : Operand, y.IsOwn → l.memory.cell? y ≠ some c

/-- A session whose host code may know all containers but those of the memory. -/
structure Valid (l : Launch) : Prop extends l.Prepared where
  reaches : ∀ link, l.linker = some link → link.Reaches l.Outside

/-- A session whose host code may know all containers but the constants. -/
structure Sparing (l : Launch) : Prop extends l.Prepared where
  reaches : ∀ link, l.linker = some link → link.Reaches (· ∉ l.memory.constants)

theorem Prepared.wellFormed {l : Launch} (hl : l.Prepared) : l.program.WellFormed := by
  obtain ⟨src, syms, h⟩ := hl.assembled
  exact Assembler.wellFormed_assemble h

theorem Prepared.admissible {l : Launch} (hl : l.Prepared) {z : Instruction} {pc : Int}
    (hz : Machine.instructionAt? l.program pc = some z) : z.Admissible l.program :=
  hl.wellFormed.admissible hz

theorem Valid.sparing {l : Launch} (hl : l.Valid) : l.Sparing := by
  refine ⟨hl.toPrepared, fun link hlink => (hl.reaches link hlink).mono fun c hc hmem => ?_⟩
  obtain ⟨y, hy, hyc⟩ := Memory.exists_cell?_of_constant hmem
  exact hc y (.inr (.inr hy)) hyc

/-- Host code leaves the guarded cells of the memory alone. -/
theorem Valid.staysIn {l : Launch} (hl : l.Valid) {m : Machine} {Q : Operand → Prop}
    (hQ : ∀ {y}, Q y → y.IsOwn)
    (hown : ∀ {y : Operand}, y.IsOwn → m.memory.cell? y = l.memory.cell? y) :
    ∀ link, l.linker = some link → link.StaysIn fun c => ¬ m.IsGuard Q c := by
  intro link hlink
  refine hl.reaches link hlink _ fun c hc => ?_
  rintro ⟨y, hy, hyc⟩
  exact hc y (hQ hy) ((hown (hQ hy)).symm.trans hyc)

end Launch

/-- The session of a program with containers of its host, some of which are its globals. -/
def Launch.on (p : Program) (linker : Option Linker) (containers : Store)
    (globals : Array CellId) : Launch :=
  let r := (Memory.allocate containers p.layout globals).toOption.getD default
  { program := p, linker := linker, containers := containers, globals := globals,
    memory := r.1, store := r.2 }

theorem Launch.prepared_on {p : Program} {linker : Option Linker} {containers : Store}
    {globals : Array CellId} {src : String}
    (hasm : (Assembler.assemble src {}).toOption = some p) (hs : containers.Sound)
    (hg : ∀ c ∈ globals, c < containers.cells.size)
    (hok : (Memory.allocate containers p.layout globals).toOption.isSome = true) :
    (Launch.on p linker containers globals).Prepared := by
  refine ⟨⟨src, {}, eq_ok_of_toOption hasm⟩, hs, hg, ?_⟩
  obtain ⟨r, hr⟩ := Option.isSome_iff_exists.mp hok
  simp only [Launch.on, hr, Option.getD_some]
  exact eq_ok_of_toOption hr

theorem Launch.valid_on {p : Program} {linker : Option Linker} {containers : Store}
    {globals : Array CellId} {src : String}
    (hasm : (Assembler.assemble src {}).toOption = some p) (hs : containers.Sound)
    (hg : ∀ c ∈ globals, c < containers.cells.size)
    (hok : (Memory.allocate containers p.layout globals).toOption.isSome = true)
    (hlink : ∀ link, linker = some link → link.Confined) :
    (Launch.on p linker containers globals).Valid :=
  ⟨prepared_on hasm hs hg hok, fun link h => (hlink link h).reaches _⟩

/-- The stages of a session.  Plans are used only if `accelerated` is set; a plan is compiled
between two runs and used from then on. -/
inductive Reached (l : Launch) (accelerated : Bool) : Stage → Prop
  | allocated : Reached l accelerated (.idle l.machine)
  | rewound {m : Machine} {globals : Array CellId} : Reached l accelerated (.idle m) →
      (∀ c ∈ globals, c < l.base) → Reached l accelerated (.idle (m.rewound globals))
  | interpret {m : Machine} : Reached l accelerated (.idle m) →
      Reached l accelerated (.interpreting { m with running := [] })
  | step {m : Machine} (pc : Int) : Reached l accelerated (.interpreting m) →
      Reached l accelerated (.interpreting (finalState (Machine.step l.environment pc m)))
  | interpreted {m : Machine} : Reached l accelerated (.interpreting m) →
      Reached l accelerated (.idle m)
  | accelerate {m₀ m : Machine} {cache : Bool} {plan : Accelerator.Plan} (trace : Log.Trace)
      (width : Nat) : accelerated = true → Reached l accelerated (.idle m₀) →
      Accelerator.compile l.program m₀.store m₀.memory cache = .ok plan →
      Reached l accelerated (.idle m) → Reached l accelerated
        (.accelerating plan (.start plan { m with running := [] } trace width))
  | unit {plan : Accelerator.Plan} {x : Accelerator.State} (pc : Int) :
      Reached l accelerated (.accelerating plan x) → Reached l accelerated
        (.accelerating plan (finalState (Accelerator.step l.environment plan pc x)))
  | accelerated {plan : Accelerator.Plan} {x : Accelerator.State} :
      Reached l accelerated (.accelerating plan x) → Reached l accelerated
        (.idle (finalState (Accelerator.State.flush plan plan.slotIds x)).machine)

variable {l : Launch} {accelerated : Bool} {m : Machine}

theorem Launch.not_accelerating {plan : Accelerator.Plan} {x : Accelerator.State} {stage : Stage}
    (h : Reached l false stage) : stage ≠ .accelerating plan x := by
  induction h generalizing plan x with
  | accelerate _ _ ha => cases ha
  | unit pc _ ih => exact absurd rfl ih
  | _ => exact Stage.noConfusion

/-! ### Runs of a processor are parts of sessions -/

theorem reached_interpret (h : Reached l accelerated (.idle m)) (patience : Patience)
    (trace : Log.Trace) : ∃ m', Reached l accelerated (.idle m') ∧
      m'.world = (interpret l.environment patience m.world m.memory trace).world ∧
      m'.memory = (interpret l.environment patience m.world m.memory trace).memory := by
  have hstep : ∀ pc (x : Traced), Reached l accelerated (.interpreting x.machine) →
      Reached l accelerated (.interpreting (finalState (Traced.step l.environment pc x)).machine) :=
    fun pc x hx => by
      rw [Traced.finalState_step]
      exact hx.step pc
  have hrun := driveAll_keeps hstep l.environment.program.code.size patience
    { machine := { world := m.world, memory := m.memory }, trace := trace } h.interpret
  exact ⟨_, hrun.interpreted, rfl, rfl⟩

/-- A plan that was compiled between two runs. -/
def Serves (l : Launch) (accelerated : Bool) (plan : Accelerator.Plan) : Prop :=
  accelerated = true ∧ ∃ m₀ cache, Reached l accelerated (.idle m₀) ∧
    Accelerator.compile l.program m₀.store m₀.memory cache = .ok plan

theorem reached_runPlan {plan : Accelerator.Plan} (hs : Serves l accelerated plan)
    (h : Reached l accelerated (.idle m)) (patience : Patience) (trace : Log.Trace)
    (width : Nat) : ∃ m', Reached l accelerated (.idle m') ∧
      m'.world =
        (Accelerator.runPlan l.environment plan patience m.world m.memory trace width).1.world ∧
      m'.memory =
        (Accelerator.runPlan l.environment plan patience m.world m.memory trace width).1.memory := by
  obtain ⟨ha, m₀, cache, hm₀, hc⟩ := hs
  have hrun := driveAll_keeps (P := fun x => Reached l accelerated (.accelerating plan x))
    (fun pc _ hx => hx.unit pc) plan.units.size patience _ (Reached.accelerate trace width ha hm₀ hc h)
  refine ⟨_, hrun.accelerated, ?_, ?_⟩
  · unfold Accelerator.runPlan
    simp only
    split <;> (rename_i hf; rw [hf]; rfl)
  · unfold Accelerator.runPlan
    simp only
    split <;> (rename_i hf; rw [hf]; rfl)

/-- The plan of a processor, if it has one, was compiled in the session. -/
def Processor.Serves (l : Launch) (accelerated : Bool) : Processor → Prop
  | .interpreter => True
  | .accelerator _ known _ =>
    accelerated = true ∧ ∀ plan, known = some plan → VectorMachine.Serves l accelerated plan

/-- A run of a processor ends in a stage of the session, and so does the next one. -/
theorem reached_process {proc : Processor} (hp : proc.Serves l accelerated)
    (h : Reached l accelerated (.idle m)) (patience : Patience) (trace : Log.Trace) :
    (∃ m', Reached l accelerated (.idle m') ∧
      m'.world = (proc.process l.environment patience m.world m.memory trace).1.world ∧
      m'.memory = (proc.process l.environment patience m.world m.memory trace).1.memory) ∧
    (proc.process l.environment patience m.world m.memory trace).2.Serves l accelerated := by
  cases proc with
  | interpreter =>
    obtain ⟨m', hm', hw, hmem⟩ := reached_interpret h patience trace
    refine ⟨⟨m', hm', ?_, ?_⟩, trivial⟩
    · exact hw.trans (Processor.counted_eq _).2.1.symm
    · exact hmem.trans (Processor.counted_eq _).2.2.symm
  | accelerator cache known width =>
    obtain ⟨ha, hknown⟩ := hp
    simp only [Processor.process]
    cases hplan : Processor.plan l.environment.program cache known width m.world.store m.memory
        trace with
    | error a => exact ⟨⟨m, h, rfl, rfl⟩, ha, hknown⟩
    | ok r =>
      obtain ⟨plan, width', trace'⟩ := r
      have hs : VectorMachine.Serves l accelerated plan := by
        unfold Processor.plan at hplan
        cases known with
        | some plan' =>
          cases hplan
          exact hknown plan rfl
        | none =>
          obtain ⟨plan', hc, hplan⟩ := Store.bind_eq_ok.mp hplan
          cases hplan
          exact ⟨ha, m, cache, h, hc⟩
      obtain ⟨m', hm', hw, hmem⟩ := reached_runPlan hs h patience trace' width'
      refine ⟨⟨m', hm', ?_, ?_⟩, ha, fun plan' hp' => ?_⟩
      · exact hw.trans (Processor.counted_eq _).2.1.symm
      · exact hmem.trans (Processor.counted_eq _).2.2.symm
      · cases hp'
        exact hs

end VectorMachine
