import VectorMachine.Proofs.Accelerator.Backing
import VectorMachine.Proofs.Lockstep

/-!
# Cancellation

Nothing but the caller ends a program that loops for ever.  Each time the caller is asked and finds
nothing, at most 256 instructions are executed, so the patience of the caller bounds every run of
every program.  A run that the caller stops has completed exactly as many instructions as the
patience allows, and is stopped between two of them; the accelerator then writes all slots back.
-/

namespace VectorMachine
set_option autoImplicit false

open Accelerator (Plan Slot SlotId State)

/-! ### Complete instructions -/

section Loop

variable {σ τ : Type} {size n k steps : Nat} {step : Int → EStateM Stop σ Int} {pc next : Int}
  {x y : σ}

/-- Whether `pc` is the address of an instruction. -/
def InCode (size : Nat) (pc : Int) : Prop := 0 ≤ pc ∧ pc < size

/-- `Completes size step n pc x next y`: from `pc` and `x`, `n` instructions come to `next` and `y`;
all of them are inside the code, and none of them fails. -/
inductive Completes (size : Nat) (step : Int → EStateM Stop σ Int) :
    Nat → Int → σ → Int → σ → Prop
  | none (pc : Int) (x : σ) : Completes size step 0 pc x pc x
  | more {n : Nat} {pc mid next : Int} {x y z : σ} (hpc : InCode size pc)
      (hstep : step pc x = .ok mid y) (h : Completes size step n mid y next z) :
      Completes size step (n + 1) pc x next z

/-- How a loop ends that starts at `pc` and `x` and may complete `limit` instructions: it leaves the
code, an instruction fails, or the caller stops it.  A result counts from `steps` on. -/
inductive Ends (size : Nat) (step : Int → EStateM Stop σ Int) (stop : Stop) (limit steps : Nat)
    (pc : Int) (x : σ) : Except Stop Unit × Nat × σ → Prop
  | left {n : Nat} {next : Int} {y : σ} (h : Completes size step n pc x next y) (hn : n ≤ limit)
      (hnext : ¬ InCode size next) : Ends size step stop limit steps pc x (.ok (), steps + n, y)
  | failed {n : Nat} {next : Int} {y z : σ} {e : Stop} (h : Completes size step n pc x next y)
      (hn : n < limit) (hnext : InCode size next) (hstep : step next y = .error e z) :
      Ends size step stop limit steps pc x (.error e, steps + (n + 1), z)
  | stopped {next : Int} {y : σ} (h : Completes size step limit pc x next y)
      (hnext : InCode size next) :
      Ends size step stop limit steps pc x (.error stop, steps + limit, y)

theorem inCode_iff : InCode size pc ↔ ¬ (pc < 0 ∨ (size : Int) ≤ pc) := by
  unfold InCode
  omega

/-- One complete instruction before a loop. -/
theorem Ends.more {stop : Stop} {limit : Nat} {mid : Int} {r : Except Stop Unit × Nat × σ}
    (hpc : InCode size pc) (hstep : step pc x = .ok mid y)
    (h : Ends size step stop limit (steps + 1) mid y r) :
    Ends size step stop (limit + 1) steps pc x r := by
  cases h with
  | @left n next z h hn hnext =>
    rw [show steps + 1 + n = steps + (n + 1) by omega]
    exact .left (.more hpc hstep h) (Nat.succ_le_succ hn) hnext
  | @failed n next z w e h hn hnext hlast =>
    rw [show steps + 1 + (n + 1) = steps + (n + 1 + 1) by omega]
    exact .failed (.more hpc hstep h) (Nat.succ_lt_succ hn) hnext hlast
  | @stopped next z h hnext =>
    rw [show steps + 1 + limit = steps + (limit + 1) by omega]
    exact .stopped (.more hpc hstep h) hnext

/-- A loop completes no more instructions than the patience allows, and exactly these if the caller
stops it. -/
theorem ends_proceed (p : Patience) (steps : Nat) (pc : Int) (x : σ) :
    Ends size step p.stop (p.allowance steps) steps pc x (proceed size step p steps pc x) := by
  fun_induction proceed size step p steps pc x with
  | case1 p steps pc x hpc =>
    exact .left (.none pc x) (Nat.zero_le _) fun hin => inCode_iff.mp hin hpc
  | case2 p steps pc x hpc e he =>
    obtain ⟨hzero, rfl⟩ := Patience.allowance_of_poll_error he
    rw [hzero]
    exact .stopped (.none pc x) (inCode_iff.mpr hpc)
  | case3 p steps pc x hpc q hq next y hy ih =>
    obtain ⟨hsucc, hstop⟩ := Patience.allowance_of_poll hq
    rw [hsucc, ← hstop]
    exact ih.more (inCode_iff.mpr hpc) hy
  | case4 p steps pc x hpc q hq e y hy =>
    rw [(Patience.allowance_of_poll hq).1]
    exact .failed (.none pc x) (Nat.succ_pos _) (inCode_iff.mpr hpc) hy

theorem ends_driveAll (size : Nat) (step : Int → EStateM Stop σ Int) (p : Patience) (x : σ) :
    Ends size step p.stop (pollInterval * p.polls) 0 0 x (driveAll size step p x) :=
  ends_proceed p 0 0 x

theorem Ends.steps_le {stop : Stop} {limit : Nat} {r : Except Stop Unit × Nat × σ}
    (h : Ends size step stop limit 0 pc x r) : r.2.1 ≤ limit := by
  cases h <;> simp only [Nat.zero_add] <;> omega

/-- If no instruction fails in the way the caller stops a loop, the caller has stopped it. -/
theorem Ends.of_stop {stop : Stop} {limit : Nat} {r : Except Stop Unit × Nat × σ}
    (h : Ends size step stop limit 0 pc x r) (hr : r.1 = .error stop)
    (hstep : ∀ pc x z, step pc x ≠ .error stop z) :
    r.2.1 = limit ∧ ∃ next, InCode size next ∧ Completes size step limit pc x next r.2.2 := by
  cases h with
  | left => cases hr
  | failed _ _ _ hlast =>
    obtain rfl := Except.error.inj hr
    exact absurd hlast (hstep _ _ _)
  | stopped hall hnext => exact ⟨Nat.zero_add _, _, hnext, hall⟩

/-- Complete instructions under a view of the state that the steps respect. -/
theorem Completes.map {step' : Int → EStateM Stop τ Int} {f : σ → τ}
    (hstep : ∀ {pc next x y}, step pc x = .ok next y → step' pc (f x) = .ok next (f y))
    (h : Completes size step n pc x next y) : Completes size step' n pc (f x) next (f y) := by
  induction h with
  | none pc x => exact .none pc (f x)
  | more hpc hs _ ih => exact .more hpc (hstep hs) ih

end Loop

/-! ### What the caller wishes -/

/-- The caller wishes a run to stop. -/
def Stop.IsWish (e : Stop) : Prop := e = .canceled ∨ e = .deadline

/-- A computation does not stop as if the caller wished so. -/
def Unwished {σ α : Type} (r : EStateM.Result Stop σ α) : Prop :=
  match r with
  | .ok _ _ => True
  | .error e _ => ¬ e.IsWish

variable {env : Environment} {plan : Plan} {pc next : Int} {m : Machine} {x y : State} {i : SlotId}
  {ids : List SlotId}

theorem not_isWish_abort (a : Abort) : ¬ (Stop.abort a).IsWish := by
  rintro (h | h) <;> cases h

theorem Unwished.bind {σ α β : Type} {f : EStateM Stop σ α} {g : α → EStateM Stop σ β} {x : σ}
    (hf : Unwished (f x)) (hg : ∀ a y, f x = .ok a y → Unwished (g a y)) :
    Unwished ((f >>= g) x) := by
  change Unwished (EStateM.bind f g x)
  unfold EStateM.bind
  cases hr : f x with
  | ok a y => exact hg a y hr
  | error e y =>
    rw [hr] at hf
    exact hf

theorem Unwished.ne {σ α : Type} {r : EStateM.Result Stop σ α} (h : Unwished r) {e : Stop}
    (he : e.IsWish) (z : σ) : r ≠ .error e z := by
  rintro rfl
  exact h he

theorem Machine.unwished_step (env : Environment) (pc : Int) (m : Machine) :
    Unwished (Machine.step env pc m) := by
  unfold Machine.step
  split
  · exact not_isWish_abort _
  · split
    · exact not_isWish_abort _
    · split
      · trivial
      · exact not_isWish_abort _
      · -- a data error, or an abort while the note on the instruction is read
        unfold Machine.dataStop
        simp only [Unwished]
        split
        · rintro (h | h) <;> cases h
        · exact not_isWish_abort _

theorem Traced.unwished_step (env : Environment) (pc : Int) (z : Traced) :
    Unwished (Traced.step env pc z) := by
  have hm := Machine.unwished_step env pc z.machine
  obtain ⟨trace, width, h⟩ := Traced.step_eq env pc z
  rw [h]
  cases hr : Machine.step env pc z.machine with
  | ok next n => trivial
  | error e n =>
    rw [hr] at hm
    exact hm

namespace Accelerator

theorem unwished_flushOne (plan : Plan) (i : SlotId) (x : State) :
    Unwished (State.flushOne plan i x) := by
  unfold State.flushOne
  split
  · trivial
  · split
    · trivial
    · exact not_isWish_abort _

theorem unwished_flush (plan : Plan) (ids : List SlotId) (x : State) :
    Unwished (State.flush plan ids x) := by
  induction ids generalizing x with
  | nil => trivial
  | cons i ids ih => exact (unwished_flushOne plan i x).bind fun _ y _ => ih y

theorem unwished_machineStep (env : Environment) (pc : Int) (x : State) :
    Unwished (machineStep env pc x) := by
  have hm := Traced.unwished_step env pc ⟨x.machine, x.trace, x.machineWidth⟩
  unfold machineStep
  dsimp only
  split
  · trivial
  · rename_i hr
    rw [hr] at hm
    exact hm

theorem unwished_fallBack (env : Environment) (plan : Plan) (ids : List SlotId) (pc : Int)
    (x : State) : Unwished (fallBack env plan ids pc x) := by
  refine (unwished_flush plan ids x).bind fun _ y _ => ?_
  have hm := unwished_machineStep env pc y
  cases hr : machineStep env pc y with
  | ok next z => trivial
  | error e z =>
    rw [hr] at hm
    cases e <;> exact hm

theorem unwished_fetchCell (w : Operand) (x : State) : Unwished (fetchCell w x) := by
  unfold fetchCell
  split
  · trivial
  · exact not_isWish_abort _

theorem unwished_execute (env : Environment) (plan : Plan) (u : ExecutionUnit) (pc : Int)
    (x : State) : Unwished (execute env plan u pc x) := by
  have hfall := unwished_fallBack env plan u.cached pc
  unfold execute
  cases u.kind with
  | skip => trivial
  | fallback => exact hfall x
  | alloc d => trivial
  | jump condition on target =>
    dsimp only
    split
    · trivial
    · exact hfall x
  | scalar op =>
    dsimp only
    split
    · trivial
    · exact hfall x
  | vector op t d a b =>
    refine (unwished_fetchCell d x).bind fun c y _ => ?_
    refine (unwished_fetchCell a y).bind fun c₁ y₁ _ => ?_
    refine (unwished_fetchCell b y₁).bind fun c₂ y₂ _ => ?_
    refine Unwished.bind (f := get) trivial fun z y₃ _ => ?_
    unfold deliverLanes
    split
    · trivial
    · exact hfall y₃

theorem unwished_step (env : Environment) (plan : Plan) (pc : Int) (x : State) :
    Unwished (step env plan pc x) := by
  unfold step
  dsimp only
  split
  · exact not_isWish_abort _
  · exact unwished_execute env plan _ pc _

end Accelerator

/-! ### Runs that the caller stops -/

/-- `StopsAfter env world memory trace n r proc`: the run of the processor that gave the result `r`
was stopped between two instructions, after `n` complete ones.  The slots of an accelerator have all
been written back, so each one that has a cell of its own has left its value there, and in a session
all have. -/
inductive Processor.StopsAfter (env : Environment) (world : World) (memory : Memory)
    (trace : Log.Trace) (n : Nat) (r : RunResult) : Processor → Prop
  | interpreter {next : Int} {m : Machine}
      (h : Completes env.program.code.size (Machine.step env) n 0
        { world := world, memory := memory } next m)
      (hnext : InCode env.program.code.size next) (hworld : r.world = m.world)
      (hmemory : r.memory = m.memory) : StopsAfter env world memory trace n r .interpreter
  | accelerator {cache : Bool} {known : Option Plan} {width width' : Nat} {plan : Plan}
      {trace' : Log.Trace} {next : Int} {x y : State}
      (hplan : Processor.plan env.program cache known width world.store memory trace =
        .ok (plan, width', trace'))
      (h : Completes plan.units.size (Accelerator.step env plan) n 0
        (State.start plan { world := world, memory := memory } trace' width') next x)
      (hnext : InCode plan.units.size next)
      (hflush : State.flush plan plan.slotIds x = .ok () y) (hworld : r.world = y.machine.world)
      (hmemory : r.memory = y.machine.memory)
      (hkept : x.store.Rooted → plan.Deposits x r.world.store)
      (hsession : ∀ l m, Launch.Valid l → env = l.environment → m.world = world →
        m.memory = memory → Accelerator.compile l.program l.store l.memory cache = .ok plan →
        l.Shares plan (.idle m) → ∀ i slot, plan.slots[i]? = some slot →
          r.world.store.Holds slot.cell (x.value? i)) :
      StopsAfter env world memory trace n r (.accelerator cache known width)

/-- A run of a processor, with what it counts up to an abort too. -/
def Processor.uncounted (proc : Processor) (env : Environment) (patience : Patience) (world : World)
    (memory : Memory) (trace : Log.Trace) : RunResult :=
  match proc with
  | .interpreter => interpret env patience world memory trace
  | .accelerator cache known width =>
    match Processor.plan env.program cache known width world.store memory trace with
    | .error a =>
      { outcome := .error (.abort a), stats := {}, world := world, memory := memory,
        trace := trace }
    | .ok (plan, width, trace) =>
      (Accelerator.runPlan env plan patience world memory trace width).1

variable {proc : Processor} {patience : Patience} {world : World} {memory : Memory}
  {trace : Log.Trace} {l : Launch} {cache : Bool} {n : Nat}

theorem Processor.process_eq : (proc.process env patience world memory trace).1 =
    Processor.counted (proc.uncounted env patience world memory trace) := by
  cases proc with
  | interpreter => rfl
  | accelerator cache known width =>
    simp only [process, uncounted]
    cases Processor.plan env.program cache known width world.store memory trace with
    | error a => rfl
    | ok r => rfl

/-- Only aborted runs lose their counts. -/
theorem Processor.counted_of_isWish {r : RunResult} {e : Stop} (he : e.IsWish)
    (h : (Processor.counted r).outcome = .error e) : Processor.counted r = r := by
  unfold Processor.counted at h ⊢
  split at h
  · rename_i a ha
    rw [ha] at h
    obtain rfl := Except.error.inj h
    exact absurd he (not_isWish_abort a)
  · rfl

theorem interpret_stops (hstop : patience.stop.IsWish) :
    (interpret env patience world memory trace).stats.steps ≤ pollInterval * patience.polls ∧
      ((interpret env patience world memory trace).outcome = .error patience.stop →
        (interpret env patience world memory trace).stats.steps = pollInterval * patience.polls ∧
          Processor.StopsAfter env world memory trace (pollInterval * patience.polls)
            (interpret env patience world memory trace) .interpreter) := by
  have hends := ends_driveAll env.program.code.size (Traced.step env) patience
    { machine := { world := world, memory := memory }, trace := trace }
  refine ⟨hends.steps_le, fun hr => ?_⟩
  obtain ⟨hsteps, next, hnext, hall⟩ := hends.of_stop hr fun pc z w =>
    (Traced.unwished_step env pc z).ne hstop w
  refine ⟨hsteps, .interpreter (hall.map (f := Traced.machine) fun {pc next z w} hz => ?_) hnext
    rfl rfl⟩
  -- the trace is no part of the machine
  obtain ⟨trace, width, heq⟩ := Traced.step_eq env pc z
  rw [heq] at hz
  split at hz
  · rename_i hm
    cases hz
    exact hm
  · cases hz

/-- The stages of a run by the plan of a session are stages of the session. -/
theorem Launch.Shares.completes (hp : l.Planned cache plan)
    (h : l.Shares plan (.accelerating plan x))
    (hall : Completes plan.units.size (Accelerator.step l.environment plan) n pc x next y) :
    l.Shares plan (.accelerating plan y) := by
  induction hall with
  | none => exact h
  | @more n pc mid next x y z hpc hstep _ ih =>
    have hlt : pc.toNat < l.program.code.size := by
      have hsize := hp.size_eq
      unfold InCode at hpc
      omega
    have hz : Machine.instructionAt? l.program pc = some l.program.code[pc.toNat] := by
      simp [Machine.instructionAt?, Int.not_lt.mpr hpc.1]
    have hnext := h.unit hz
    rw [hstep] at hnext
    exact ih hnext

/-- In a session, all slots have their values in their cells when they have been written back. -/
theorem Launch.Shares.holds (hl : l.Valid)
    (hplan : Accelerator.compile l.program l.store l.memory cache = .ok plan)
    (h : l.Shares plan (.accelerating plan x))
    (hflush : State.flush plan plan.slotIds x = .ok () y) {slot : Slot}
    (hi : plan.slots[i]? = some slot) : y.store.Holds slot.cell (x.value? i) := by
  have hp : l.Planned cache plan := Accelerator.planOf_of_compile hplan
  obtain ⟨z, hz, hback, hsync⟩ := Launch.Slotted.flush hp (h.kept hl hp) plan.slotIds
  rw [hflush] at hz
  cases hz
  have hlt := (Array.getElem?_eq_some_iff.mp hi).1
  have hholds := hsync i (by simpa [Plan.slotIds] using hlt) slot hi
  rwa [State.value?, hback.values] at hholds

theorem runPlan_stops (env : Environment) (plan : Plan) (world : World) (memory : Memory)
    (trace : Log.Trace) (width : Nat) (hstop : patience.stop.IsWish) :
    let r := (Accelerator.runPlan env plan patience world memory trace width).1
    r.stats.steps ≤ pollInterval * patience.polls ∧ (r.outcome = .error patience.stop →
      r.stats.steps = pollInterval * patience.polls ∧ ∃ next x y,
        Completes plan.units.size (Accelerator.step env plan) (pollInterval * patience.polls) 0
          (State.start plan { world := world, memory := memory } trace width) next x ∧
        InCode plan.units.size next ∧ State.flush plan plan.slotIds x = .ok () y ∧
        r.world = y.machine.world ∧ r.memory = y.machine.memory) := by
  have hends := ends_driveAll plan.units.size (Accelerator.step env plan) patience
    (State.start plan { world := world, memory := memory } trace width)
  intro r
  have hsteps : r.stats.steps = (driveAll plan.units.size (Accelerator.step env plan) patience
    (State.start plan { world := world, memory := memory } trace width)).2.1 := rfl
  refine ⟨hsteps ▸ hends.steps_le, fun hr => ?_⟩
  cases hflush : State.flush plan plan.slotIds (driveAll plan.units.size
      (Accelerator.step env plan) patience
      (State.start plan { world := world, memory := memory } trace width)).2.2 with
  | ok u y =>
    obtain ⟨houtcome, -, hworld, hmemory⟩ := Launch.runPlan_of_flush rfl hflush
    obtain ⟨hcount, next, hnext, hall⟩ := hends.of_stop (houtcome.symm.trans hr) fun pc x z =>
      (Accelerator.unwished_step env plan pc x).ne hstop z
    exact ⟨hsteps.trans hcount, next, _, y, hall, hnext, hflush, hworld, hmemory⟩
  | error e y =>
    -- slots that cannot be written back abort the run
    have houtcome : r.outcome = .error e := by simp [r, Accelerator.runPlan, hflush]
    obtain rfl := Except.error.inj (houtcome.symm.trans hr)
    exact absurd hflush ((Accelerator.unwished_flush plan plan.slotIds _).ne hstop y)

/-- What the caller's patience allows, and where a run stops when it is spent. -/
theorem Processor.uncounted_stops (proc : Processor) (env : Environment) (world : World)
    (memory : Memory) (trace : Log.Trace) (hstop : patience.stop.IsWish) :
    let r := proc.uncounted env patience world memory trace
    r.stats.steps ≤ pollInterval * patience.polls ∧ (r.outcome = .error patience.stop →
      r.stats.steps = pollInterval * patience.polls ∧
        proc.StopsAfter env world memory trace (pollInterval * patience.polls) r) := by
  cases proc with
  | interpreter => exact interpret_stops hstop
  | accelerator cache known width =>
    simp only [uncounted]
    cases hplan : Processor.plan env.program cache known width world.store memory trace with
    | error a =>
      refine ⟨Nat.zero_le _, fun hr => ?_⟩
      have he := Except.error.inj hr
      exact absurd hstop (he ▸ not_isWish_abort a)
    | ok found =>
      obtain ⟨plan, width', trace'⟩ := found
      obtain ⟨hle, hstops⟩ := runPlan_stops env plan world memory trace' width' hstop
      refine ⟨hle, fun hr => ?_⟩
      obtain ⟨hsteps, next, x, y, hall, hnext, hflush, hworld, hmemory⟩ := hstops hr
      refine ⟨hsteps, .accelerator hplan hall hnext hflush hworld hmemory (fun hs => ?_) ?_⟩
      · rw [hworld]
        exact Accelerator.deposits_flush hs hflush
      · rintro l m hl rfl rfl rfl hcompile hm i slot hi
        rw [hworld]
        exact ((hm.accelerate trace' width').completes (Accelerator.planOf_of_compile hcompile)
          hall).holds hl hcompile hflush hi

theorem Processor.steps_counted_le (r : RunResult) : (counted r).stats.steps ≤ r.stats.steps := by
  unfold counted
  split
  · exact Nat.zero_le _
  · exact Nat.le_refl _

/-- Cancellation bounds every run.  Whatever the program, the memory and the host code are, a
processor executes at most 256 instructions for each time that the caller is asked and does not wish
it to stop.  If the run ends as the caller wishes, these are exactly the instructions that were
executed, all of them complete, and the memory is the one behind them, with all slots written back.
-/
theorem cancellation_bounds (proc : Processor) (env : Environment) (patience : Patience)
    (world : World) (memory : Memory) (trace : Log.Trace) (hstop : patience.stop.IsWish) :
    let r := (proc.process env patience world memory trace).1
    r = Processor.counted (proc.uncounted env patience world memory trace) ∧
      (proc.uncounted env patience world memory trace).stats.steps ≤ 256 * patience.polls ∧
      r.stats.steps ≤ 256 * patience.polls ∧
      (r.outcome = .error patience.stop → r.stats.steps = 256 * patience.polls ∧
        proc.StopsAfter env world memory trace (256 * patience.polls) r) := by
  obtain ⟨hbound, hstops⟩ := proc.uncounted_stops env world memory trace hstop
  intro r
  have hr : r = Processor.counted (proc.uncounted env patience world memory trace) :=
    Processor.process_eq
  refine ⟨hr, hbound, ?_, fun hout => ?_⟩
  · rw [hr]
    exact Nat.le_trans (Processor.steps_counted_le _) hbound
  · have hsame := Processor.counted_of_isWish hstop (hr ▸ hout)
    rw [hr, hsame] at hout ⊢
    exact hstops hout

/-- Counts for ever. -/
def endless : Program where
  code := #[
    { opcode := .alloc, types := [.int], operands := [⟨.locals, 0⟩] },
    { opcode := .nop, types := [.void] },
    { opcode := .arithmetic .add, types := [.int],
      operands := [⟨.locals, 0⟩, ⟨.locals, 0⟩, ⟨.constants, 0⟩] },
    { opcode := .jump true, types := [.bool],
      operands := [⟨.absent, 0⟩, ⟨.constants, 0⟩, ⟨.constants, 1⟩] }]
  labels := ⟨[("&on", 1)]⟩
  constants := ⟨[("~bool:true", 1), ("~int:1", 0)]⟩
  result := Operand.absent
  extent := { globals := -1, locals := 0, constants := 1 }

/-- One poll without a wish lets a program that counts for ever execute 256 instructions. -/
theorem cancellation_bounds_endless :
    let l := Launch.on endless none {} #[]
    (Assembler.assemble ("ALLOC int L0; #LABEL &on; ADD int L0 L0 ~int:1; " ++
        "JMP bool - &on ~bool:true;") {}).toOption = some endless ∧
      ∀ proc ∈ [Processor.interpreter, .accelerator true none 0],
        let r := (proc.process l.environment ⟨1, .canceled⟩ l.machine.world l.memory {}).1
        r.outcome = .error .canceled ∧ r.stats.steps = 256 ∧
          proc.StopsAfter l.environment l.machine.world l.memory {} 256 r ∧
          l.memory.locals = #[0] ∧ (r.world.store.int 0).toOption = some 85 := by
  intro l
  refine ⟨by decide +kernel, fun proc hproc => ?_⟩
  have hruns : ∀ proc ∈ [Processor.interpreter, .accelerator true none 0],
      let r := (proc.process l.environment ⟨1, .canceled⟩ l.machine.world l.memory {}).1
      r.outcome = .error .canceled ∧ (r.world.store.int 0).toOption = some 85 := by
    decide +kernel
  obtain ⟨hout, hcount⟩ := hruns proc hproc
  obtain ⟨-, -, -, hstopped⟩ := cancellation_bounds proc l.environment ⟨1, .canceled⟩
    l.machine.world l.memory {} (.inl rfl)
  obtain ⟨hsteps, hafter⟩ := hstopped hout
  exact ⟨hout, hsteps, hafter, by decide +kernel, hcount⟩

end VectorMachine
