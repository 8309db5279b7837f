import VectorMachine.Interpreter.Machine
import VectorMachine.Log.Trace

/-!
# Runs

A run executes instructions from the first one until the program counter leaves the code.  The
caller may cancel it; this is looked at before the first instruction and before every 256th one
after it.  Programs may loop for ever, so it is the polls that find nothing that bound the run.
-/

namespace VectorMachine
set_option autoImplicit false

/-- The number of instructions between two polls. -/
def pollInterval : Nat := 256

/-- How often the caller's wish to stop is asked for before it is there, and what it is. -/
structure Patience where
  polls : Nat
  stop : Stop := .canceled

/-- What a run counts.  The last three are about execution units and stay zero without any. -/
structure Stats where
  steps : Nat := 0
  specialized : Nat := 0
  fallback : Nat := 0
  cachedScalars : Nat := 0
  deriving DecidableEq, Repr, Inhabited

/-- Asks the caller before an instruction, if it is time to.  What is left of the patience, or the
wish to stop. -/
def Patience.poll (p : Patience) (steps : Nat) : Except Stop Patience :=
  if steps % pollInterval ≠ 0 then .ok p
  else match p.polls with
    | 0 => .error p.stop
    | n + 1 => .ok { p with polls := n }

/-- How many instructions may be executed after `steps` ones before the caller's patience is
spent. -/
def Patience.allowance (p : Patience) (steps : Nat) : Nat :=
  pollInterval * p.polls + (pollInterval - steps % pollInterval) % pollInterval

/-- An instruction that may be executed uses up one of those that are allowed. -/
theorem Patience.allowance_of_poll {p q : Patience} {steps : Nat} (h : p.poll steps = .ok q) :
    p.allowance steps = q.allowance (steps + 1) + 1 ∧ q.stop = p.stop := by
  unfold Patience.poll at h
  split at h
  · cases h
    refine ⟨?_, rfl⟩
    simp only [allowance, pollInterval] at *
    omega
  · split at h
    · cases h
    · rename_i n hn
      cases h
      refine ⟨?_, rfl⟩
      simp only [allowance, pollInterval, hn] at *
      omega

/-- The caller stops a run when no instruction is allowed any more. -/
theorem Patience.allowance_of_poll_error {p : Patience} {steps : Nat} {e : Stop}
    (h : p.poll steps = .error e) : p.allowance steps = 0 ∧ e = p.stop := by
  unfold Patience.poll at h
  split at h
  · cases h
  · split at h
    · rename_i hn
      cases h
      refine ⟨?_, rfl⟩
      simp only [allowance, pollInterval, hn] at *
      omega
    · cases h

/-- Executes instructions while `pc` is inside the code and the caller does not wish to stop. -/
def proceed {σ : Type} (size : Nat) (step : Int → EStateM Stop σ Int) (p : Patience) (steps : Nat)
    (pc : Int) (x : σ) : Except Stop Unit × Nat × σ :=
  if pc < 0 ∨ (size : Int) ≤ pc then (.ok (), steps, x)
  else match _ : p.poll steps with
    | .error e => (.error e, steps, x)
    | .ok q =>
      match step pc x with
      | .ok next y => proceed size step q (steps + 1) next y
      | .error e y => (.error e, steps + 1, y)
termination_by p.allowance steps
decreasing_by
  have hq : p.poll steps = .ok q := ‹_›
  rw [(Patience.allowance_of_poll hq).1]
  exact Nat.lt_succ_self _

/-- Runs to the end, to a failure or until the caller's patience is spent. -/
def driveAll {σ : Type} (size : Nat) (step : Int → EStateM Stop σ Int) (p : Patience) (x : σ) :
    Except Stop Unit × Nat × σ :=
  proceed size step p 0 0 x

/-- A machine with the trace of its run. -/
structure Traced where
  machine : Machine
  trace : Log.Trace
  /-- The width of the widest mark of this run. -/
  width : Nat := 0

namespace Traced

def note (p : Program) (pc : Int) (x : Traced) : Traced :=
  if x.trace.enabled then
    match Machine.traceText? p pc x.machine with
    | none => x
    | some text =>
      let (width, trace) := x.trace.add x.width ("@" ++ toString pc) text
      { x with trace := trace, width := width }
  else x

def step (env : Environment) (pc : Int) : EStateM Stop Traced Int := fun x =>
  match x.note env.program pc with
  | ⟨machine, trace, width⟩ =>
    match Machine.step env pc machine with
    | .ok next m => .ok next ⟨m, trace, width⟩
    | .error e m => .error e ⟨m, trace, width⟩

end Traced

/-- The outcome of a run with what it leaves behind. -/
structure RunResult where
  outcome : Except Stop Unit
  stats : Stats
  world : World
  memory : Memory
  trace : Log.Trace

def interpret (env : Environment) (p : Patience) (world : World) (memory : Memory)
    (trace : Log.Trace) : RunResult :=
  let start : Traced := { machine := { world := world, memory := memory }, trace := trace }
  let (outcome, steps, x) := driveAll env.program.code.size (Traced.step env) p start
  { outcome := outcome, stats := { steps := steps }, world := x.machine.world,
    memory := x.machine.memory, trace := x.trace }

end VectorMachine
