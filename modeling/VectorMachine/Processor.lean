import VectorMachine.Accelerator.Run

/-!
# Processors

A processor runs programs, either on the machine alone or by plans of an accelerator.  A plan
belongs to one program on one memory and serves all their runs.
-/

namespace VectorMachine
set_option autoImplicit false

inductive Processor where
  | interpreter
  | accelerator (scalarCache : Bool) (plan : Option Accelerator.Plan := none) (width : Nat := 0)
  deriving Inhabited

namespace Processor

/-- The processor for another program or memory. -/
def forget : Processor → Processor
  | .interpreter => .interpreter
  | .accelerator scalarCache _ width => .accelerator scalarCache none width

/-- The plan to run by, compiled if there is none yet. -/
def plan (p : Program) (scalarCache : Bool) (known : Option Accelerator.Plan) (width : Nat)
    (s : Store) (m : Memory) (trace : Log.Trace) :
    Except Abort (Accelerator.Plan × Nat × Log.Trace) :=
  match known with
  | some plan => .ok (plan, width, trace)
  | none => do
    let plan ← Accelerator.compile p s m scalarCache
    let (width, trace) := trace.add width "#" plan.summary
    .ok (plan, width, trace)

/-- A run that was aborted counts nothing. -/
def counted (r : RunResult) : RunResult :=
  match r.outcome with
  | .error (.abort _) => { r with stats := {} }
  | _ => r

theorem counted_eq (r : RunResult) : (counted r).outcome = r.outcome ∧
    (counted r).world = r.world ∧ (counted r).memory = r.memory := by
  unfold counted
  split <;> exact ⟨rfl, rfl, rfl⟩

def process (proc : Processor) (env : Environment) (patience : Patience) (world : World)
    (memory : Memory) (trace : Log.Trace) : RunResult × Processor :=
  match proc with
  | .interpreter => (counted (interpret env patience world memory trace), .interpreter)
  | .accelerator scalarCache known width =>
    match plan env.program scalarCache known width world.store memory trace with
    | .error a =>
      ({ outcome := .error (.abort a), stats := {}, world := world, memory := memory,
         trace := trace }, proc)
    | .ok (plan, width, trace) =>
      let (r, width) := Accelerator.runPlan env plan patience world memory trace width
      (counted r, .accelerator scalarCache (some plan) width)

end Processor

end VectorMachine
