import VectorMachine.Processor
import VectorMachine.Proofs.Accelerator.Reach

/-!
# Traces do not matter

What a run writes to its trace, and how it aligns the marks there, has no influence on its outcome,
on what it counts, or on the containers that it leaves.
-/

namespace VectorMachine
set_option autoImplicit false

variable {ε σ α β : Type} {P Q R E : σ → σ → Prop}

/-- Two results are the same, with states that are related by `R` after a success and by `E` after an
error. -/
inductive SameOutcome (R E : σ → σ → Prop) :
    EStateM.Result ε σ α → EStateM.Result ε σ α → Prop
  | ok {a : α} {x y : σ} : R x y → SameOutcome R E (.ok a x) (.ok a y)
  | error {e : ε} {x y : σ} : E x y → SameOutcome R E (.error e x) (.error e y)

/-- A computation has the same result from states that are related by `P`. -/
def Couples (P R E : σ → σ → Prop) (f : EStateM ε σ α) : Prop :=
  ∀ x y, P x y → SameOutcome R E (f x) (f y)

theorem Couples.bind {f : EStateM ε σ α} {k : α → EStateM ε σ β} (hf : Couples P Q E f)
    (hk : ∀ a, Couples Q R E (k a)) : Couples P R E (f >>= k) := by
  intro x y hxy
  have h := hf x y hxy
  simp only [Bind.bind, EStateM.bind]
  generalize f x = r, f y = r' at h ⊢
  cases h with
  | ok h => exact hk _ _ _ h
  | error h => exact .error h

/-- A computation does not tell related states apart. -/
abbrev Blind (R : σ → σ → Prop) (f : EStateM ε σ α) : Prop := Couples R R R f

/-- Two results are related by `V` in the states that were reached, or are the same error in states
that are related by `E`. -/
def Jointly {α' : Type} (V : α → α' → σ → σ → Prop) (E : σ → σ → Prop) :
    EStateM.Result ε σ α → EStateM.Result ε σ α' → Prop
  | .ok a x, .ok a' x' => V a a' x x'
  | .error e x, .error e' x' => e = e' ∧ E x x'
  | _, _ => False

theorem Jointly.bind {α' β' : Type} {V : α → α' → σ → σ → Prop} {W : β → β' → σ → σ → Prop}
    {f : EStateM ε σ α} {f' : EStateM ε σ α'} {k : α → EStateM ε σ β} {k' : α' → EStateM ε σ β'}
    {x x' : σ} (hf : Jointly V E (f x) (f' x'))
    (hk : ∀ a a' y y', V a a' y y' → Jointly W E (k a y) (k' a' y')) :
    Jointly W E ((f >>= k) x) ((f' >>= k') x') := by
  simp only [Bind.bind, EStateM.bind]
  cases h : f x <;> cases h' : f' x' <;> rw [h, h'] at hf
  · exact hk _ _ _ _ hf
  · exact hf.elim
  · exact hf.elim
  · exact hf

theorem SameOutcome.imp {R' E' : σ → σ → Prop} {r r' : EStateM.Result ε σ α}
    (h : SameOutcome R E r r') (hR : ∀ x y, R x y → R' x y) (hE : ∀ x y, E x y → E' x y) :
    SameOutcome R' E' r r' := by
  cases h with
  | ok h => exact .ok (hR _ _ h)
  | error h => exact .error (hE _ _ h)

theorem Jointly.imp {α' : Type} {V V' : α → α' → σ → σ → Prop} {E' : σ → σ → Prop}
    {r : EStateM.Result ε σ α} {r' : EStateM.Result ε σ α'} (h : Jointly V E r r')
    (hV : ∀ a a' x y, V a a' x y → V' a a' x y) (hE : ∀ x y, E x y → E' x y) :
    Jointly V' E' r r' := by
  cases r <;> cases r'
  · exact hV _ _ _ _ h
  · exact h.elim
  · exact h.elim
  · exact ⟨h.1, hE _ _ h.2⟩

theorem SameOutcome.jointly {r r' : EStateM.Result ε σ α} (h : SameOutcome R E r r') :
    Jointly (fun a a' x x' => a = a' ∧ R x x') E r r' := by
  cases h with
  | ok h => exact ⟨rfl, h⟩
  | error h => exact ⟨rfl, h⟩

/-- A run from related states comes to the same end in as many steps. -/
theorem drive_blind {step : Int → EStateM Stop σ Int} (hstep : ∀ pc, Blind R (step pc))
    (size : Nat) (stop : Stop) (fuel steps : Nat) (pc : Int) {x y : σ} (hxy : R x y) :
    (drive size step stop fuel steps pc x).1 = (drive size step stop fuel steps pc y).1 ∧
    (drive size step stop fuel steps pc x).2.1 = (drive size step stop fuel steps pc y).2.1 ∧
    R (drive size step stop fuel steps pc x).2.2 (drive size step stop fuel steps pc y).2.2 := by
  induction fuel generalizing steps pc x y with
  | zero =>
    unfold drive
    split <;> exact ⟨rfl, rfl, hxy⟩
  | succ fuel ih =>
    unfold drive
    split
    · exact ⟨rfl, rfl, hxy⟩
    · have h := hstep pc x y hxy
      simp only
      generalize step pc x = r, step pc y = r' at h ⊢
      cases h with
      | ok h => exact ih (steps + 1) _ h
      | error h => exact ⟨rfl, rfl, h⟩

theorem driveAll_blind {step : Int → EStateM Stop σ Int} (hstep : ∀ pc, Blind R (step pc))
    (size : Nat) (p : Patience) {x y : σ} (hxy : R x y) :
    (driveAll size step p x).1 = (driveAll size step p y).1 ∧
    (driveAll size step p x).2.1 = (driveAll size step p y).2.1 ∧
    R (driveAll size step p x).2.2 (driveAll size step p y).2.2 := by
  rw [driveAll_eq, driveAll_eq]
  exact drive_blind hstep size p.stop _ 0 0 hxy

/-- Runs with the same outcome, the same counts and the same containers. -/
structure RunResult.Same (r r' : RunResult) : Prop where
  outcome : r.outcome = r'.outcome
  stats : r.stats = r'.stats
  world : r.world = r'.world
  memory : r.memory = r'.memory

/-! ### The machine -/

theorem Traced.blind_step (env : Environment) (pc : Int) :
    Blind (fun x y : Traced => x.machine = y.machine) (Traced.step env pc) := by
  intro x y hxy
  obtain ⟨t, w, hx⟩ := Traced.step_eq env pc x
  obtain ⟨t', w', hy⟩ := Traced.step_eq env pc y
  rw [hx, hy, hxy]
  cases Machine.step env pc y.machine with
  | ok next m => exact .ok rfl
  | error e m => exact .error rfl

theorem same_interpret (env : Environment) (patience : Patience) (world : World) (memory : Memory)
    (trace trace' : Log.Trace) : RunResult.Same (interpret env patience world memory trace)
      (interpret env patience world memory trace') := by
  have h := driveAll_blind (Traced.blind_step env) env.program.code.size patience
    (x := { machine := { world := world, memory := memory }, trace := trace })
    (y := { machine := { world := world, memory := memory }, trace := trace' }) rfl
  exact ⟨h.1, congrArg (fun n => ({ steps := n } : Stats)) h.2.1, congrArg Machine.world h.2.2,
    congrArg Machine.memory h.2.2⟩

/-! ### Plans -/

namespace Accelerator

/-- States of a run that differ in the trace alone. -/
structure State.SameData (x y : State) : Prop where
  machine : x.machine = y.machine
  values : x.values = y.values

variable {plan : Plan} {env : Environment} {pc : Int} {x y : State}

theorem State.SameData.value? (h : x.SameData y) (i : SlotId) : x.value? i = y.value? i := by
  rw [State.value?, State.value?, h.values]

theorem State.SameData.load (h : x.SameData y) (ids : List SlotId) :
    (x.load plan ids).SameData (y.load plan ids) := by
  refine ⟨h.machine, ?_⟩
  simp only [State.load, State.store, h.machine, h.values]

theorem blind_flushOne (plan : Plan) (i : SlotId) :
    Blind State.SameData (State.flushOne plan i) := by
  intro x y h
  unfold State.flushOne
  cases plan.slots[i]? with
  | none => exact .ok h
  | some slot =>
    simp only [State.store, h.machine, h.value?]
    cases flushSlot y.machine.world.store slot (y.value? i) with
    | ok s => exact .ok ⟨rfl, h.values⟩
    | error a => exact .error h

theorem blind_flush (plan : Plan) (ids : List SlotId) :
    Blind State.SameData (State.flush plan ids) := by
  induction ids with
  | nil => exact fun x y h => .ok h
  | cons i ids ih => exact (blind_flushOne plan i).bind fun _ => ih

theorem blind_machineStep (env : Environment) (pc : Int) :
    Blind State.SameData (machineStep env pc) := by
  intro x y h
  obtain ⟨t, w, hx⟩ := machineStep_eq env pc x
  obtain ⟨t', w', hy⟩ := machineStep_eq env pc y
  rw [hx, hy, h.machine]
  cases Machine.step env pc y.machine with
  | ok next m => exact .ok ⟨rfl, h.values⟩
  | error e m => exact .error ⟨rfl, h.values⟩

theorem blind_fallBack (ids : List SlotId) :
    Blind State.SameData (fallBack env plan ids pc) := by
  refine (blind_flush plan ids).bind fun _ x y h => ?_
  have hstep := blind_machineStep env pc x y h
  generalize machineStep env pc x = r, machineStep env pc y = r' at hstep ⊢
  cases hstep with
  | ok h => exact .ok (h.load ids)
  | @error e _ _ h =>
    cases e with
    | abort a => exact .error h
    | data _ | canceled | deadline => exact .error (h.load ids)

theorem State.SameData.result? (h : x.SameData y) (op : ScalarOp) : op.result? x = op.result? y := by
  have hint : ∀ i, x.int? i = y.int? i := fun i => by rw [State.int?, State.int?, h.value?]
  have hfloat : ∀ i, x.float? i = y.float? i := fun i => by rw [State.float?, State.float?, h.value?]
  have hbool : ∀ i, x.bool? i = y.bool? i := fun i => by rw [State.bool?, State.bool?, h.value?]
  unfold ScalarOp.result?
  split <;> simp only [hint, hfloat, hbool, h.value?]

theorem State.SameData.set (h : x.SameData y) (i : SlotId) (v : Scalar) :
    (x.set i v).SameData (y.set i v) :=
  ⟨h.machine, by simp only [State.set, h.values]⟩

theorem blind_fetchCell (z : Operand) : Blind State.SameData (fetchCell z) := by
  intro x y h
  unfold fetchCell
  rw [h.machine]
  cases Machine.fetch z y.machine with
  | ok c m => exact .ok ⟨rfl, h.values⟩
  | error a m => exact .error ⟨rfl, h.values⟩

theorem blind_execute (u : ExecutionUnit) : Blind State.SameData (execute env plan u pc) := by
  unfold execute
  cases u.kind with
  | skip => exact fun x y h => .ok h
  | fallback => exact blind_fallBack _
  | alloc d =>
    intro x y h
    simp only [State.allocate, h.value?]
    split
    · exact .ok (h.set _ _)
    · exact .ok h
  | jump condition on target =>
    intro x y h
    simp only [State.bool?, h.value?]
    split
    · exact .ok h
    · exact blind_fallBack _ x y h
  | scalar op =>
    intro x y h
    simp only [h.result? op]
    split
    · unfold storeResult
      split
      · exact .ok (h.set _ _)
      · exact .ok h
    · exact blind_fallBack _ x y h
  | vector op t d a b =>
    refine (blind_fetchCell d).bind fun d => (blind_fetchCell a).bind fun a =>
      (blind_fetchCell b).bind fun b x y h => ?_
    change SameOutcome _ _
      (deliverLanes env plan u.cached pc d (vectorLanes? x.store op t d a b) x)
      (deliverLanes env plan u.cached pc d (vectorLanes? y.store op t d a b) y)
    have hstore : x.store = y.store := congrArg (fun m => m.world.store) h.machine
    unfold deliverLanes
    rw [hstore]
    split
    · exact .ok ⟨by simp only [h.machine], h.values⟩
    · exact blind_fallBack _ x y h

theorem blind_step (env : Environment) (plan : Plan) (pc : Int) :
    Blind State.SameData (step env plan pc) := by
  intro x y h
  unfold step
  cases plan.units[pc.toNat]? with
  | none => exact .error h
  | some u =>
    refine blind_execute u _ _ ?_
    split
    · exact h
    · exact ⟨h.machine, h.values⟩

theorem same_runPlan (env : Environment) (plan : Plan) (patience : Patience) (world : World)
    (memory : Memory) (trace trace' : Log.Trace) (width width' : Nat) :
    RunResult.Same (runPlan env plan patience world memory trace width).1
      (runPlan env plan patience world memory trace' width').1 := by
  have hstart : (State.start plan { world := world, memory := memory } trace width).SameData
      (.start plan { world := world, memory := memory } trace' width') := ⟨rfl, rfl⟩
  obtain ⟨h₁, h₂, h₃⟩ := driveAll_blind (blind_step env plan) plan.units.size patience hstart
  have hflush := blind_flush plan plan.slotIds _ _ h₃
  simp only [runPlan]
  rw [h₁, h₂]
  generalize State.flush plan plan.slotIds _ = r at hflush ⊢
  generalize State.flush plan plan.slotIds _ = r' at hflush ⊢
  cases hflush with
  | ok h => exact ⟨rfl, rfl, congrArg Machine.world h.machine, congrArg Machine.memory h.machine⟩
  | error h => exact ⟨rfl, rfl, congrArg Machine.world h.machine, congrArg Machine.memory h.machine⟩

end Accelerator

/-! ### Processors -/

/-- Processors of one kind with the same plan. -/
inductive Processor.Alike : Processor → Processor → Prop
  | interpreter : Alike .interpreter .interpreter
  | accelerator (cache : Bool) (known : Option Accelerator.Plan) (width width' : Nat) :
      Alike (.accelerator cache known width) (.accelerator cache known width')

theorem RunResult.Same.counted {r r' : RunResult} (h : r.Same r') :
    (Processor.counted r).Same (Processor.counted r') := by
  unfold Processor.counted
  rw [← h.outcome]
  split
  · exact ⟨rfl, rfl, h.world, h.memory⟩
  · exact h

/-- Processors of one kind with the same plan run a program in the same way. -/
theorem Processor.Alike.same_process {proc proc' : Processor} (h : proc.Alike proc')
    (env : Environment) (patience : Patience) (world : World) (memory : Memory)
    (trace trace' : Log.Trace) :
    RunResult.Same (proc.process env patience world memory trace).1
      (proc'.process env patience world memory trace').1 ∧
    (proc.process env patience world memory trace).2.Alike
      (proc'.process env patience world memory trace').2 := by
  cases h with
  | interpreter =>
    exact ⟨(same_interpret env patience world memory trace trace').counted, .interpreter⟩
  | accelerator cache known width width' =>
    cases known with
    | some plan =>
      exact ⟨(Accelerator.same_runPlan env plan patience world memory trace trace' width width').counted,
        .accelerator _ _ _ _⟩
    | none =>
      simp only [Processor.process, Processor.plan]
      cases Accelerator.compile env.program world.store memory cache with
      | error a => exact ⟨⟨rfl, rfl, rfl, rfl⟩, .accelerator _ _ _ _⟩
      | ok plan =>
        exact ⟨(Accelerator.same_runPlan env plan patience world memory _ _ _ _).counted,
          .accelerator _ _ _ _⟩

end VectorMachine
