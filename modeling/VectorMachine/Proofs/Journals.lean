import VectorMachine.Processor
import VectorMachine.Proofs.Accelerator.Effects
import VectorMachine.Proofs.Machine.Runs

/-!
# What is noted during a run

Only host code writes into the journal.  So a property of the journal that host code keeps is kept by
every step of the machine, by every execution unit, and by whole runs of both processors.
-/

namespace VectorMachine
set_option autoImplicit false

variable {ε σ α β : Type} {P : σ → Prop} {Q : Array String → Prop}

/-- A computation keeps a property of its state, whatever its outcome. -/
def Invariant (P : σ → Prop) (f : EStateM ε σ α) : Prop := ∀ x, P x → P (finalState (f x))

theorem Invariant.bind {f : EStateM ε σ α} {k : α → EStateM ε σ β} (hf : Invariant P f)
    (hk : ∀ a, Invariant P (k a)) : Invariant P (f >>= k) := by
  intro x hx
  have h := hf x hx
  simp only [Bind.bind, EStateM.bind]
  cases hr : f x with
  | ok a y =>
    rw [hr] at h
    exact hk a y h
  | error e y =>
    rw [hr] at h
    exact h

theorem Invariant.pure (a : α) : Invariant P (Pure.pure a : EStateM ε σ α) := fun _ hx => hx

theorem Invariant.throw (e : ε) : Invariant P (MonadExcept.throw e : EStateM ε σ α) :=
  fun _ hx => hx

theorem Invariant.get : Invariant P (MonadState.get : EStateM ε σ σ) := fun _ hx => hx

/-- Host functions keep a property of the journal. -/
def Linker.Keeps (link : Linker) (Q : Array String → Prop) : Prop :=
  ∀ index args result, Invariant (fun w : World => Q w.journal) (link index args result)

namespace Machine

/-- The journal has a property. -/
abbrev Noted (Q : Array String → Prop) (m : Machine) : Prop := Q m.world.journal

theorem invariant_of_journal_eq {f : EStateM ε Machine α}
    (h : ∀ m, (finalState (f m)).world.journal = m.world.journal) : Invariant (Noted Q) f := by
  intro m hm
  change Q (finalState (f m)).world.journal
  rwa [h m]

theorem noted_consult (f : Machine → Except Failure α) : Invariant (Noted Q) (consult f) :=
  invariant_of_journal_eq fun m => by unfold consult; split <;> rfl

theorem noted_address (c : CellId) : Invariant (Noted Q) (address c) := noted_consult _

theorem noted_onStore (f : Store → Except Failure Store) : Invariant (Noted Q) (onStore f) :=
  invariant_of_journal_eq fun m => by unfold onStore; split <;> rfl

theorem noted_onDestination (ops : List CellId) (f : CellId → Store → Except Failure Store) :
    Invariant (Noted Q) (onDestination ops f) := by
  cases ops with
  | nil => exact .throw _
  | cons d ops => exact noted_onStore _

theorem noted_pop : Invariant (Noted Q) pop :=
  invariant_of_journal_eq fun m => by unfold pop; split <;> rfl

theorem noted_handedOver (x : Operand) (c : CellId) : Invariant (Noted Q) (handedOver x c) :=
  invariant_of_journal_eq fun m => by
    unfold handedOver
    split
    · split <;> rfl
    · rfl

theorem noted_handedOverAll (xs : List Operand) (cs : List CellId) :
    Invariant (Noted Q) (handedOverAll xs cs) := by
  induction xs generalizing cs with
  | nil => exact .pure _
  | cons x xs ih =>
    cases cs with
    | nil => exact .pure _
    | cons c cs => exact (noted_handedOver x c).bind fun _ => (ih cs).bind fun _ => .pure _

theorem noted_push (c : CellId) : Invariant (Noted Q) (push c) :=
  invariant_of_journal_eq fun _ => rfl

theorem noted_pushAll (xs : List Operand) (cs : List CellId) :
    Invariant (Noted Q) (pushAll xs cs) := by
  induction xs generalizing cs with
  | nil => exact .pure _
  | cons x xs ih =>
    cases cs with
    | nil => exact .pure _
    | cons c cs =>
      exact (noted_handedOver x c).bind fun _ => (noted_push _).bind fun _ => ih cs

theorem noted_pushValue (x : Instruction) (ops : List CellId) :
    Invariant (Noted Q) (pushValue x ops) := by
  unfold pushValue
  split
  · exact (noted_handedOver _ _).bind fun _ => noted_push _
  · exact invariant_of_journal_eq fun _ => rfl

theorem noted_leave (ops : List CellId) : Invariant (Noted Q) (leave ops) := by
  unfold leave
  split
  · exact (noted_address _).bind fun _ => invariant_of_journal_eq fun _ => rfl
  · exact .throw _

theorem noted_call (p : Program) (pc : Int) (x : Instruction) (ops : List CellId) :
    Invariant (Noted Q) (call p pc x ops) := by
  unfold call
  split
  · refine (noted_address _).bind fun f => Invariant.get.bind fun m => ?_
    have hrest : Invariant (Noted Q) (do
        modify fun m : Machine => { m with running := f :: m.running }
        pushScalar (.int (Int64.ofInt (pc + 1)))
        pushAll (x.operands.drop 2) ‹_›
        return f : Action Int) :=
      (invariant_of_journal_eq fun _ => rfl).bind fun _ =>
        (invariant_of_journal_eq fun _ => rfl).bind fun _ =>
          (noted_pushAll _ _).bind fun _ => .pure _
    split
    · exact (Invariant.throw _).bind fun _ => hrest
    · exact hrest
  · exact .throw _

theorem noted_ret (x : Instruction) (ops : List CellId) : Invariant (Noted Q) (ret x ops) :=
  noted_pop.bind fun _ => (noted_address _).bind fun _ => (noted_pushValue x ops).bind fun _ =>
    (noted_leave ops).bind fun _ => .pure _

theorem noted_endFunction (p : Program) (ops : List CellId) :
    Invariant (Noted Q) (endFunction p ops) := by
  refine Invariant.bind ?_ fun _ => .throw _
  cases ops with
  | nil => exact .pure _
  | cons c cs =>
    refine Invariant.get.bind fun m => ?_
    cases m.world.store.type c
    case string => exact noted_consult _
    case int => exact (noted_address _).bind fun _ => .pure _
    all_goals exact .pure _

theorem noted_callExternal {env : Environment} (h : ∀ link, env.linker = some link → link.Keeps Q)
    (x : Instruction) (ops : List CellId) : Invariant (Noted Q) (callExternal env x ops) := by
  unfold callExternal
  cases hl : env.linker with
  | none => exact .throw _
  | some link =>
    rcases ops with _ | ⟨result, _ | ⟨target, args⟩⟩
    · exact .throw _
    · exact .throw _
    · refine (noted_address _).bind fun index => (noted_handedOverAll _ _).bind fun args => ?_
      intro m hm
      have hcall := h link hl index args result m.world hm
      unfold invoke
      split
      all_goals
        rename_i hr
        rw [hr] at hcall
        exact hcall

variable {env : Environment} (h : ∀ link, env.linker = some link → link.Keeps Q)
include h

theorem noted_control (pc : Int) (x : Instruction) (ops : List CellId) :
    Invariant (Noted Q) (control env pc x ops) := by
  unfold control
  cases x.opcode
  case allocTop =>
    exact (noted_consult _).bind fun _ => (noted_onDestination _ _).bind fun _ => .pure _
  case pop => exact noted_pop.bind fun _ => .pure _
  case movePop => exact noted_pop.bind fun _ => (noted_onDestination _ _).bind fun _ => .pure _
  case referPop => exact noted_pop.bind fun _ => (noted_onDestination _ _).bind fun _ => .pure _
  case jump on =>
    rcases ops with _ | ⟨_, _ | ⟨target, _ | ⟨condition, ops⟩⟩⟩
    case cons.cons.cons =>
      refine (noted_consult _).bind fun b => ?_
      cases b with
      | true => exact noted_address _
      | false => exact .pure _
    all_goals exact .throw _
  case call => exact noted_call _ _ _ _
  case callExternal => exact (noted_callExternal h x ops).bind fun _ => .pure _
  case ret => exact noted_ret x ops
  case endFunction => exact (noted_endFunction _ _).bind fun _ => .pure _
  case finish | nop | label | allocType | endParameters => exact .pure _
  all_goals exact .throw _

theorem noted_execute (pc : Int) (x : Instruction) (ops : List CellId) :
    Invariant (Noted Q) (execute env pc x ops) := by
  unfold execute
  split
  · exact (noted_onStore _).bind fun _ => .pure _
  · exact noted_control h pc x ops

theorem noted_step (pc : Int) : Invariant (Noted Q) (step env pc) := by
  intro m hm
  unfold step
  split
  · exact hm
  · rename_i x _
    have hfetch : Noted Q (finalState (fetchAll x.operands m)) := by
      obtain ⟨n, hn, -⟩ := fetchAll_spec x.operands m
      rw [hn]
      exact hm
    split
    · rename_i hr
      rw [hr] at hfetch
      exact hfetch
    · rename_i ops m' hr
      rw [hr] at hfetch
      have he := noted_execute h pc x ops m' hfetch
      split
      all_goals
        rename_i hr
        rw [hr] at he
        exact he

end Machine

namespace Accelerator

abbrev State.Noted (Q : Array String → Prop) (x : State) : Prop := Q x.machine.world.journal

theorem noted_flushOne (plan : Plan) (i : SlotId) :
    Invariant (State.Noted Q) (State.flushOne plan i) := by
  intro x hx
  unfold State.flushOne
  split
  · exact hx
  · split <;> exact hx

theorem noted_flush (plan : Plan) (ids : List SlotId) :
    Invariant (State.Noted Q) (State.flush plan ids) := by
  induction ids with
  | nil => exact .pure _
  | cons i ids ih => exact (noted_flushOne plan i).bind fun _ => ih

theorem noted_fetchCell (z : Operand) : Invariant (State.Noted Q) (fetchCell z) := by
  intro x hx
  unfold fetchCell
  split
  · rename_i c m hf
    obtain ⟨n, rfl, -⟩ := Machine.fetch_ok hf
    exact hx
  · rename_i a m hf
    rw [Machine.fetch_error hf]
    exact hx

section

variable {env : Environment} (h : ∀ link, env.linker = some link → link.Keeps Q) (plan : Plan)
include h

theorem noted_fallBack (cached : List SlotId) (pc : Int) :
    Invariant (State.Noted Q) (fallBack env plan cached pc) := by
  refine (noted_flush plan cached).bind fun _ x hx => ?_
  have hstep := Machine.noted_step h pc x.machine hx
  rw [← finalState_machineStep] at hstep
  cases hr : machineStep env pc x with
  | ok next y =>
    rw [hr] at hstep
    exact hstep
  | error e y =>
    rw [hr] at hstep
    cases e <;> exact hstep

theorem noted_execute (u : ExecutionUnit) (pc : Int) :
    Invariant (State.Noted Q) (execute env plan u pc) := by
  unfold execute
  cases u.kind with
  | skip => exact .pure _
  | fallback => exact noted_fallBack h plan _ pc
  | alloc d =>
    intro x hx
    change Q (x.allocate plan d).machine.world.journal
    rwa [machine_allocate]
  | jump condition on target =>
    intro x hx
    dsimp only
    split
    · exact hx
    · exact noted_fallBack h plan _ pc x hx
  | scalar op =>
    intro x hx
    dsimp only
    split
    · rename_i d v _
      change Q (storeResult plan x d v).machine.world.journal
      rwa [machine_storeResult]
    · exact noted_fallBack h plan _ pc x hx
  | vector op t d a b =>
    refine (noted_fetchCell d).bind fun c => (noted_fetchCell a).bind fun _ =>
      (noted_fetchCell b).bind fun _ => Invariant.get.bind fun y => ?_
    unfold deliverLanes
    split
    · exact fun x hx => hx
    · exact noted_fallBack h plan _ pc

theorem noted_step (pc : Int) : Invariant (State.Noted Q) (step env plan pc) := by
  intro x hx
  unfold step
  split
  · exact hx
  · rename_i u _
    refine noted_execute h plan u pc _ ?_
    split <;> exact hx

end

end Accelerator

/-- A run notes only what host code notes. -/
theorem Processor.noted_process {env : Environment}
    (h : ∀ link, env.linker = some link → link.Keeps Q) (proc : Processor) (patience : Patience)
    (world : World) (memory : Memory) (trace : Log.Trace) (hw : Q world.journal) :
    Q (proc.process env patience world memory trace).1.world.journal := by
  have hcounted : ∀ r : RunResult, Q r.world.journal → Q (counted r).world.journal := by
    intro r hr
    rwa [(counted_eq r).2.1]
  cases proc with
  | interpreter =>
    refine hcounted _ ?_
    refine driveAll_keeps (P := fun x : Traced => Q x.machine.world.journal) (fun pc x hx => ?_) _ _
      _ hw
    rw [Traced.finalState_step]
    exact Machine.noted_step h pc x.machine hx
  | accelerator cache known width =>
    simp only [process]
    split
    · exact hw
    · rename_i plan width' trace' _
      refine hcounted _ ?_
      have hrun := driveAll_keeps (P := Accelerator.State.Noted Q)
        (fun pc x hx => Accelerator.noted_step h plan pc x hx) plan.units.size patience
        (.start plan { world := world, memory := memory } trace' width') hw
      have hflush := Accelerator.noted_flush plan plan.slotIds _ hrun
      unfold Accelerator.runPlan
      simp only
      split
      all_goals
        rename_i hf
        rw [hf] at hflush
        exact hflush

end VectorMachine
