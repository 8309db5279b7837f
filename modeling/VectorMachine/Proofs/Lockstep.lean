import VectorMachine.Proofs.Accelerator.Runs
import VectorMachine.Proofs.JumpTargets
import VectorMachine.Proofs.Progress
import VectorMachine.Proofs.Store.Separation

/-!
# Both engines at one instruction

An instruction is executed by the machine, or by a plan in a session whose runs all use the plan.  A
stage of such a run is tracked by a machine that has in its cells what the slots keep.  At an
instruction whose unit can be relied on, both engines go on at the same address or stop alike, and the
stage after it is tracked by the machine after it.
-/

namespace VectorMachine
set_option autoImplicit false

open Accelerator (Plan Slot SlotId State)
open Store (Pairing Matches)

/-- The engine of a stage executes the instruction at `pc`: it goes on at an address, or stops.
Between two runs there is no engine. -/
def Stage.step (env : Environment) (pc : Int) : Stage → Except Stop (Int × Stage)
  | .idle _ => .error (.abort .breakdown)
  | .interpreting m =>
    match Machine.step env pc m with
    | .ok next m => .ok (next, .interpreting m)
    | .error e _ => .error e
  | .accelerating plan x =>
    match Accelerator.step env plan pc x with
    | .ok next x => .ok (next, .accelerating plan x)
    | .error e _ => .error e

theorem Stage.step_interpreting_iff {env : Environment} {pc next : Int} {m : Machine} :
    (∃ after, (Stage.interpreting m).step env pc = .ok (next, after)) ↔
      ∃ m', Machine.step env pc m = .ok next m' := by
  simp only [Stage.step]
  cases Machine.step env pc m <;> simp

theorem Stage.step_accelerating_iff {env : Environment} {pc next : Int} {plan : Plan} {x : State} :
    (∃ after, (Stage.accelerating plan x).step env pc = .ok (next, after)) ↔
      ∃ x', Accelerator.step env plan pc x = .ok next x' := by
  simp only [Stage.step]
  cases Accelerator.step env plan pc x <;> simp

namespace Launch

variable {l : Launch} {cache accelerated : Bool} {plan : Plan} {m m' : Machine} {x y : State}
  {stage : Stage} {pc next : Int} {z : Instruction} {R : Pairing} {c : CellId}

/-- The stages of a session in which the runs of the accelerator all use one plan; the machine may
execute runs between them. -/
inductive Shares (l : Launch) (plan : Plan) : Stage → Prop
  | allocated : Shares l plan (.idle l.machine)
  | rewound {m : Machine} {globals : Array CellId} : Shares l plan (.idle m) →
      (∀ c ∈ globals, c < l.base) → Shares l plan (.idle (m.rewound globals))
  | interpret {m : Machine} : Shares l plan (.idle m) →
      Shares l plan (.interpreting { m with running := [] })
  | step {m : Machine} (pc : Int) : Shares l plan (.interpreting m) →
      Shares l plan (.interpreting (finalState (Machine.step l.environment pc m)))
  | interpreted {m : Machine} : Shares l plan (.interpreting m) → Shares l plan (.idle m)
  | accelerate {m : Machine} (trace : Log.Trace) (width : Nat) : Shares l plan (.idle m) →
      Shares l plan (.accelerating plan (.start plan { m with running := [] } trace width))
  | unit {x : State} {pc : Int} {z : Instruction} : Shares l plan (.accelerating plan x) →
      Machine.instructionAt? l.program pc = some z →
      Shares l plan (.accelerating plan (finalState (Accelerator.step l.environment plan pc x)))
  | accelerated {x : State} : Shares l plan (.accelerating plan x) →
      Shares l plan (Stage.accelerating plan x).ended

/-- The stages at which an engine executes instructions: the machine at all times, and the plan of the
new memory in the sessions whose accelerator uses this plan. -/
inductive Active (l : Launch) (cache : Bool) : Stage → Prop
  | machine {accelerated : Bool} {m : Machine} : Reached l accelerated (.interpreting m) →
      Active l cache (.interpreting m)
  | plan {plan : Plan} {x : State} :
      Accelerator.compile l.program l.store l.memory cache = .ok plan →
      l.Shares plan (.accelerating plan x) → Active l cache (.accelerating plan x)

/-- A machine that is where the engine of a stage is, with all slots in their cells. -/
inductive Tracks (l : Launch) (cache : Bool) (m : Machine) : Stage → Prop
  | machine : Tracks l cache m (.interpreting m)
  | plan {plan : Plan} {R : Pairing} {x : State} : l.Planned cache plan →
      l.Follows cache plan R m x → Tracks l cache m (.accelerating plan x)

/-! ### Stages of sessions -/

theorem Shares.reached (hplan : Accelerator.compile l.program l.store l.memory cache = .ok plan)
    (h : l.Shares plan stage) : Reached l true stage := by
  induction h with
  | allocated => exact .allocated
  | rewound _ hg ih => exact ih.rewound hg
  | interpret _ ih => exact ih.interpret
  | step pc _ ih => exact ih.step pc
  | interpreted _ ih => exact ih.interpreted
  | accelerate trace width _ ih => exact .accelerate trace width rfl .allocated hplan ih
  | unit _ _ ih => exact ih.unit _
  | accelerated _ ih => exact ih.accelerated

/-- The typed addresses and the slots are kept in both engines. -/
theorem Shares.kept (hl : l.Valid) (hp : l.Planned cache plan) (h : l.Shares plan stage) :
    l.Kept cache plan stage := by
  induction h with
  | allocated => exact Sealed.allocated hl types_typingOf
  | rewound _ hg ih => exact Sealed.rewound types_typingOf ih hg
  | interpret _ ih => exact Sealed.restart types_typingOf ih
  | step pc _ ih => exact Sealed.step hl types_typingOf ih pc
  | interpreted _ ih => exact ih
  | accelerate trace width _ ih => exact (Sealed.restart types_typingOf ih).start hp trace width
  | unit _ hz ih => exact Slotted.step hl hp ih hz
  | accelerated _ ih =>
    obtain ⟨y, hy, hw, -⟩ := Slotted.flush hp ih plan.slotIds
    simp only [Stage.ended, hy]
    exact hw.slotted.isSealed

/-- What a stage shows when its slots have been written back is a stage between two runs. -/
theorem Active.reached (h : l.Active cache stage) :
    ∃ accelerated, Reached l accelerated (.idle stage.ended.machine) := by
  cases h with
  | machine h => exact ⟨_, h.interpreted⟩
  | plan hplan h => exact ⟨true, (h.reached hplan).accelerated⟩

/-- No cells are lost. -/
theorem Orderly.size_le_of_reached (hl : l.Orderly) (h : Reached l accelerated stage) :
    l.store.cells.size ≤ stage.machine.store.cells.size :=
  keeps_of_reached (I := fun s => l.store.cells.size ≤ s.cells.size) Store.liberal_forming hl.hosts
    hl.valid (fun he hs => hs.trans (he.size_le Store.liberal_forming.grows))
    (fun cs hs => by rwa [Store.size_unlinkAll]) (Nat.le_refl _) h

/-! ### Tracking -/

/-- The state with all slots written back is followed by the state itself. -/
theorem WrittenBack.follows (hp : l.Planned cache plan) (hx : l.Slotted cache plan x)
    (h : l.WrittenBack cache plan x y) (hs : ∀ i, y.Synced plan i)
    (hold : l.store.cells.size ≤ x.store.cells.size) :
    ∃ R, l.Follows cache plan R y.machine x := by
  have hm := hx.isSealed
  have hy := h.slotted.isSealed
  have hmemory : y.machine.memory = x.machine.memory := by rw [h.machine]
  have hval : ∀ i, y.value? i = x.value? i := fun i => by simp only [State.value?, h.values]
  let S : Pairing := Parted plan fun c c' => c = c' ∧ c < x.store.cells.size
  have hstore : Matches True (fun c' c => S c c') y.store x.store :=
    (h.matching (fun hc => hc.2.2) (hx.matches_self hp)).symm
  have htied : Machine.Tied True (l.Open plan) (fun c' c => S c c') y.machine x.machine := by
    refine ⟨hstore, by rw [h.machine], by rw [h.machine], ?_, fun {w} hw => ?_, fun {w} hw => ?_,
      fun _ => by rw [hmemory]⟩
    · rw [hmemory]
      refine List.forall₂_same.mpr fun c hc => ⟨⟨rfl, ?_⟩, ?_⟩
      · exact (hm.guarded.within.stack c (by simpa using hc)).2
      · have hnot : ¬ plan.Caches c := fun hcached =>
          hm.guarded.off_stack c (by simpa using hc) (hp.isGuard hm hcached)
        exact ⟨hnot, hnot⟩
    · rcases hw with hw | ⟨hw, -⟩
      · simp [hw]
      · exact Memory.stack_ne_of_own hw
    · rw [hmemory]
      cases hc : x.machine.memory.cell? w with
      | none => exact .none
      | some c =>
        have hnot := hw.cell hp hm hc
        exact .some ⟨⟨rfl, hm.guarded.addressable w c hc⟩, hnot, hnot⟩
  exact ⟨_, follows_of_tied hp id htied hy hm
    (fun hc hnot => ⟨⟨rfl, Nat.lt_of_lt_of_le hc hold⟩, hnot, hnot⟩) (by rw [hmemory]) hx.size_eq
    (fun hi => hval _ ▸ hs _ _ hi) fun hi hnone => hnone ▸ hx.backed hi (.inr hnone)⟩

/-- What a stage shows when its slots have been written back tracks the stage. -/
theorem Active.tracks (hl : l.Orderly) (h : l.Active cache stage) :
    l.Tracks cache stage.ended.machine stage := by
  cases h with
  | machine _ => exact .machine
  | @plan plan x hplan h =>
    have hp : l.Planned cache plan := Accelerator.planOf_of_compile hplan
    have hx : l.Slotted cache plan x := h.kept hl.valid hp
    obtain ⟨y, hy, hw, hs⟩ := hx.flush hp plan.slotIds
    have hended : (Stage.accelerating plan x).ended.machine = y.machine := by
      simp only [Stage.ended, hy]
      rfl
    rw [hended]
    obtain ⟨R, hR⟩ := hw.follows hp hx
      (fun i slot hi =>
        hs i (by simpa [Plan.slotIds] using (Array.getElem?_eq_some_iff.mp hi).1) slot hi)
      (hl.size_le_of_reached (h.reached hplan))
    exact .plan hp hR

/-- Where the machine goes on, the stage that it tracks goes on. -/
theorem Tracks.step_ok (hl : l.Valid) (h : l.Tracks cache m stage) (hb : l.Relies cache m z)
    (hz : Machine.instructionAt? l.program pc = some z)
    (hstep : Machine.step l.environment pc m = .ok next m') :
    ∃ after, stage.step l.environment pc = .ok (next, after) ∧ l.Tracks cache m' after := by
  cases h with
  | machine => exact ⟨_, by simp only [Stage.step, hstep], .machine⟩
  | @plan plan R x hp hR =>
    have hparallel := hR.step_of_relies hl hp hb hz
    rw [hstep] at hparallel
    cases hx : Accelerator.step l.environment plan pc x with
    | ok next' x' =>
      rw [hx] at hparallel
      obtain ⟨rfl, R', hR'⟩ := hparallel
      exact ⟨_, by simp only [Stage.step, hx], .plan hp hR'⟩
    | error e x' =>
      rw [hx] at hparallel
      exact hparallel.elim

/-- Where the machine stops, the stage that it tracks stops. -/
theorem Tracks.step_error {e : Stop} (hl : l.Valid) (h : l.Tracks cache m stage)
    (hb : l.Relies cache m z) (hz : Machine.instructionAt? l.program pc = some z)
    (hstep : Machine.step l.environment pc m = .error e m') :
    stage.step l.environment pc = .error e := by
  cases h with
  | machine => simp only [Stage.step, hstep]
  | @plan plan R x hp hR =>
    have hparallel := hR.step_of_relies hl hp hb hz
    rw [hstep] at hparallel
    cases hx : Accelerator.step l.environment plan pc x with
    | ok next' x' =>
      rw [hx] at hparallel
      exact hparallel.elim
    | error e' x' =>
      rw [hx] at hparallel
      obtain ⟨rfl, -⟩ := hparallel
      simp only [Stage.step, hx]

/-- A stage goes on where the machine that tracks it goes on. -/
theorem Tracks.step_iff (hl : l.Valid) (h : l.Tracks cache m stage) (hb : l.Relies cache m z)
    (hz : Machine.instructionAt? l.program pc = some z) :
    (∃ after, stage.step l.environment pc = .ok (next, after)) ↔
      ∃ m', Machine.step l.environment pc m = .ok next m' := by
  constructor
  · rintro ⟨after, hafter⟩
    cases hstep : Machine.step l.environment pc m with
    | error e m' =>
      rw [h.step_error hl hb hz hstep] at hafter
      cases hafter
    | ok next' m' =>
      obtain ⟨after', hafter', -⟩ := h.step_ok hl hb hz hstep
      rw [hafter'] at hafter
      cases hafter
      exact ⟨m', rfl⟩
  · rintro ⟨m', hstep⟩
    obtain ⟨after, hafter, -⟩ := h.step_ok hl hb hz hstep
    exact ⟨after, hafter⟩

/-- A stage shows what the machine shows that tracks it. -/
theorem Tracks.alike (hl : l.Valid) (h : l.Tracks cache m stage) {w : Operand} (hw : Placed w)
    (hc : m.memory.cell? w = some c) :
    stage.ended.machine.memory.cell? w = some c ∧ m.store.Alike c stage.ended.machine.store c := by
  cases h with
  | machine => exact ⟨hc, rfl, rfl, rfl, rfl⟩
  | @plan plan R x hp hR =>
    obtain ⟨y, hy, R', ht⟩ := hR.finish hl hp
    have hended : (Stage.accelerating plan x).ended.machine = y.machine := by
      simp only [Stage.ended, hy]
      rfl
    rw [hended]
    have hcell : y.machine.memory.cell? w = some c := by
      rcases hw with hglobal | hown
      · rw [← hc]
        simp only [Memory.cell?, Memory.cells?, hglobal, ht.globals]
      · rw [ht.isSealed'.own hown, ← ht.isSealed.own hown, hc]
    have hR' := ht.tied.cells hw
    rw [hc, hcell] at hR'
    cases hR' with
    | some hR' => exact ⟨hcell, ht.tied.store.alike hR'⟩

end Launch

end VectorMachine
