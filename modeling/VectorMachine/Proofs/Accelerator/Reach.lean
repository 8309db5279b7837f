import VectorMachine.Accelerator.Run
import VectorMachine.Proofs.Accelerator.Plans
import VectorMachine.Proofs.Machine.Runs

/-!
# The reach of a unit

What a unit changes in memory, it changes at the cells of its slots, at the destination of a unit
on arrays, or by a step of the machine.
-/

namespace VectorMachine.Accelerator
set_option autoImplicit false

open Machine (Moves Within)

variable {α β ε : Type} {C : CellId → Prop} {x y : State} {plan : Plan}

/-- All outcomes of a computation that starts at `x` stay in the region. -/
def Drifts (C : CellId → Prop) (x : State) (r : EStateM.Result ε State α) : Prop :=
  Moves C x.machine (finalState r).machine

theorem Drifts.bind {f : EStateM ε State α} {k : α → EStateM ε State β} (hf : Drifts C x (f x))
    (hk : ∀ a y, f x = .ok a y → Drifts C y (k a y)) : Drifts C x ((f >>= k) x) := by
  change Drifts C x (EStateM.bind f k x)
  unfold EStateM.bind
  cases hr : f x with
  | ok a y =>
    rw [hr] at hf
    exact Moves.trans hf (hk a y hr)
  | error e y =>
    rw [hr] at hf
    exact hf

/-- The slots that are written back have their cells in the region. -/
def SlotsWithin (C : CellId → Prop) (plan : Plan) : Prop :=
  ∀ {i : Nat} {slot : Slot}, plan.slots[i]? = some slot → slot.isConstant = false → C slot.cell

theorem touches_flushSlot {s t : Store} {slot : Slot} {v : Option Scalar} (h : s.Region C)
    (hc : slot.isConstant = false → C slot.cell) (ht : flushSlot s slot v = .ok t) :
    Store.Touches C s t := by
  unfold flushSlot at ht
  split at ht
  · cases ht
    exact .refl h
  · split at ht
    · cases ht
      exact .refl h
    · rename_i hn
      have hcell := hc (by simpa using hn)
      split at ht
      · obtain ⟨s₁, h₁, h₂⟩ := Store.bind_eq_ok.mp ht
        have ha := Store.Touches.of_alloc h hcell h₁
        exact ha.trans (.of_setScalar (ha.region h) hcell h₂)
      · exact .of_setScalar h hcell ht

theorem drifts_flushOne (hw : SlotsWithin C plan) (i : SlotId) (hm : x.machine.Within C) :
    Drifts C x (State.flushOne plan i x) := by
  unfold State.flushOne
  split
  · exact Moves.refl hm
  · rename_i slot hslot
    split
    · rename_i s hs
      exact Moves.of_touches hm (touches_flushSlot hm.region (hw hslot) hs)
    · exact Moves.refl hm

theorem drifts_flush (hw : SlotsWithin C plan) (ids : List SlotId) (hm : x.machine.Within C) :
    Drifts C x (State.flush plan ids x) := by
  induction ids generalizing x with
  | nil => exact Moves.refl hm
  | cons i ids ih =>
    have h₁ := drifts_flushOne hw i hm
    refine h₁.bind fun _ y hy => ih ?_
    rw [hy] at h₁
    exact Moves.within h₁ hm

@[simp] theorem machine_load (ids : List SlotId) : (x.load plan ids).machine = x.machine := rfl

/-- A step of the machine changes the machine and the trace of a state. -/
theorem machineStep_eq (env : Environment) (pc : Int) (x : State) : ∃ trace width,
    machineStep env pc x = match Machine.step env pc x.machine with
      | .ok next m => .ok next { x with machine := m, trace := trace, machineWidth := width }
      | .error e m => .error e { x with machine := m, trace := trace, machineWidth := width } := by
  obtain ⟨trace, width, h⟩ := Traced.step_eq env pc ⟨x.machine, x.trace, x.machineWidth⟩
  refine ⟨trace, width, ?_⟩
  simp only [machineStep, h]
  cases Machine.step env pc x.machine <;> rfl

theorem finalState_machineStep (env : Environment) (pc : Int) (x : State) :
    (finalState (machineStep env pc x)).machine = finalState (Machine.step env pc x.machine) := by
  obtain ⟨trace, width, h⟩ := machineStep_eq env pc x
  rw [h]
  cases Machine.step env pc x.machine <;> rfl

theorem drifts_fallBack {env : Environment} {ids : List SlotId} {pc : Int}
    (hw : SlotsWithin C plan) (hm : x.machine.Within C)
    (hstep : ∀ m, Moves C x.machine m → Moves C m (finalState (Machine.step env pc m))) :
    Drifts C x (fallBack env plan ids pc x) := by
  have h₁ := drifts_flush hw ids hm
  refine h₁.bind fun _ y hy => ?_
  rw [hy] at h₁
  have h₂ := hstep y.machine h₁
  rw [← finalState_machineStep] at h₂
  unfold Drifts
  cases hr : machineStep env pc y with
  | ok next z =>
    rw [hr] at h₂
    exact h₂
  | error e z =>
    rw [hr] at h₂
    cases e <;> exact h₂

theorem drifts_fetchCell {z : Operand} (hm : x.machine.Within C) :
    Drifts C x (fetchCell z x) := by
  unfold Drifts fetchCell
  cases hf : Machine.fetch z x.machine with
  | ok c m =>
    obtain ⟨n, rfl, -, -⟩ := Machine.fetch_ok hf
    exact Machine.moves_grown hm n
  | error a m =>
    rw [Machine.fetch_error hf]
    exact Moves.refl hm

theorem cell?_of_fetchCell {z : Operand} {c : CellId} (hz : z.part ≠ .absent)
    (h : fetchCell z x = .ok c y) : x.machine.memory.cell? z = some c := by
  unfold fetchCell at h
  split at h
  · rename_i c' m hf
    cases h
    obtain ⟨-, -, hc, -⟩ := Machine.fetch_ok hf
    simpa [Machine.Fetched, hz] using hc
  · cases h

/-- The region of a unit: the slots it writes back, the destination of a unit on arrays, and what
a step of the machine touches. -/
structure Confines (C : CellId → Prop) (env : Environment) (plan : Plan) (u : ExecutionUnit)
    (pc : Int) (x : State) : Prop where
  within : x.machine.Within C
  slots : SlotsWithin C plan
  step : ∀ m, Moves C x.machine m → Moves C m (finalState (Machine.step env pc m))
  destination : ∀ {op t d a b}, u.kind = .vector op t d a b → d.part ≠ .absent ∧
    ∀ c, x.machine.memory.cell? d = some c → C c

theorem Confines.fallBack {env : Environment} {u : ExecutionUnit} {pc : Int}
    (h : Confines C env plan u pc x) (hy : Moves C x.machine y.machine) :
    Drifts C y (fallBack env plan u.cached pc y) :=
  drifts_fallBack h.slots (hy.within h.within) fun m hm => h.step m (hy.trans hm)

theorem machine_allocate (d : SlotId) : (x.allocate plan d).machine = x.machine := by
  unfold State.allocate
  split <;> rfl

theorem machine_storeResult (d : SlotId) (v : Scalar) :
    (storeResult plan x d v).machine = x.machine := by
  unfold storeResult
  split <;> rfl

theorem drifts_deliverLanes {env : Environment} {u : ExecutionUnit} {pc : Int} {d : CellId}
    {data : Option Lanes} (h : Confines C env plan u pc x) (hy : Moves C x.machine y.machine)
    (hd : C d) : Drifts C y (deliverLanes env plan u.cached pc d data y) := by
  unfold deliverLanes
  cases data with
  | none => exact h.fallBack hy
  | some data =>
    have hw := hy.within h.within
    exact Moves.of_touches hw (.write hw.region hd data)

theorem drifts_execute {env : Environment} {u : ExecutionUnit} {pc : Int}
    (h : Confines C env plan u pc x) : Drifts C x (execute env plan u pc x) := by
  have hrefl := Moves.refl h.within
  unfold execute
  cases hk : u.kind with
  | skip => exact hrefl
  | fallback => exact h.fallBack hrefl
  | alloc d =>
    change Moves C x.machine (x.allocate plan d).machine
    rw [machine_allocate]
    exact hrefl
  | jump condition on target =>
    cases hb : x.bool? condition with
    | some b => simpa [Drifts, finalState, hb] using hrefl
    | none => simpa [hb] using h.fallBack hrefl
  | scalar op =>
    cases hr : op.result? x with
    | some r =>
      simpa [Drifts, finalState, hr, machine_storeResult] using hrefl
    | none => simpa [hr] using h.fallBack hrefl
  | vector op t d a b =>
    obtain ⟨hpart, hd⟩ := h.destination hk
    have h₁ := drifts_fetchCell (z := d) h.within
    refine h₁.bind fun c y hy => ?_
    rw [hy] at h₁
    have h₂ := drifts_fetchCell (z := a) (Moves.within h₁ h.within)
    refine h₂.bind fun c₁ y₁ hy₁ => ?_
    rw [hy₁] at h₂
    have h₁₂ := Moves.trans h₁ h₂
    have h₃ := drifts_fetchCell (z := b) (h₁₂.within h.within)
    refine h₃.bind fun c₂ y₂ hy₂ => ?_
    rw [hy₂] at h₃
    have h₁₃ := h₁₂.trans h₃
    refine Drifts.bind (Moves.refl (h₁₃.within h.within)) fun z y₃ hy₃ => ?_
    cases hy₃
    exact drifts_deliverLanes h h₁₃ (hd c (cell?_of_fetchCell hpart hy))

theorem drifts_step {env : Environment} {pc : Int} (hm : x.machine.Within C)
    (h : ∀ u, plan.units[pc.toNat]? = some u → ∀ y, y.machine = x.machine →
      Confines C env plan u pc y) : Drifts C x (step env plan pc x) := by
  unfold step
  cases hu : plan.units[pc.toNat]? with
  | none => exact Moves.refl hm
  | some u =>
    -- the trace is no part of the machine
    have htrace : ∀ y, y.machine = x.machine → Drifts C x (execute env plan u pc y) := by
      intro y hy
      have hd := drifts_execute (h u hu y hy)
      unfold Drifts at hd ⊢
      rwa [hy] at hd
    exact htrace _ (by split <;> rfl)

end VectorMachine.Accelerator
