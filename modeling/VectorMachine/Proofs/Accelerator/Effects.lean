import VectorMachine.Proofs.Accelerator.Reach
import VectorMachine.Proofs.Machine.Effects

/-!
# The effects of a unit

What a unit does to containers: it stores into the cells of its slots and into the destination of a
unit on arrays, or does what a step of the machine does.
-/

namespace VectorMachine.Accelerator
set_option autoImplicit false

open Store (Grant Alters)

variable {α β ε : Type} {g : Grant} {x y : State} {plan : Plan}

/-- All outcomes of a computation that starts at `x` change the store by edits that are granted. -/
def Effects (g : Grant) (x : State) (r : EStateM.Result ε State α) : Prop :=
  Alters g x.store (finalState r).store

theorem Effects.bind {f : EStateM ε State α} {k : α → EStateM ε State β} (hf : Effects g x (f x))
    (hk : ∀ a y, f x = .ok a y → Effects g y (k a y)) : Effects g x ((f >>= k) x) := by
  change Effects g x (EStateM.bind f k x)
  unfold EStateM.bind
  cases hr : f x with
  | ok a y =>
    rw [hr] at hf
    exact hf.trans (hk a y hr)
  | error e y =>
    rw [hr] at hf
    exact hf

theorem alters_flushSlot {s t : Store} {slot : Slot} {v : Option Scalar}
    (hc : slot.isConstant = false → g.stores slot.cell) (ht : flushSlot s slot v = .ok t) :
    Alters g s t := by
  unfold flushSlot at ht
  split at ht
  · cases ht
    exact .refl
  · split at ht
    · cases ht
      exact .refl
    · rename_i hn
      have hcell := hc (by simpa using hn)
      split at ht
      · obtain ⟨s₁, h₁, h₂⟩ := Store.bind_eq_ok.mp ht
        exact (Alters.of_alloc hcell h₁).trans (Alters.of_setScalar hcell h₂)
      · exact Alters.of_setScalar hcell ht

theorem effects_flushOne (hw : SlotsWithin g.stores plan) (i : SlotId) :
    Effects g x (State.flushOne plan i x) := by
  unfold State.flushOne
  split
  · exact .refl
  · rename_i slot hslot
    split
    · rename_i s hs
      exact alters_flushSlot (hw hslot) hs
    · exact .refl

theorem effects_flush (hw : SlotsWithin g.stores plan) (ids : List SlotId) :
    Effects g x (State.flush plan ids x) := by
  induction ids generalizing x with
  | nil => exact .refl
  | cons i ids ih => exact (effects_flushOne hw i).bind fun _ _ _ => ih

theorem memory_flushOne (plan : Plan) (i : SlotId) :
    (finalState (State.flushOne plan i x)).machine.memory = x.machine.memory := by
  unfold State.flushOne
  split
  · rfl
  · split <;> rfl

theorem memory_flush (plan : Plan) (ids : List SlotId) :
    (finalState (State.flush plan ids x)).machine.memory = x.machine.memory := by
  induction ids generalizing x with
  | nil => rfl
  | cons i ids ih =>
    have h₁ := memory_flushOne (x := x) plan i
    simp only [State.flush, bind, EStateM.bind]
    cases hf : State.flushOne plan i x with
    | error e y =>
      rw [hf] at h₁
      exact h₁
    | ok u y =>
      rw [hf] at h₁
      exact ih.trans h₁

theorem fetchCell_ok {z : Operand} {c : CellId} (h : fetchCell z x = .ok c y) :
    Alters g x.store y.store ∧ y.machine.memory = x.machine.memory := by
  unfold fetchCell at h
  split at h
  · rename_i c' m hf
    cases h
    obtain ⟨n, rfl, -, -⟩ := Machine.fetch_ok hf
    exact ⟨Alters.freshMany n, rfl⟩
  · cases h

theorem effects_fetchCell (z : Operand) : Effects g x (fetchCell z x) := by
  cases hf : fetchCell z x with
  | ok c y => exact (fetchCell_ok hf).1
  | error e y =>
    unfold fetchCell at hf
    split at hf
    · cases hf
    · rename_i a m hm
      cases hf
      rw [Machine.fetch_error hm]
      exact .refl

/-- The cells of the slots that are written back. -/
def Plan.backing (plan : Plan) : Grant where
  stores c := ∃ (i : Nat) (slot : Slot), plan.slots[i]? = some slot ∧ slot.isConstant = false ∧
    slot.cell = c

theorem slotsWithin_backing (plan : Plan) : SlotsWithin plan.backing.stores plan :=
  fun {i slot} hi hc => ⟨i, slot, hi, hc, rfl⟩

/-- What a grant has to give a unit: its slots, the destination of a unit on arrays, and what a
step of the machine does when slots have been written back. -/
structure Permits (g : Grant) (env : Environment) (plan : Plan) (u : ExecutionUnit) (pc : Int)
    (x : State) : Prop where
  slots : SlotsWithin g.stores plan
  step : ∀ m : Machine, Alters plan.backing x.store m.store → m.memory = x.machine.memory →
    Alters g m.store (finalState (Machine.step env pc m)).store
  destination : ∀ {op t d a b}, u.kind = .vector op t d a b → d.part ≠ .absent ∧
    ∀ c, x.machine.memory.cell? d = some c → g.stores c

section

variable {env : Environment} {u : ExecutionUnit} {pc : Int}

theorem Permits.fallBack (h : Permits g env plan u pc x) (hstore : Alters plan.backing x.store y.store)
    (hmemory : y.machine.memory = x.machine.memory) :
    Effects g y (fallBack env plan u.cached pc y) := by
  refine (effects_flush h.slots u.cached).bind fun _ z hz => ?_
  have hflush : Alters plan.backing y.store z.store := by
    have := effects_flush (x := y) (slotsWithin_backing plan) u.cached
    rw [hz] at this
    exact this
  have hmem : z.machine.memory = y.machine.memory := by
    have := memory_flush (x := y) plan u.cached
    rw [hz] at this
    exact this
  have hstep := h.step z.machine (hstore.trans hflush) (hmem.trans hmemory)
  rw [← finalState_machineStep] at hstep
  unfold Effects
  cases hr : machineStep env pc z with
  | ok next w =>
    rw [hr] at hstep
    exact hstep
  | error e w =>
    rw [hr] at hstep
    cases e <;> exact hstep

theorem Permits.execute (h : Permits g env plan u pc x) :
    Effects g x (execute env plan u pc x) := by
  unfold Accelerator.execute
  cases hk : u.kind with
  | skip => exact .refl
  | fallback => exact h.fallBack .refl rfl
  | alloc d =>
    change Alters g x.store (x.allocate plan d).store
    rw [State.store, State.store, machine_allocate]
  | jump condition on target =>
    cases hb : x.bool? condition with
    | some b => simpa [Effects, finalState, hb] using Relation.ReflTransGen.refl
    | none => simpa [hb] using h.fallBack .refl rfl
  | scalar op =>
    cases hr : op.result? x with
    | some r =>
      simpa [Effects, finalState, hr, State.store, machine_storeResult] using
        Relation.ReflTransGen.refl
    | none => simpa [hr] using h.fallBack .refl rfl
  | vector op t d a b =>
    obtain ⟨hpart, hd⟩ := h.destination hk
    refine (effects_fetchCell d).bind fun c y hy => ?_
    have hc := hd c (cell?_of_fetchCell hpart hy)
    refine (effects_fetchCell a).bind fun c₁ y₁ hy₁ => ?_
    refine (effects_fetchCell b).bind fun c₂ y₂ hy₂ => ?_
    obtain ⟨h₁, e₁⟩ := fetchCell_ok (g := plan.backing) hy
    obtain ⟨h₂, e₂⟩ := fetchCell_ok (g := plan.backing) hy₁
    obtain ⟨h₃, e₃⟩ := fetchCell_ok (g := plan.backing) hy₂
    refine Effects.bind (f := get) (.refl : Alters g y₂.store y₂.store) fun z y₃ hy₃ => ?_
    cases hy₃
    unfold deliverLanes
    cases vectorLanes? y₂.store op t c c₁ c₂ with
    | none => exact h.fallBack ((h₁.trans h₂).trans h₃) (e₃.trans (e₂.trans e₁))
    | some data => exact .single (.write hc)

theorem alters_step (h : ∀ u, plan.units[pc.toNat]? = some u → ∀ y, y.machine = x.machine →
    Permits g env plan u pc y) : Alters g x.store (finalState (step env plan pc x)).store := by
  unfold step
  cases hu : plan.units[pc.toNat]? with
  | none => exact .refl
  | some u =>
    -- the trace is no part of the machine
    have htrace : ∀ y, y.machine = x.machine →
        Alters g x.store (finalState (execute env plan u pc y)).store := by
      intro y hy
      have he := (h u hu y hy).execute
      unfold Effects State.store at he
      rwa [hy] at he
    exact htrace _ (by split <;> rfl)

end

end VectorMachine.Accelerator
