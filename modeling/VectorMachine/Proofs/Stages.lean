import VectorMachine.Proofs.Constants
import VectorMachine.Proofs.Accelerator.Effects

/-!
# Steps of a session

What the steps of both engines need of the stage that they start in: the stack lies in the store,
the slots of a plan can be written back, and the unit at a position is made for the instruction
there.
-/

namespace VectorMachine
set_option autoImplicit false

/-- The stage after the instruction at `pc`. -/
def Stage.next (env : Environment) (pc : Int) : Stage → Stage
  | .idle m => .idle m
  | .interpreting m => .interpreting (finalState (Machine.step env pc m))
  | .accelerating plan x => .accelerating plan (finalState (Accelerator.step env plan pc x))

/-- The stage after the run. -/
def Stage.ended : Stage → Stage
  | .accelerating plan x => .idle (finalState (Accelerator.State.flush plan plan.slotIds x)).machine
  | s => .idle s.machine

namespace Launch

variable {l : Launch} {m n : Machine} {z : Instruction} {pc : Int} {plan : Accelerator.Plan}
  {x : Accelerator.State}

theorem Preserves.within_true (h : l.Preserves m) (k : Nat) :
    (m.grown k).Within fun _ => True := by
  refine ⟨Store.region_true, fun c hc => ⟨trivial, ?_⟩⟩
  rw [Machine.size_grown]
  exact Nat.lt_add_right k (h.guarded.within.stack c hc).2

/-- Slots that are written back change no constant. -/
theorem Preserves.backed (h : l.Preserves x.machine) (hp : l.Plans (.accelerating plan x))
    (ha : Store.Alters plan.backing x.store n.store) (hmem : n.memory = x.machine.memory) :
    l.Preserves n := by
  have hw := h.guarded.within
  have hg : plan.backing.Within fun c => ¬ x.machine.IsGuard Operand.IsConstant c := by
    refine ⟨?_, False.elim, False.elim, False.elim, fun _ => False.elim⟩
    rintro c ⟨i, slot, hi, hc, rfl⟩
    exact h.slotsWithin hp hi hc
  have ht := Store.Alters.touches hg hw.region ha
  refine h.moves ⟨ht, by rw [hmem], by rw [hmem], by rw [hmem], by rw [hmem], fun c hc => ?_⟩
  rw [hmem] at hc
  exact ⟨(hw.stack c hc).1, Nat.lt_of_lt_of_le (hw.stack c hc).2 ht.cells_le⟩

theorem Plans.unitOf {u : Accelerator.ExecutionUnit} (hp : l.Plans (.accelerating plan x))
    (hz : Machine.instructionAt? l.program pc = some z) (hu : plan.units[pc.toNat]? = some u) :
    ∃ src, Accelerator.UnitOf src plan.slots z u := by
  obtain ⟨s, mem, cache, hplan, -⟩ := hp
  obtain ⟨z', hz', hunit⟩ := Machine.exists_of_forall₂ hplan.units
    (show plan.units.toList[pc.toNat]? = some u by simpa using hu)
  unfold Machine.instructionAt? at hz
  split at hz
  · cases hz
  · rw [Array.getElem?_toList, hz] at hz'
    cases hz'
    exact ⟨_, hunit⟩

end Launch

end VectorMachine
