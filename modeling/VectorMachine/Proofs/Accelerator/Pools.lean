import VectorMachine.Processor
import VectorMachine.Proofs.Accelerator.Reach
import VectorMachine.Proofs.Machine.Pools

/-!
# Runs leave the constant pool

A run of an assembled program, on the machine or by a plan, touches no constant of its memory if
host code does not, and keeps which cells the addresses of the memory stand for.  A plan that was
compiled for the memory stays one for it.
-/

namespace VectorMachine
set_option autoImplicit false

open Accelerator (PlanOf SlotsWithin Confines sourceOf)
open Machine (Moves Pools)

variable {p : Program} {m m' : Machine} {env : Environment} {mem : Memory}

/-- The plan was compiled for the program on a memory with the same locals, registers and
constants. -/
def Accelerator.Plan.Fits (plan : Accelerator.Plan) (p : Program) (m : Memory) : Prop :=
  ∃ s mem cache, PlanOf (sourceOf p s mem cache) p plan ∧
    ∀ {y : Operand}, y.IsOwn → mem.cell? y = m.cell? y

/-- The plan of a processor, if it has one, fits. -/
def Processor.Fits (p : Program) (m : Memory) : Processor → Prop
  | .interpreter => True
  | .accelerator _ known _ => ∀ plan, known = some plan → plan.Fits p m

theorem Accelerator.Plan.Fits.congr {plan : Accelerator.Plan} {n : Memory} (h : plan.Fits p mem)
    (hn : ∀ {y : Operand}, y.IsOwn → n.cell? y = mem.cell? y) : plan.Fits p n := by
  obtain ⟨s, mem₀, cache, hplan, hcell⟩ := h
  exact ⟨s, mem₀, cache, hplan, fun hy => (hcell hy).trans (hn hy).symm⟩

theorem Processor.Fits.congr {proc : Processor} {n : Memory} (h : proc.Fits p mem)
    (hn : ∀ {y : Operand}, y.IsOwn → n.cell? y = mem.cell? y) : proc.Fits p n := by
  cases proc with
  | interpreter => trivial
  | accelerator cache known width => exact fun plan hk => (h plan hk).congr hn

namespace Machine

theorem Moves.unpooled {C : CellId → Prop} (h : Moves C m m') : m'.Unpooled = m.Unpooled := by
  funext c
  rw [Unpooled, Unpooled, h.constants]

theorem Pools.slotsWithin {plan : Accelerator.Plan} (h : m.Pools p) (hf : plan.Fits p m.memory) :
    SlotsWithin m.Unpooled plan := by
  obtain ⟨s, mem, cache, hplan, hown⟩ := hf
  intro i slot hi hc
  obtain ⟨ht, hcell⟩ := hplan.slots.typed hi
  refine h.apart (fun hp => ?_) ((hown (Accelerator.isOwn_of_type? ht)).symm.trans hcell)
  simp [Accelerator.Slot.isConstant, hp] at hc

theorem Pools.confines {plan : Accelerator.Plan} {x : Accelerator.State}
    {u : Accelerator.ExecutionUnit} {pc : Int} (hwf : env.program.WellFormed)
    (hlink : ∀ link, env.linker = some link → link.StaysIn x.machine.Unpooled)
    (h : x.machine.Pools env.program) (hf : plan.Fits env.program x.machine.memory)
    (hu : plan.units[pc.toNat]? = some u) :
    Confines x.machine.Unpooled env plan u pc x := by
  refine ⟨h.within, h.slotsWithin hf, fun n hn => ?_, fun {op t d a b} hk => ?_⟩
  · have hstep : Moves n.Unpooled n (finalState (Machine.step env pc n)) :=
      (h.moves hn).moves_step (fun z hz => hwf.admissible hz)
        fun link hl => hn.unpooled ▸ hlink link hl
    rwa [hn.unpooled] at hstep
  · obtain ⟨s, mem, cache, hplan, -⟩ := hf
    have hu' : plan.units.toList[pc.toNat]? = some u := by simpa using hu
    obtain ⟨z, hz, hunit⟩ := exists_of_forall₂ hplan.units hu'
    have hadm : z.Admissible env.program :=
      hwf.code z (Array.mem_toList_iff.mp (List.mem_of_getElem? hz))
    cases hunit with
    | vector hop hops _ hall _ =>
      cases hk
      have habs := (hall d (by simp [hops])).1
      refine ⟨by simpa [Operand.isAbsent] using habs, fun c hc => h.apart ?_ hc⟩
      exact hadm.destination (by simp [hop, Opcode.writes]) d (by simp [hops])
    | _ => cases hk

section Runs

variable (hwf : env.program.WellFormed)
  (hlink : ∀ link, env.linker = some link → link.StaysIn m.Unpooled) (h : m.Pools env.program)
include hwf hlink h

theorem Pools.moves_interpret (patience : Patience) (trace : Log.Trace) :
    Moves m.Unpooled m { m with
      world := (interpret env patience m.world m.memory trace).world
      memory := (interpret env patience m.world m.memory trace).memory } := by
  have hkeep : ∀ (pc : Int) (x : Traced), Moves m.Unpooled m x.machine →
      Moves m.Unpooled m (finalState (Traced.step env pc x)).machine := fun pc x hx => by
    rw [Traced.finalState_step]
    have hstep : Moves x.machine.Unpooled x.machine (finalState (Machine.step env pc x.machine)) :=
      (h.moves hx).moves_step (fun z hz => hwf.admissible hz)
        fun link hl => hx.unpooled ▸ hlink link hl
    rw [hx.unpooled] at hstep
    exact hx.trans hstep
  have hstart := Moves.refl h.within
  have hkeeps := driveAll_keeps (P := fun x : Traced => Moves m.Unpooled m x.machine) hkeep
    env.program.code.size patience
    { machine := { world := m.world, memory := m.memory }, trace := trace }
    ⟨hstart.touches, rfl, rfl, rfl, rfl, hstart.stack⟩
  exact ⟨hkeeps.touches, hkeeps.globals, hkeeps.locals, hkeeps.constants, hkeeps.registers,
    hkeeps.stack⟩

theorem Pools.moves_runPlan {plan : Accelerator.Plan} (hf : plan.Fits env.program m.memory)
    (patience : Patience) (trace : Log.Trace) (width : Nat) :
    Moves m.Unpooled m { m with
      world := (Accelerator.runPlan env plan patience m.world m.memory trace width).1.world
      memory := (Accelerator.runPlan env plan patience m.world m.memory trace width).1.memory } := by
  have hkeep : ∀ (pc : Int) (x : Accelerator.State), Moves m.Unpooled m x.machine →
      Moves m.Unpooled m (finalState (Accelerator.step env plan pc x)).machine := fun pc x hx => by
    have hstep : Accelerator.Drifts m.Unpooled x (Accelerator.step env plan pc x) := by
      refine Accelerator.drifts_step (hx.within h.within) fun u hu y hy => ?_
      have hy' : Moves m.Unpooled m y.machine := hy ▸ hx
      have hc := Pools.confines (x := y) hwf (fun link hl => hy'.unpooled ▸ hlink link hl)
        (h.moves hy') (hf.congr fun ho => hy'.cell? (Memory.stack_ne_of_own ho)) hu
      rwa [hy'.unpooled] at hc
    exact hx.trans hstep
  have hstart := Moves.refl h.within
  have hkeeps := driveAll_keeps (P := fun x : Accelerator.State => Moves m.Unpooled m x.machine) hkeep
    plan.units.size patience
    (.start plan { world := m.world, memory := m.memory } trace width)
    ⟨hstart.touches, rfl, rfl, rfl, rfl, hstart.stack⟩
  -- the slots are written back at last
  have hend := hkeeps.trans
    (show Moves m.Unpooled _ _ from Accelerator.drifts_flush (h.slotsWithin hf) plan.slotIds
      (hkeeps.within h.within))
  have hres : ∀ n : Machine, Moves m.Unpooled m n →
      Moves m.Unpooled m { m with world := n.world, memory := n.memory } := fun n hn =>
    ⟨hn.touches, hn.globals, hn.locals, hn.constants, hn.registers, hn.stack⟩
  unfold Accelerator.runPlan
  simp only
  split
  all_goals
    rename_i hr
    rw [hr] at hend
    exact hres _ hend

end Runs

end Machine

/-- A run of a processor touches no constant, and its plan fits the memory afterwards. -/
theorem moves_process {proc : Processor} (hwf : env.program.WellFormed)
    (hlink : ∀ link, env.linker = some link → link.StaysIn m.Unpooled) (h : m.Pools env.program)
    (hf : proc.Fits env.program m.memory) (patience : Patience)
    (trace : Log.Trace) :
    Moves m.Unpooled m { m with
      world := (proc.process env patience m.world m.memory trace).1.world
      memory := (proc.process env patience m.world m.memory trace).1.memory } ∧
    (proc.process env patience m.world m.memory trace).2.Fits env.program
      (proc.process env patience m.world m.memory trace).1.memory := by
  cases proc with
  | interpreter =>
    refine ⟨?_, trivial⟩
    simp only [Processor.process, Processor.counted_eq]
    exact h.moves_interpret hwf hlink patience trace
  | accelerator cache known width =>
    simp only [Processor.process]
    cases hplan : Processor.plan env.program cache known width m.world.store m.memory trace with
    | error a =>
      have hm := Moves.refl h.within
      exact ⟨⟨hm.touches, rfl, rfl, rfl, rfl, hm.stack⟩, hf⟩
    | ok r =>
      obtain ⟨plan, width', trace'⟩ := r
      have hfit : plan.Fits env.program m.memory := by
        unfold Processor.plan at hplan
        cases known with
        | some plan' =>
          cases hplan
          exact hf plan rfl
        | none =>
          obtain ⟨plan', hc, hplan⟩ := Store.bind_eq_ok.mp hplan
          cases hplan
          exact ⟨m.world.store, m.memory, cache, Accelerator.planOf_of_compile hc, fun _ => rfl⟩
      have hmoves := h.moves_runPlan hwf hlink hfit patience trace' width'
      simp only [Processor.counted_eq]
      refine ⟨hmoves, fun plan' hp' => ?_⟩
      cases hp'
      exact hfit.congr fun hy => hmoves.cell? (Memory.stack_ne_of_own hy)

end VectorMachine
