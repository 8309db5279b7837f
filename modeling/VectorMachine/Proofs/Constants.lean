import VectorMachine.Proofs.Session
import VectorMachine.Proofs.Accelerator.Reach
import VectorMachine.Proofs.Machine.Hosts

/-!
# Constants never change

No instruction of an assembled program exposes a constant, host code gets copies of constants, and
no slot of a constant is written back.  So the cells of all constants stay isolated and keep their
scalars through every stage of every session.
-/

namespace VectorMachine
set_option autoImplicit false

def Operand.IsConstant (y : Operand) : Prop := y.part = .constants

theorem Operand.IsConstant.isOwn {y : Operand} (h : y.IsConstant) : y.IsOwn := .inr (.inr h)

namespace Launch

variable {l : Launch} {m m' : Machine} {stage : Stage}

/-- What a session keeps of the memory that it starts with. -/
structure Preserves (l : Launch) (m : Machine) : Prop where
  guarded : m.Guarded l.base Operand.IsConstant
  own : ∀ {y : Operand}, y.IsOwn → m.memory.cell? y = l.memory.cell? y
  holds : ∀ {y c o}, y.IsConstant → l.memory.cell? y = some c → l.store.Holds c o →
    m.store.Holds c o

/-- The plan of a stage was compiled for the program on the memory of the session. -/
def Plans (l : Launch) : Stage → Prop
  | .accelerating plan _ => ∃ s mem cache,
      Accelerator.PlanOf (Accelerator.sourceOf l.program s mem cache) l.program plan ∧
        ∀ {y : Operand}, y.IsOwn → mem.cell? y = l.memory.cell? y
  | _ => True

theorem Preserves.moves (h : l.Preserves m)
    (hm : Machine.Moves (fun c => ¬ m.IsGuard Operand.IsConstant c) m m') : l.Preserves m' := by
  refine ⟨h.guarded.moves hm, fun hy => ?_, fun hy hc ho => ?_⟩
  · rw [hm.cell? (Memory.stack_ne_of_own hy)]
    exact h.own hy
  · have hcell := h.own hy.isOwn
    exact h.guarded.holds hm ⟨_, hy, hcell.trans hc⟩ (h.holds hy hc ho)

theorem Preserves.restart (h : l.Preserves m) : l.Preserves { m with running := [] } :=
  h.moves ⟨.refl h.guarded.within.region, rfl, rfl, rfl, rfl, h.guarded.within.stack⟩

theorem Preserves.rewound {globals : Array CellId} (h : l.Preserves m)
    (hg : ∀ c ∈ globals, c < l.base) : l.Preserves (m.rewound globals) := by
  refine ⟨h.guarded.rewound hg, fun hy => ?_, fun hy hc ho => ?_⟩
  · rw [Machine.cell?_rewound hy]
    exact h.own hy
  · exact h.guarded.holds_rewound ⟨_, hy, (h.own hy.isOwn).trans hc⟩ (h.holds hy hc ho)

theorem Preserves.allocated (hl : l.Prepared) : l.Preserves l.machine :=
  ⟨Machine.guarded_of_allocated (Memory.allocated hl.sound hl.allocated) hl.sound hl.globals_lt
    Operand.IsConstant.isOwn, fun _ => rfl, fun _ _ ho => ho⟩

theorem Preserves.moves_step (hl : l.Sparing) (h : l.Preserves m) (pc : Int) :
    Machine.Moves (fun c => ¬ m.IsGuard Operand.IsConstant c) m
      (finalState (Machine.step l.environment pc m)) := by
  refine h.guarded.moves_step (fun link hlink => ?_) fun x hx => ?_
  · refine hl.reaches link hlink _ fun c hc => ?_
    rintro ⟨y, hy, hyc⟩
    exact hc (Machine.mem_constants_of_cell? (m := l.machine) hy ((h.own hy.isOwn).symm.trans hyc))
  have hadm := hl.admissible hx
  refine ⟨hadm.knows, fun i y he hy hc => ?_⟩
  rw [Accelerator.not_exposes_constant hadm hy hc] at he
  cases he

theorem isGuard_congr (hm : Machine.Moves (fun c => ¬ m.IsGuard Operand.IsConstant c) m m') :
    (fun c => ¬ m'.IsGuard Operand.IsConstant c) = fun c => ¬ m.IsGuard Operand.IsConstant c := by
  funext c
  rw [hm.isGuard_iff Operand.IsConstant.isOwn]

theorem Preserves.slotsWithin {plan : Accelerator.Plan} {x : Accelerator.State}
    (h : l.Preserves m) (hp : l.Plans (.accelerating plan x)) :
    Accelerator.SlotsWithin (fun c => ¬ m.IsGuard Operand.IsConstant c) plan := by
  obtain ⟨s, mem, cache, hplan, hown⟩ := hp
  intro i slot hi hc
  rintro ⟨y, hy, hyc⟩
  obtain ⟨ht, hcell⟩ := hplan.slots.typed hi
  have hslot := Accelerator.isOwn_of_type? ht
  have : slot.operand = y :=
    h.guarded.apart.own_inj hslot hy.isOwn ((h.own hslot).trans ((hown hslot).symm.trans hcell)) hyc
  simp [Accelerator.Slot.isConstant, this, show y.part = .constants from hy] at hc

theorem Preserves.confines (hl : l.Sparing) {plan : Accelerator.Plan} {x : Accelerator.State}
    {u : Accelerator.ExecutionUnit} {pc : Int} (h : l.Preserves x.machine)
    (hp : l.Plans (.accelerating plan x)) (hu : plan.units[pc.toNat]? = some u) :
    Accelerator.Confines (fun c => ¬ x.machine.IsGuard Operand.IsConstant c) l.environment plan u
      pc x := by
  refine ⟨h.guarded.within, h.slotsWithin hp, fun m hm => ?_, fun {op t d a b} hk => ?_⟩
  · have := (h.moves hm).moves_step hl pc
    rwa [isGuard_congr hm] at this
  · obtain ⟨s, mem, cache, hplan, -⟩ := hp
    have hu' : plan.units.toList[pc.toNat]? = some u := by simpa using hu
    obtain ⟨z, hz, hunit⟩ := Machine.exists_of_forall₂ hplan.units hu'
    have hadm : z.Admissible l.program :=
      hl.wellFormed.code z (Array.mem_toList_iff.mp (List.mem_of_getElem? hz))
    cases hunit with
    | vector hop hops _ hall _ =>
      cases hk
      have habs := (hall d (by simp [hops])).1
      refine ⟨by simpa [Operand.isAbsent] using habs, fun c hc => ?_⟩
      refine h.guarded.not_isGuard (hadm.knows d (by simp [hops])) ?_ hc
      exact hadm.destination (by simp [hop, Opcode.writes]) d (by simp [hops])
    | _ => cases hk

/-- Every stage of a session preserves the constants. -/
theorem preserves_of_reached (hl : l.Sparing) {accelerated : Bool}
    (h : Reached l accelerated stage) : l.Preserves stage.machine ∧ l.Plans stage := by
  induction h with
  | allocated => exact ⟨.allocated hl.toPrepared, trivial⟩
  | rewound _ hg ih => exact ⟨ih.1.rewound hg, trivial⟩
  | interpret _ ih => exact ⟨ih.1.restart, trivial⟩
  | step pc _ ih => exact ⟨ih.1.moves (ih.1.moves_step hl pc), trivial⟩
  | interpreted _ ih => exact ⟨ih.1, trivial⟩
  | @accelerate m₀ m cache plan trace width _ _ hc _ ih₀ ih =>
    exact ⟨ih.1.restart, m₀.store, m₀.memory, cache, Accelerator.planOf_of_compile hc, ih₀.1.own⟩
  | @unit plan x pc _ ih =>
    obtain ⟨h, hp⟩ := ih
    refine ⟨h.moves (Accelerator.drifts_step h.guarded.within fun u hu y hy => ?_), hp⟩
    have hc := Preserves.confines hl (x := y) (by rw [hy]; exact h) hp hu
    rwa [hy] at hc
  | @accelerated plan x _ ih =>
    obtain ⟨h, hp⟩ := ih
    exact ⟨h.moves (Accelerator.drifts_flush (h.slotsWithin hp) _ h.guarded.within), trivial⟩

theorem Preserves.constants_eq (h : l.Preserves m) : m.memory.constants = l.memory.constants := by
  apply Array.ext_getElem?
  intro i
  have hi := h.own (y := ⟨.constants, (i : Int)⟩) (.inr (.inr rfl))
  simpa [Memory.cell?, Memory.cells?, Int.not_lt.mpr (Int.natCast_nonneg i)] using hi

/-- At every stage of every session, every constant holds the scalar that its text stands for, is
no link, and no other container links to it or shares its buffer. -/
theorem constants_immutable (hl : l.Sparing) {accelerated : Bool} (h : Reached l accelerated stage) :
    ∃ vs, List.Forall₂ (fun text v => Literal.decodeImmediate text = .ok v)
        l.program.immediates vs ∧ stage.machine.memory.constants.size = vs.length ∧
      ∀ (i : Nat) (v : Scalar), vs[i]? = some v → ∃ c,
        stage.machine.memory.constants[i]? = some c ∧ stage.machine.store.Isolated c ∧
          stage.machine.store.Holds c (some v) := by
  have hp := (preserves_of_reached hl h).1
  have ha := Memory.allocated hl.sound hl.allocated
  obtain ⟨vs, hvs, hholds⟩ := ha.values
  have hlen : l.program.immediates.length = vs.length := hvs.length_eq
  rw [hp.constants_eq, ha.constants_eq]
  refine ⟨vs, hvs, (Memory.size_consecutive _ _).trans hlen, fun i v hv => ?_⟩
  have hi : i < l.program.immediates.length := hlen ▸ (List.getElem?_eq_some_iff.mp hv).1
  have hc : (Memory.consecutive (l.containers.cells.size + l.memory.locals.size +
      l.memory.registers.size) l.program.immediates.length)[i]? =
        some (l.containers.cells.size + l.memory.locals.size + l.memory.registers.size + i) := by
    rw [Memory.getElem?_consecutive, if_pos hi]
  have hcell : l.memory.cell? ⟨.constants, (i : Int)⟩ =
      some (l.containers.cells.size + l.memory.locals.size + l.memory.registers.size + i) := by
    simp [Memory.cell?, Memory.cells?, Int.not_lt.mpr (Int.natCast_nonneg i), ha.constants_eq,
      hc, Program.layout]
  have hy : Operand.IsConstant ⟨.constants, (i : Int)⟩ := rfl
  exact ⟨_, hc, hp.guarded.isolated ⟨_, hy, (hp.own hy.isOwn).trans hcell⟩,
    hp.holds hy hcell (hholds i v hv)⟩

/-- A call of host code with a constant as its argument. -/
def handOver : Program where
  code := #[
    { opcode := .callExternal, types := [.void],
      operands := [⟨.locals, 0⟩, ⟨.constants, 0⟩, ⟨.constants, 1⟩] },
    { opcode := .finish, types := [.void] }]
  constants := ⟨[("~int:7", 1), ("~int:0", 0)]⟩
  extent := { locals := 0, constants := 1 }

/-- Host code that links its result and its argument to a container of its own and sets that to 9. -/
def overwriting : Linker :=
  Linker.sharing 0 fun _ => [.refer 0 1, .refer 2 1, .set 2 (.int 9)]

/-- The call changes a copy of the constant 7 and a container that it is not handed. -/
theorem constants_immutable_handOver :
    let l := Launch.on handOver (some overwriting) (({} : Store).ofScalar (.int 3)).2 #[]
    l.Sparing ∧ ∀ m, Reached l true (.idle m) →
      ∃ vs, List.Forall₂ (fun text v => Literal.decodeImmediate text = .ok v)
        ["~int:0", "~int:7"] vs ∧ m.memory.constants.size = vs.length ∧
        ∀ (i : Nat) (v : Scalar), vs[i]? = some v → ∃ c, m.memory.constants[i]? = some c ∧
          m.store.Isolated c ∧ m.store.Holds c (some v) := by
  intro l
  have hasm : (Assembler.assemble "CALLX void L0 ~int:0 ~int:7; END void;" {}).toOption =
      some handOver := by decide +kernel
  have hs : (({} : Store).ofScalar (.int 3)).2.Sound :=
    (Store.Touches.ofScalar (C := fun _ => True) Store.region_true _).sound Store.sound_empty
  have hl : l.Sparing := by
    refine ⟨prepared_on hasm hs (by simp) (by decide +kernel), fun link hlink => ?_⟩
    cases hlink
    refine (Linker.reaches_sharing 0 _).mono fun c hc => ?_
    rw [hc]
    exact (by decide +kernel : 0 ∉ l.memory.constants)
  have himm : handOver.immediates = ["~int:0", "~int:7"] := by decide +kernel
  exact ⟨hl, fun m h => himm ▸ constants_immutable hl h⟩

end Launch

end VectorMachine
