import VectorMachine.Proofs.Accelerator.Units

/-!
# Accelerated runs follow the machine

Each unit does what the machine does with its instruction, so an accelerated run takes the same
steps and ends in the same way.  When all slots have been written back at its end, the cells of
all addresses are paired again; between two runs the memories are twins.
-/

namespace VectorMachine
set_option autoImplicit false

open Accelerator (Plan Slot SlotId State)
open Store (Pairing Matches)

namespace Launch

variable {l : Launch} {cache : Bool} {plan : Plan} {R : Pairing} {m n : Machine} {x : State}
  {pc : Int} {z : Instruction}

/-! ### Steps -/

theorem Follows.execute {u : Accelerator.ExecutionUnit} (hl : l.Valid)
    (hp : l.Planned cache plan) (h : l.Follows cache plan R m x) (hb : l.Relies cache m z)
    (hz : Machine.instructionAt? l.program pc = some z)
    (hu : Accelerator.UnitOf (Accelerator.sourceOf l.program l.store l.memory cache) plan.slots z u) :
    l.Parallel cache plan (Machine.step l.environment pc m)
      (Accelerator.execute l.environment plan u pc x) := by
  cases hu with
  | skip ho => exact h.skip hp hb hz ho
  | fallback hc => exact h.fallBack hl hp hb hz hc
  | alloc hop hops hd ht => exact h.alloc hl hp hz hop hops hd ht
  | @jump ids i on target d a b rest c s v hop hops hg hv htarget hi ht hc =>
    subst htarget
    simp only [Accelerator.execute]
    cases hbool : x.bool? i with
    | none => exact h.fallBack hl hp hb hz hc
    | some bv => exact h.jump hl hp hb hz hop hops hg hv hi ht hbool
  | @scalar ids js op hop hj hw hc =>
    simp only [Accelerator.execute]
    cases hr : op.result? x with
    | none => exact h.fallBack hl hp hb hz hc
    | some r => exact h.scalar hl hp hz hop hj hw hr
  | vector hop hops hv hfree hc => exact h.vector hl hp hb hz hop hops hv hfree hc

theorem Planned.size_eq (hp : l.Planned cache plan) : l.program.code.size = plan.units.size := by
  simpa using hp.units.length_eq

/-- A unit does what the machine does, if what it relies on is given. -/
theorem Follows.step_of_relies (hl : l.Valid) (hp : l.Planned cache plan)
    (h : l.Follows cache plan R m x) (hb : l.Relies cache m z)
    (hz : Machine.instructionAt? l.program pc = some z) :
    l.Parallel cache plan (Machine.step l.environment pc m)
      (Accelerator.step l.environment plan pc x) := by
  obtain ⟨u, hu, hunit⟩ := hp.unitOf hz
  simp only [Accelerator.step, hu]
  refine Follows.execute (R := R) hl hp (h.congr ?_ ?_) hb hz hunit
  · split <;> rfl
  · split <;> rfl

/-- In a steady session units rely on nothing but the operands that they do not fetch. -/
theorem Steady.relies (hl : l.Steady cache) (hb : m.Heeds cache z) (hz : z ∈ l.program.code) :
    l.Relies cache m z :=
  ⟨fun _ => hl.respects, fun on hop a b => hl.fixed z hz on hop a b, hb⟩

theorem Follows.step (hl : l.Steady cache) (hp : l.Planned cache plan)
    (h : l.Follows cache plan R m x) (hz : Machine.instructionAt? l.program pc = some z)
    (hb : m.Heeds cache z) :
    l.Parallel cache plan (Machine.step l.environment pc m)
      (Accelerator.step l.environment plan pc x) :=
  h.step_of_relies hl.valid hp (hl.relies hb (Valid.mem_code _ hz)) hz

/-- In so many steps a run of the machine comes only to instructions whose operands can be fetched as
far as no unit fetches them. -/
def HeedsWithin (l : Launch) (cache : Bool) (start : Machine) (limit : Nat) : Prop :=
  ∀ k < limit, ∀ pc z m, Machine.Executes l.environment start k pc z m → m.Heeds cache z

theorem Sealed.visit {g : Accelerator.Typing} {k : Nat} (hl : l.Valid) (hg : l.Types g)
    (h : l.Sealed g m) (hvisit : Machine.visit l.environment m k = some (pc, n)) :
    l.Sealed g n ∧ n.memory.globals = m.memory.globals := by
  induction k generalizing pc n with
  | zero =>
    cases hvisit
    exact ⟨h, rfl⟩
  | succ k ih =>
    obtain ⟨pc', z, n', he, hstep⟩ := Machine.visit_succ hvisit
    obtain ⟨hs, hglobals⟩ := ih he.visit_eq
    have hnext := hs.step hl hg pc'
    have hsame := hs.globals_step hl pc'
    rw [hstep] at hnext hsame
    exact ⟨hnext, hsame.trans hglobals⟩

/-- What heeds the operands of all instructions heeds those that a run comes to. -/
theorem Sealed.heedsWithin (hl : l.Valid) (h : l.Sealed (l.typingOf cache) m)
    (hb : l.Heeds cache m.memory.globals) (limit : Nat) : l.HeedsWithin cache m limit := by
  intro k _ pc z n he i y hy ho
  obtain ⟨hs, hglobals⟩ := h.visit hl types_typingOf he.visit_eq
  have hz := Valid.mem_code _ he.fetched
  refine hs.fetches ((hl.wellFormed.code z hz).knows y (List.mem_of_getElem? hy)) ?_
  rw [hglobals]
  exact hb z hz i y hy ho

/-! ### Whole runs -/

/-- Two runs that end alike after the same number of steps. -/
def SameRun (l : Launch) (cache : Bool) (plan : Plan) (r : Except Stop Unit × Nat × Traced)
    (r' : Except Stop Unit × Nat × State) : Prop :=
  r.1 = r'.1 ∧ r.2.1 = r'.2.1 ∧ ∃ R, l.Follows cache plan R r.2.2.machine r'.2.2

theorem Follows.drive (hl : l.Steady cache) (hp : l.Planned cache plan) {t : Traced}
    (h : l.Follows cache plan R t.machine x) {start : Machine} {limit : Nat}
    (hb : l.HeedsWithin cache start limit) (stop : Stop) (fuel steps : Nat) (pc : Int)
    (hvisit : Machine.visit l.environment start steps = some (pc, t.machine))
    (hlimit : steps + fuel ≤ limit) :
    l.SameRun cache plan
      (drive l.program.code.size (Traced.step l.environment) stop fuel steps pc t)
      (drive plan.units.size (Accelerator.step l.environment plan) stop fuel steps pc x) := by
  induction fuel generalizing R t x steps pc with
  | zero =>
    unfold VectorMachine.drive
    rw [← hp.size_eq]
    split
    · exact ⟨rfl, rfl, R, h⟩
    · exact ⟨rfl, rfl, R, h⟩
  | succ fuel ih =>
    unfold VectorMachine.drive
    rw [← hp.size_eq]
    split
    · exact ⟨rfl, rfl, R, h⟩
    · rename_i hpc
      have hz : Machine.instructionAt? l.program pc = some l.program.code[pc.toNat] := by
        rw [Machine.instructionAt?, if_neg (by omega)]
        simp
      have hstep := h.step hl hp hz (hb steps (by omega) pc _ _ ⟨hvisit, hz⟩)
      obtain ⟨trace, width, ht⟩ := Traced.step_eq l.environment pc t
      rw [ht]
      cases hm : Machine.step l.environment pc t.machine <;>
        cases hx : Accelerator.step l.environment plan pc x <;> rw [hm, hx] at hstep
      · obtain ⟨rfl, R', h'⟩ := hstep
        rw [hp.size_eq] at *
        exact ih (t := ⟨_, trace, width⟩) h' (steps + 1) _ (Machine.visit_of_step hvisit hm)
          (by omega)
      · exact hstep.elim
      · exact hstep.elim
      · obtain ⟨rfl, R', h'⟩ := hstep
        exact ⟨rfl, rfl, R', h'⟩

/-! ### Between two runs -/

/-- The addresses of all cells but those on the stack. -/
def Placed (y : Operand) : Prop := y.part = .globals ∨ y.IsOwn

/-- Two machines of one session whose cells are all paired, those of the memory with themselves. -/
structure Twins (l : Launch) (cache : Bool) (R : Pairing) (m n : Machine) : Prop where
  isSealed : l.Sealed (l.typingOf cache) m
  isSealed' : l.Sealed (l.typingOf cache) n
  tied : Machine.Tied True Placed R m n
  old : ∀ {c}, l.Old c → R c c
  globals : m.memory.globals = n.memory.globals

theorem Valid.old_of_cell (hl : l.Valid) {y : Operand} {c : CellId}
    (hc : l.memory.cell? y = some c) : l.Old c :=
  (Sealed.allocated hl (types_typingOf : l.Types (l.typingOf false))).guarded.addressable y c hc

theorem Twins.restart (h : l.Twins cache R m n) :
    l.Twins cache R { m with running := [] } { n with running := [] } :=
  ⟨h.isSealed.restart types_typingOf, h.isSealed'.restart types_typingOf,
    ⟨h.tied.store, h.tied.journal, rfl, h.tied.stack, h.tied.off_stack, h.tied.cells, h.tied.sizes⟩,
    h.old, h.globals⟩

/-- At the start of a run all slots have the values of their cells. -/
theorem Twins.start (hl : l.Valid) (hp : l.Planned cache plan) (h : l.Twins cache R m n)
    (trace : Log.Trace) (width : Nat) :
    l.Follows cache plan (Parted plan R) m (State.start plan n trace width) := by
  have hsize : (Array.replicate plan.slots.size (none : Option Scalar)).size = plan.slots.size := by
    simp
  have hvalue : ∀ {i : SlotId} {slot : Slot}, plan.slots[i]? = some slot →
      (State.start plan n trace width).value? i = Accelerator.loadSlot n.store slot := by
    intro i slot hi
    have hlt := (Array.getElem?_eq_some_iff.mp hi).1
    rw [State.start, value?_load hsize, if_pos (by simpa [Plan.slotIds] using hlt), hi]
    rfl
  have hle : (Rejoined plan plan.slotIds fun _ _ => False).Below R := by
    rintro c c' (hf | ⟨rfl, i, -, slot, hi, -, rfl⟩)
    · exact hf.elim
    · exact h.old (hl.old_of_cell (hp.typed_slot hi).2.1)
  have hold : ∀ {i : SlotId} {slot : Slot}, plan.slots[i]? = some slot →
      m.store.Holds slot.cell (Accelerator.loadSlot n.store slot) ∧
        n.store.Holds slot.cell (Accelerator.loadSlot n.store slot) := by
    intro i slot hi
    have hlt := (Array.getElem?_eq_some_iff.mp hi).1
    exact Follows.holds_flushed hl hp h.isSealed h.isSealed' hle h.tied.store hi
      (by simpa [Plan.slotIds] using hlt)
  refine follows_of_tied (D := Placed) hp (fun hy => ?_) h.tied h.isSealed h.isSealed'
    (fun hc _ => h.old hc) h.globals ((size_load _).trans hsize) (fun hi => ?_) fun hi hnone => ?_
  · exact hy.imp_right fun hy => hy.1
  · rw [hvalue hi]
    exact (hold hi).1
  · rw [hvalue hi] at hnone
    exact hnone ▸ (hold hi).2

/-- When all slots have been written back, all cells are paired again. -/
theorem Follows.finish (hl : l.Valid) (hp : l.Planned cache plan)
    (h : l.Follows cache plan R m x) :
    ∃ y, State.flush plan plan.slotIds x = .ok () y ∧ ∃ R, l.Twins cache R m y.machine := by
  obtain ⟨y, hy, h₁, -, hsync⟩ := h.flush hl hp plan.slotIds
  have htied := h₁.tied_flushed hp hsync
  have hflushed : ∀ {c}, plan.Caches c → Flushed plan plan.slotIds c := by
    rintro c ⟨i, slot, hi, hconst, rfl⟩
    have hlt := (Array.getElem?_eq_some_iff.mp hi).1
    exact ⟨i, by simpa [Plan.slotIds] using hlt, slot, hi, hconst, rfl⟩
  refine ⟨y, hy, _, h₁.isSealed, h₁.isSealed', ⟨htied.store, htied.journal, htied.running,
    htied.stack, fun hy => ?_, fun {y} hy => ?_, htied.sizes⟩, fun {c} hc => ?_, h₁.globals⟩
  · rcases hy with hy | hy
    · simp [hy]
    · exact Memory.stack_ne_of_own hy
  · refine htied.cells ?_
    rcases hy with hy | hy
    · exact .inl (.inl hy)
    · by_cases hc : ∃ c, l.memory.cell? y = some c ∧ plan.Caches c
      · obtain ⟨c, hyc, hc⟩ := hc
        exact .inr ⟨hy, c, hyc, hflushed hc⟩
      · exact .inl (.inr ⟨hy, fun c hyc hcc => hc ⟨c, hyc, hcc⟩⟩)
  · by_cases hcc : plan.Caches c
    · exact .inr ⟨rfl, hflushed hcc⟩
    · exact .inl (h₁.old hc hcc)

/-- A machine in the course of a session is its own twin. -/
theorem Twins.self (h : l.Sealed (l.typingOf cache) n)
    (hold : l.store.cells.size ≤ n.store.cells.size) :
    l.Twins cache (fun c c' => c = c' ∧ c < n.store.cells.size) n n := by
  refine ⟨h, h, ⟨.refl True h.guarded.sound, rfl, rfl, ?_, fun {y} hy => ?_, fun {y} _ => ?_,
    fun _ => rfl⟩, fun hc => ⟨rfl, Nat.lt_of_lt_of_le hc hold⟩, rfl⟩
  · exact List.forall₂_same.mpr fun c hc =>
      ⟨rfl, (h.guarded.within.stack c (by simpa using hc)).2⟩
  · rcases hy with hy | hy
    · simp [hy]
    · exact Memory.stack_ne_of_own hy
  · cases hc : n.memory.cell? y with
    | none => exact .none
    | some c => exact .some ⟨rfl, h.guarded.addressable y c hc⟩

theorem Twins.allocated (hl : l.Valid) :
    l.Twins cache (fun c c' => c = c' ∧ l.Old c) l.machine l.machine :=
  .self (Sealed.allocated hl types_typingOf) (Nat.le_refl _)

theorem Sealed.locals_eq {g : Accelerator.Typing} (h : l.Sealed g m) :
    m.memory.locals = l.memory.locals := by
  apply Array.ext_getElem?
  intro i
  have := h.own (y := ⟨.locals, i⟩) (.inl rfl)
  simpa [Memory.cell?, Memory.cells?, Int.not_lt.mpr (Int.natCast_nonneg i)] using this

theorem Sealed.registers_eq {g : Accelerator.Typing} (h : l.Sealed g m) :
    m.memory.registers = l.memory.registers := by
  apply Array.ext_getElem?
  intro i
  have := h.own (y := ⟨.registers, i⟩) (.inr (.inl rfl))
  simpa [Memory.cell?, Memory.cells?, Int.not_lt.mpr (Int.natCast_nonneg i)] using this

theorem Twins.rewound {globals : Array CellId} (hl : l.Valid) (h : l.Twins cache R m n)
    (hg : ∀ c ∈ globals, c < l.base) :
    l.Twins cache R (m.rewound globals) (n.rewound globals) := by
  have hs := h.isSealed.rewound types_typingOf hg
  have hs' := h.isSealed'.rewound types_typingOf hg
  have hold : ∀ c ∈ (l.memory.locals ++ l.memory.registers).toList, R c c := by
    intro c hc
    refine h.old ?_
    rw [Array.toList_append, List.mem_append] at hc
    rcases hc with hc | hc
    · obtain ⟨i, hi, rfl⟩ := List.mem_iff_getElem.mp hc
      refine hl.old_of_cell (y := ⟨.locals, i⟩) ?_
      simp [Memory.cell?, Memory.cells?, Int.not_lt.mpr (Int.natCast_nonneg i)]
    · obtain ⟨i, hi, rfl⟩ := List.mem_iff_getElem.mp hc
      refine hl.old_of_cell (y := ⟨.registers, i⟩) ?_
      simp [Memory.cell?, Memory.cells?, Int.not_lt.mpr (Int.natCast_nonneg i)]
  have hold' : ∀ {c}, c < l.base → R c c := fun hc =>
    h.old (Nat.lt_of_lt_of_le hc (Sealed.allocated hl
      (types_typingOf : l.Types (l.typingOf cache))).guarded.base_le)
  refine ⟨hs, hs', ⟨?_, h.tied.journal, rfl, .nil, h.tied.off_stack, fun {y} hy => ?_, fun {p} hp => ?_⟩,
    h.old, rfl⟩
  · rw [Machine.rewound_store, Machine.rewound_store, h.isSealed.locals_eq, h.isSealed.registers_eq,
      h.isSealed'.locals_eq, h.isSealed'.registers_eq]
    exact h.tied.store.unlinkAll _ hold
  · rcases hy with hy | hy
    · have hcells : ∀ k : Machine, (k.rewound globals).memory.cell? y =
          if y.addr < 0 then none else globals[y.addr.toNat]? := by
        intro k
        simp [Machine.rewound, Memory.cell?, hy, Memory.cells?, Memory.bindGlobals]
      rw [hcells, hcells]
      split
      · exact .none
      · cases hc : globals[y.addr.toNat]? with
        | none => exact .none
        | some c => exact .some (hold' (hg c (Array.mem_of_getElem? hc)))
    · rw [Machine.cell?_rewound hy, Machine.cell?_rewound hy]
      exact h.tied.cells (.inr hy)
  · have := h.tied.sizes hp
    cases p <;>
      simp_all [Machine.rewound, Memory.rewind, Memory.bindGlobals, Memory.cells?]

/-- Runs on twin memories end alike and leave twin memories. -/
structure SameResult (l : Launch) (cache : Bool) (r r' : RunResult) : Prop where
  outcome : r.outcome = r'.outcome
  steps : r.stats.steps = r'.stats.steps
  twins : ∃ R, l.Twins cache R { world := r.world, memory := r.memory }
    { world := r'.world, memory := r'.memory }

/-- What a run by a plan gives if the slots can be written back at its end. -/
theorem runPlan_of_flush {env : Environment} {patience : Patience} {world : World}
    {memory : Memory} {trace : Log.Trace} {width : Nat} {y : State}
    {r : Except Stop Unit × Nat × State}
    (hr : driveAll plan.units.size (Accelerator.step env plan) patience
      (State.start plan { world := world, memory := memory } trace width) = r)
    (hy : State.flush plan plan.slotIds r.2.2 = .ok () y) :
    let result := (Accelerator.runPlan env plan patience world memory trace width).1
    result.outcome = r.1 ∧ result.stats.steps = r.2.1 ∧ result.world = y.machine.world ∧
      result.memory = y.machine.memory := by
  simp [Accelerator.runPlan, hr, hy]

theorem Twins.run (hl : l.Steady cache) (hp : l.Planned cache plan) (h : l.Twins cache R m n)
    (patience : Patience)
    (hb : l.HeedsWithin cache { m with running := [] } (pollInterval * patience.polls))
    (trace trace' : Log.Trace) (width : Nat) :
    l.SameResult cache (interpret l.environment patience m.world m.memory trace)
      (Accelerator.runPlan l.environment plan patience n.world n.memory trace' width).1 := by
  have hrun := (h.restart.start hl.valid hp trace' width).drive
    (t := { machine := { m with running := [] }, trace := trace }) hl hp hb patience.stop
    (pollInterval * patience.polls) 0 0 rfl (by omega)
  rw [← driveAll_eq, ← driveAll_eq] at hrun
  obtain ⟨houtcome, hsteps, R', h'⟩ := hrun
  obtain ⟨y, hy, R'', h''⟩ := h'.finish hl.valid hp
  obtain ⟨h₁, h₂, h₃, h₄⟩ := runPlan_of_flush rfl hy
  refine ⟨houtcome.trans h₁.symm, hsteps.trans h₂.symm, R'', ?_⟩
  rw [h₃, h₄]
  exact h''.restart

end Launch

end VectorMachine
