import VectorMachine.Proofs.Engine.Reuse
import VectorMachine.Proofs.Refinement

/-!
# Processors of an engine follow the machine

An accelerated run of an engine ends as a run on the machine would, and leaves containers that show
the same.  The plan that it compiles for a memory serves all runs on that memory.
-/

namespace VectorMachine
set_option autoImplicit false

open Accelerator (Plan)
open Store (Pairing Matches)

variable {base : Nat} {e e' : Engine} {p : Program} {m : Memory} {l : Launch} {cache : Bool}
  {n : Machine}

/-- The operand is no global, or one of so many. -/
def Operand.Bound (globals : Nat) (y : Operand) : Prop :=
  y.part = .globals → 0 ≤ y.addr ∧ y.addr < globals

instance (globals : Nat) (y : Operand) : Decidable (y.Bound globals) :=
  inferInstanceAs (Decidable (_ → _))

/-- A program on whose operands plans can rely: the numbers of locals and registers fit 64 bits, no
unit has to fetch a global that is not bound, and plans that cache scalars keep no label that is a
global.  The operands that no unit fetches are those of instructions without effect, and with cached
scalars the first one of a jump. -/
structure Program.Plain (p : Program) (cache : Bool) (globals : Nat) : Prop where
  locals_lt : p.greatestAddress .locals < 2 ^ 63 - 1
  registers_lt : p.greatestAddress .registers < 2 ^ 63 - 1
  idle : ∀ z ∈ p.code, Accelerator.isNoOperation z.opcode = true →
    ∀ y ∈ z.operands, y.Bound globals
  jumps : cache = true → ∀ z ∈ p.code, ∀ on, z.opcode = .jump on →
    (∀ y ∈ z.operands[0]?, Operand.Bound globals y) ∧ ∀ y ∈ z.operands[1]?, y.part ≠ .globals

theorem Program.plain_iff {p : Program} {cache : Bool} {globals : Nat} : p.Plain cache globals ↔
    p.greatestAddress .locals < 2 ^ 63 - 1 ∧ p.greatestAddress .registers < 2 ^ 63 - 1 ∧
    (∀ z ∈ p.code, Accelerator.isNoOperation z.opcode = true →
      ∀ y ∈ z.operands, y.Bound globals) ∧
    (cache = true → ∀ z ∈ p.code, ∀ on, z.opcode = .jump on →
      (∀ y ∈ z.operands[0]?, Operand.Bound globals y) ∧
        ∀ y ∈ z.operands[1]?, y.part ≠ .globals) :=
  ⟨fun h => ⟨h.locals_lt, h.registers_lt, h.idle, h.jumps⟩,
    fun h => ⟨h.1, h.2.1, h.2.2.1, h.2.2.2⟩⟩

instance (p : Program) (cache : Bool) (globals : Nat) : Decidable (p.Plain cache globals) :=
  decidable_of_iff _ Program.plain_iff.symm

theorem Launch.Valid.steady_of_plain (hl : l.Valid)
    (hresp : ∀ link, l.linker = some link → link.Respects True)
    (hp : l.program.Plain cache l.globals.size) : l.Steady cache :=
  hl.steady hresp hp.locals_lt hp.registers_lt fun hc z hz on hop => (hp.jumps hc z hz on hop).2

theorem Launch.Valid.heeds_of_plain (hl : l.Valid) {globals : Array CellId}
    (hp : l.program.Plain cache globals.size) : l.Heeds cache globals := by
  intro z hz i y hy hidle
  have hmem := List.mem_of_getElem? hy
  refine hl.fetches hp.locals_lt hp.registers_lt hz hmem ?_
  rcases hidle with hno | ⟨hc, rfl, on, hop⟩
  · exact hp.idle z hz hno y hmem
  · exact (hp.jumps hc z hz on hop).1 y hy

/-- A run leaves containers at all addresses that show the same as after another run with the same
outcome. -/
structure RunResult.Echoes (base : Nat) (r r' : RunResult) : Prop where
  outcome : r.outcome = r'.outcome
  sizes : ∀ {part : Partition}, part ≠ .stack →
    (r.memory.cells? part).map Array.size = (r'.memory.cells? part).map Array.size
  pairing : ∃ R : Pairing, World.Mates base R r.world r'.world ∧
    ∀ {y}, Launch.Placed y → Option.Rel R (r.memory.cell? y) (r'.memory.cell? y)

theorem RunResult.echoes {r r' : RunResult} (houtcome : r.outcome = r'.outcome)
    (hworld : r.world = r'.world) (hmemory : r.memory = r'.memory) (hs : r'.world.store.Sound)
    (hle : base ≤ r'.world.store.cells.size) (ha : r'.machine.Addressable) :
    RunResult.Echoes base r r' := by
  refine ⟨houtcome, fun _ => by rw [hmemory],
    fun c c' => c = c' ∧ c < r'.world.store.cells.size, ⟨?_, ?_, fun c hc => ?_⟩, fun {y} _ => ?_⟩
  · rw [hworld]
    exact .refl False hs
  · rw [hworld]
  · exact ⟨rfl, Nat.lt_of_lt_of_le hc hle⟩
  · rw [hmemory]
    cases hc : r'.memory.cell? y with
    | none => exact .none
    | some c => exact .some ⟨rfl, ha y c hc⟩

namespace Launch

/-- The session with code of the host. -/
def linking (l : Launch) (link : Linker) : Launch := { l with linker := some link }

theorem Steady.linking {link : Linker} (h : l.Steady cache) (hconf : link.Confined)
    (hresp : link.Respects True) : (l.linking link).Steady cache := by
  have hprepared : (l.linking link).Prepared :=
    ⟨h.valid.assembled, h.valid.sound, h.valid.globals_lt, h.valid.allocated⟩
  refine ⟨⟨hprepared, ?_⟩, ?_, h.cells, h.labels, h.fixed⟩
  · rintro _ ⟨⟩
    exact hconf.reaches _
  · rintro _ ⟨⟩
    exact hresp

theorem Sealed.linking {g : Accelerator.Typing} {link : Linker} (h : l.Sealed g n) :
    (l.linking link).Sealed g n :=
  ⟨h.guarded, h.own, h.constants, h.suits⟩

theorem Sealed.unlinking {g : Accelerator.Typing} {link : Linker}
    (h : (l.linking link).Sealed g n) : l.Sealed g n :=
  ⟨h.guarded, h.own, h.constants, h.suits⟩

end Launch

namespace Engine

/-- The memory of an accelerated engine belongs to a session. -/
structure Fitting (l : Launch) (base : Nat) (e : Engine) (p : Program) (m : Memory) : Prop where
  program : l.program = p
  steady : l.Steady e.options.scalarCache
  base_le : base ≤ l.base
  isSealed : l.Sealed (l.typingOf e.options.scalarCache) (machineOf e m)
  old_le : l.store.cells.size ≤ e.world.store.cells.size

/-- If the engine is accelerated, it has a plan for the memory. -/
def Tuned (base : Nat) (e : Engine) (p : Program) (m : Memory) : Prop :=
  e.options.accelerate = true → ∃ l plan width, Fitting l base e p m ∧
    e.processor = .accelerator e.options.scalarCache (some plan) width ∧
      l.Planned e.options.scalarCache plan

/-- If the engine is accelerated, it has a plan for the memory, or none at all and the memory is
new. -/
def Tunable (base : Nat) (e : Engine) (p : Program) (m : Memory) : Prop :=
  Tuned base e p m ∨ (e.options.accelerate = true → ∃ l width, Fitting l base e p m ∧
    e.processor = .accelerator e.options.scalarCache none width ∧ l.memory = m ∧
      l.store = e.world.store)

theorem Fitting.congr (h : Fitting l base e p m) (hw : e'.world = e.world)
    (ho : e'.options = e.options) : Fitting l base e' p m :=
  ⟨h.program, ho ▸ h.steady, h.base_le, by rw [machineOf, hw, ho]; exact h.isSealed,
    hw ▸ h.old_le⟩

theorem Tuned.congr (h : Tuned base e p m) (hw : e'.world = e.world)
    (hp : e'.processor = e.processor) (ho : e'.options = e.options) : Tuned base e' p m := by
  intro haccelerate
  rw [ho] at haccelerate
  obtain ⟨l, plan, width, hf, hproc, hplan⟩ := h haccelerate
  exact ⟨l, plan, width, hf.congr hw ho, by rw [hp, ho, hproc], by rw [ho]; exact hplan⟩

/-- Code of the host does not touch what a plan relies on. -/
theorem Tuned.host {w : World} (h : Tuned base e p m) (hw : HostMoves (· < base) e.world w) :
    Tuned base { e with world := w } p m := by
  intro haccelerate
  obtain ⟨l, plan, width, hf, hproc, hplan⟩ := h haccelerate
  have hs := hf.isSealed
  have hknown : ∀ c < base, ¬ (machineOf e m).IsGuard
      (Launch.Closed (l.typingOf e.options.scalarCache)) c := by
    rintro c hc ⟨y, hy, hyc⟩
    have hge := hs.guarded.apart.own_ge (Launch.types_typingOf.isOwn hy) hyc
    exact Nat.not_lt.mpr (Nat.le_trans hf.base_le hge) hc
  have hin := hs.guarded.within
  have ht := hw _ hknown hin.region
  have hmoves : Machine.Moves _ (machineOf e m) (machineOf { e with world := w } m) :=
    ⟨ht, rfl, rfl, rfl, rfl, fun c hc =>
      ⟨(hin.stack c hc).1, Nat.lt_of_lt_of_le (hin.stack c hc).2 ht.cells_le⟩⟩
  exact ⟨l, plan, width, ⟨hf.program, hf.steady, hf.base_le,
    hs.moves Launch.types_typingOf hmoves, Nat.le_trans hf.old_le ht.cells_le⟩, hproc, hplan⟩

/-- A plan serves its memory also after this has been rewound. -/
theorem Tuned.rewound (h : Tuned base e p m) {globals : Array CellId}
    (hg : ∀ c ∈ globals, c < base) :
    Tuned base { e with world.store := (m.rewind e.world.store).2 } p
      ((m.rewind e.world.store).1.bindGlobals globals) := by
  intro haccelerate
  obtain ⟨l, plan, width, hf, hproc, hplan⟩ := h haccelerate
  have hs : l.Sealed (l.typingOf e.options.scalarCache) ((machineOf e m).rewound globals) :=
    hf.isSealed.rewound Launch.types_typingOf fun c hc => Nat.lt_of_lt_of_le (hg c hc) hf.base_le
  have hsize : e.world.store.cells.size ≤ (m.rewind e.world.store).2.cells.size := by
    rw [Memory.rewind, ← Array.foldl_toList, Store.size_unlinkAll]
  exact ⟨l, plan, width, ⟨hf.program, hf.steady, hf.base_le, hs,
    Nat.le_trans hf.old_le hsize⟩, hproc, hplan⟩

/-- An accelerated run echoes one of the machine, and leaves a plan for its memory. -/
theorem Fitting.process (h : Fitting l base e p m) {known : Option Plan} {width : Nat}
    (hproc : e.processor = .accelerator e.options.scalarCache known width)
    (hknown : (∃ plan, known = some plan ∧ l.Planned e.options.scalarCache plan) ∨
      known = none ∧ l.memory = m ∧ l.store = e.world.store)
    (hfair : e.table.Fair base) (hplain : p.Plain e.options.scalarCache m.globals.size)
    (patience : Patience) (trace : Log.Trace) :
    let r := e.processor.process ⟨p, some e.table.link⟩ patience e.world m e.trace
    RunResult.Echoes base (interpret ⟨p, some e.table.link⟩ patience e.world m trace) r.1 ∧
      ∀ e' : Engine, e'.world = r.1.world → e'.processor = r.2 → e'.options = e.options →
        Tuned base e' p r.1.memory := by
  obtain ⟨rfl, hsteady₀, hbase, hsealed, hold⟩ := h
  have hsteady := hsteady₀.linking hfair.confined (hfair.respects True)
  have hheeds : (l.linking e.table.link).HeedsWithin e.options.scalarCache (machineOf e m)
      (pollInterval * patience.polls) :=
    hsealed.linking.heedsWithin hsteady.valid (hsteady.valid.heeds_of_plain hplain) _
  obtain ⟨plan, hfound, hplanned⟩ : ∃ plan, (known = some plan ∨ known = none ∧
      Accelerator.compile l.program e.world.store m e.options.scalarCache = .ok plan) ∧
      l.Planned e.options.scalarCache plan := by
    rcases hknown with ⟨plan, hk, hp⟩ | ⟨hk, rfl, hs⟩
    · exact ⟨plan, .inl hk, hp⟩
    · obtain ⟨plan, hc, hp⟩ := hsteady.compiles
      refine ⟨plan, .inr ⟨hk, ?_⟩, hp⟩
      rw [← hs]
      exact hc
  obtain ⟨w₁, w₂, t, hprocess⟩ := Launch.process_planned e.options.scalarCache
    ⟨l.program, some e.table.link⟩ patience e.world m e.trace known width hfound
  obtain ⟨houtcome, -, R, ht⟩ := (Launch.Twins.self hsealed.linking hold).run hsteady hplanned
    patience hheeds trace t w₁
  obtain ⟨ho, hw, hm⟩ := Processor.counted_eq
    (Accelerator.runPlan ⟨l.program, some e.table.link⟩ plan patience e.world m t w₁).1
  have hle : l.base ≤ l.store.cells.size :=
    (Launch.Sealed.allocated hsteady₀.valid
      (Launch.types_typingOf : l.Types (l.typingOf false))).guarded.base_le
  simp only [hproc, hprocess]
  refine ⟨⟨?_, fun hpart => ?_, R, ⟨?_, ?_, fun c hc => ?_⟩, fun hy => ?_⟩,
    fun e' he hp' ho' _ => ?_⟩
  · rw [ho]
    exact houtcome
  · rw [hm]
    exact ht.tied.sizes hpart
  · rw [hw]
    exact ht.tied.store.shallow
  · rw [hw]
    exact ht.tied.journal
  · exact ht.old (show c < l.store.cells.size by omega)
  · rw [hm]
    exact ht.tied.cells hy
  · refine ⟨l, plan, w₂, ⟨rfl, ho'.symm ▸ hsteady₀, hbase, ?_, ?_⟩, by rw [hp', ho'], ?_⟩
    · have hs := ht.isSealed'.unlinking
      rw [ho', machineOf, he, hw, hm]
      exact hs
    · rw [he, hw]
      by_contra hlt
      have hlt := Nat.lt_of_not_le hlt
      exact Nat.lt_irrefl _ (ht.tied.store.lt (ht.old hlt)).2
    · rw [ho']
      exact hplanned

/-- A run of a processor echoes one of the machine. -/
theorem Poised.echoes (h : Poised base e p m) (hsuits : e.processor.Suits e.options)
    (ht : Tunable base e p m) (hfair : e.table.Fair base)
    (hplain : e.options.accelerate = true → p.Plain e.options.scalarCache m.globals.size)
    (patience : Patience)
    (trace : Log.Trace) :
    let r := e.processor.process ⟨p, some e.table.link⟩ patience e.world m e.trace
    RunResult.Echoes base (interpret ⟨p, some e.table.link⟩ patience e.world m trace) r.1 ∧
      ∀ e' : Engine, e'.world = r.1.world → e'.processor = r.2 → e'.options = e.options →
        Tuned base e' p r.1.memory := by
  cases haccelerate : e.options.accelerate with
  | true =>
    have hplain := hplain haccelerate
    rcases ht with ht | ht
    · obtain ⟨l, plan, width, hf, hproc, hplan⟩ := ht haccelerate
      exact hf.process hproc (.inl ⟨plan, rfl, hplan⟩) hfair hplain patience trace
    · obtain ⟨l, width, hf, hproc, hnew⟩ := ht haccelerate
      exact hf.process hproc (.inr ⟨rfl, hnew⟩) hfair hplain patience trace
  | false =>
    refine ⟨?_, fun e' _ _ ho haccelerate' => ?_⟩
    · have hproc : e.processor = .interpreter := by
        cases hp : e.processor with
        | interpreter => rfl
        | accelerator cache known width =>
          rw [hp] at hsuits
          rw [hsuits.1] at haccelerate
          cases haccelerate
      have hlink : ∀ link, some e.table.link = some link →
          link.StaysIn (machineOf e m).Unpooled := by
        rintro _ ⟨⟩
        exact hfair.confined _
      obtain ⟨hmoves, -⟩ := @moves_process (machineOf e m) ⟨p, some e.table.link⟩ .interpreter
        h.loaded.wellFormed hlink h.loaded.pools trivial patience e.trace
      have hpools := h.loaded.pools.moves hmoves
      have hle := Nat.le_trans h.base_le hmoves.touches.cells_le
      obtain ⟨ho, hw, hm⟩ :=
        Processor.counted_eq (interpret ⟨p, some e.table.link⟩ patience e.world m e.trace)
      have hsame := same_interpret ⟨p, some e.table.link⟩ patience e.world m trace e.trace
      rw [hproc]
      exact RunResult.echoes (hsame.outcome.trans ho.symm) (hsame.world.trans hw.symm)
        (hsame.memory.trans hm.symm) hpools.sound hle hpools.addressable
    · rw [ho, haccelerate] at haccelerate'
      cases haccelerate'

theorem tunable_of_allocate {s : Store} {src : String} (hs : e.world.store.Sound)
    (hbase : base ≤ e.world.store.cells.size) (hbound : ∀ c ∈ e.table.globals, c < base)
    (hp : Assembler.assemble src e.table.symbols = .ok p)
    (hplain : e.options.accelerate = true →
      p.Plain e.options.scalarCache e.table.globals.size)
    (ha : Memory.allocate e.world.store p.layout e.table.globals = .ok (m, s))
    (hsuits : e.processor.Suits e.options)
    (hw : e'.world.store = s) (ho : e'.options = e.options)
    (hproc : e'.processor = e.processor.forget) : Tunable base e' p m := by
  subst hw
  refine .inr fun haccelerate => ?_
  rw [ho] at haccelerate
  have hplain := hplain haccelerate
  let l : Launch :=
    { program := p, linker := none, containers := e.world.store, globals := e.table.globals,
      memory := m, store := e'.world.store, journal := e'.world.journal }
  have hl : l.Valid :=
    ⟨⟨⟨src, _, hp⟩, hs, fun c hc => Nat.lt_of_lt_of_le (hbound c hc) hbase, ha⟩, by simp [l]⟩
  have hf : Fitting l base e' p m :=
    ⟨rfl, hl.steady_of_plain (by simp [l]) (ho ▸ hplain), hbase,
      Launch.Sealed.allocated hl Launch.types_typingOf, Nat.le_refl _⟩
  cases hp : e.processor with
  | interpreter =>
    rw [hp, Processor.Suits, haccelerate] at hsuits
    cases hsuits
  | accelerator cache known width =>
    rw [hp] at hsuits
    refine ⟨l, width, hf, ?_, rfl, rfl⟩
    rw [hproc, hp, ho, ← hsuits.2]
    rfl

end Engine

end VectorMachine
