import VectorMachine.Proofs.Accelerator.Runs
import VectorMachine.Proofs.Machine.Hosts
import VectorMachine.Proofs.Store.Formed

/-!
# Accelerated sessions refine sessions of the machine

A program that is run again and again on one memory gives the same results with an accelerator,
whose plan is compiled in the first run and serves all others, as on the machine alone: the same
outcomes, numbers of steps and host calls, and memories that cannot be told apart.
-/

namespace VectorMachine
set_option autoImplicit false

open Accelerator (Plan State)
open Store (Pairing Matches)

/-! ### Recorded host calls -/

/-- What a host function can see of an argument. -/
abbrev Argument := Shape × List Scalar

def World.argument (w : World) (c : CellId) : Argument := (w.store.shape c, w.store.elements c)

namespace Linker

/-- Host code whose calls are noted in the journal, with the contents of their arguments. -/
def recording (note : Int → List Argument → String) (link : Linker) : Linker :=
  fun index args result w =>
    link index args result { w with journal := w.journal.push (note index (args.map w.argument)) }

theorem reaches_recording {link : Linker} {known : CellId → Prop}
    (note : Int → List Argument → String) (h : link.Reaches known) :
    (link.recording note).Reaches known := by
  intro C hC w index args result hw hcs
  have := h C hC { w with journal := w.journal.push (note index (args.map w.argument)) } index args
    result hw hcs
  exact this

theorem respects_recording {deep : Prop} {link : Linker} (note : Int → List Argument → String)
    (h : link.Respects deep) : (link.recording note).Respects deep := by
  intro R w w' index args args' result result' hm hj hargs hresult
  have hcontents : args.map w.argument = args'.map w'.argument := by
    clear hresult
    induction hargs with
    | nil => rfl
    | cons hc _ ih =>
      have hc := hm.alike hc
      simp only [List.map_cons, ih, World.argument, hc.shape_eq, hc.elements_eq]
  refine h R _ _ index args args' result result' hm ?_ hargs hresult
  simp only [hj, hcontents]

end Linker

namespace Launch

variable {l : Launch} {cache : Bool} {plan : Plan} {R : Pairing} {m n : Machine}

/-- The session with its host calls recorded. -/
def recording (l : Launch) (note : Int → List Argument → String) : Launch :=
  { l with linker := l.linker.map (Linker.recording note) }

theorem Regular.recording (hl : l.Regular) (note : Int → List Argument → String) :
    (l.recording note).Regular := by
  have hprepared : (l.recording note).Prepared :=
    ⟨hl.valid.assembled, hl.valid.sound, hl.valid.globals_lt, hl.valid.allocated⟩
  refine ⟨⟨hprepared, ?_⟩, ?_, hl.labels, hl.locals_lt, hl.registers_lt⟩
  · intro link hlink
    obtain ⟨link', h', rfl⟩ := Option.map_eq_some_iff.mp hlink
    exact Linker.reaches_recording note (hl.valid.reaches link' h')
  · intro link hlink
    obtain ⟨link', h', rfl⟩ := Option.map_eq_some_iff.mp hlink
    exact Linker.respects_recording note (hl.respects link' h')

/-! ### Regular sessions -/

/-- All operands can be fetched but globals that are not bound, unless the number of locals or registers
does not fit 64 bits. -/
theorem Valid.fetches (hl : l.Valid) (hlocals : l.program.greatestAddress .locals < 2 ^ 63 - 1)
    (hregisters : l.program.greatestAddress .registers < 2 ^ 63 - 1) {globals : Array CellId}
    {z : Instruction} (hz : z ∈ l.program.code) {y : Operand} (hy : y ∈ z.operands)
    (hb : y.part = .globals → 0 ≤ y.addr ∧ y.addr < globals.size) :
    (l.memory.bindGlobals globals).Fetches y := by
  have hk := (hl.wellFormed.code z hz).knows y hy
  have hown : y.IsOwn → (l.memory.bindGlobals globals).Fetches y := by
    intro hown
    have hcells : (l.memory.bindGlobals globals).cell? y = l.memory.cell? y := by
      rcases hown with hp | hp | hp <;>
        simp only [Memory.cell?, Memory.cells?, Memory.bindGlobals, hp]
    obtain ⟨c, hc⟩ := hl.exists_cell hown hk fun hp => by
      rcases hp with hp | hp
      · exact hp ▸ hlocals
      · exact hp ▸ hregisters
    exact .inr ⟨c, hcells.trans hc⟩
  cases hp : y.part with
  | absent => exact .inl hp
  | globals =>
    obtain ⟨h₀, hlt⟩ := hb hp
    have hlt' : y.addr.toNat < globals.size := by omega
    refine .inr ⟨globals[y.addr.toNat], ?_⟩
    simp [Memory.cell?, hp, Memory.cells?, Memory.bindGlobals, Int.not_lt.mpr h₀, hlt']
  | locals => exact hown (.inl hp)
  | registers => exact hown (.inr (.inl hp))
  | constants => exact hown (.inr (.inr hp))
  | stack | unknown n => simp [Program.Knows, hp] at hk

theorem Regular.heeds (hl : l.Regular) {globals : Array CellId}
    (hb : l.program.Binds globals.size) : l.Heeds cache globals := by
  intro z hz i y hy _
  have hmem := List.mem_of_getElem? hy
  exact hl.valid.fetches hl.locals_lt hl.registers_lt hz hmem (hb z hz y hmem)

/-- Typed addresses have cells unless their number does not fit 64 bits. -/
theorem Valid.cell_of_typed (hl : l.Valid) (hlocals : l.program.greatestAddress .locals < 2 ^ 63 - 1)
    (hregisters : l.program.greatestAddress .registers < 2 ^ 63 - 1) {y : Operand} {t : DataType}
    (ht : (l.typingOf cache).type? y = some t) : ∃ c, l.memory.cell? y = some c := by
  cases hc : l.memory.cell? y with
  | some c => exact ⟨c, rfl⟩
  | none =>
    exfalso
    cases cache with
    | false => cases ht
    | true =>
      obtain ⟨hy, hle⟩ := hl.cell?_of_type? ht hc
      rcases Accelerator.isOwn_of_type? ht with hp | hp | hp
      · rw [hp] at hle
        omega
      · rw [hp] at hle
        omega
      · exact hy hp

/-- A session is steady if no label is a global that a plan would keep. -/
theorem Valid.steady (hl : l.Valid) (hresp : ∀ link, l.linker = some link → link.Respects True)
    (hlocals : l.program.greatestAddress .locals < 2 ^ 63 - 1)
    (hregisters : l.program.greatestAddress .registers < 2 ^ 63 - 1)
    (hlabels : cache = true → ∀ z ∈ l.program.code, ∀ on, z.opcode = .jump on →
      ∀ y, z.operands[1]? = some y → y.part ≠ .globals) : l.Steady cache := by
  have hglobals : l.memory.globals = l.globals :=
    (Memory.allocated hl.sound hl.allocated).globals_eq
  have hmem : l.memory.bindGlobals l.globals = l.memory := by
    rw [← hglobals]
    rfl
  refine ⟨hl, hresp, hl.cell_of_typed hlocals hregisters, fun hc z hz on hop a ha => ?_,
    fun z hz on hop a b ha _ ht => ?_⟩
  · exact hmem ▸ hl.fetches hlocals hregisters hz (List.mem_of_getElem? ha) fun hp =>
      absurd hp (hlabels hc z hz on hop a ha)
  · cases cache with
    | true => exact hlabels rfl z hz on hop a ha
    | false => cases ht

theorem Regular.steady (hl : l.Regular) : l.Steady cache :=
  hl.valid.steady hl.respects hl.locals_lt hl.registers_lt fun _ => hl.labels

/-! ### Plans -/

theorem Steady.compiles (hl : l.Steady cache) :
    ∃ plan, Accelerator.compile l.program l.store l.memory cache = .ok plan ∧
      l.Planned cache plan := by
  have hnew := Sealed.allocated hl.valid (types_typingOf : l.Types (l.typingOf cache))
  have hfail : Accelerator.Failing (Accelerator.sourceOf l.program l.store l.memory cache) False := by
    intro y t ht hc
    obtain ⟨c, hc'⟩ := hl.cells ht
    rw [show l.memory.cell? y = none from hc] at hc'
    cases hc'
  have htargets : cache = true → ∀ z ∈ l.program.code, ∀ on, z.opcode = .jump on →
      Accelerator.FailingTargets (Accelerator.sourceOf l.program l.store l.memory cache) False z := by
    intro hcache z hz on hop a ha
    refine ⟨fun e he => ?_, fun c s e hg hint hrank he => ?_⟩
    · change l.memory.get l.store a = .error e at he
      rcases hl.labels hcache z hz on hop a ha with hy | ⟨c, hc⟩
      · rw [Memory.get, hy] at he
        cases he
      · have habs : a.part ≠ .absent := by
          intro hy
          simp [Memory.cell?, hy, Memory.cells?] at hc
        have hok : l.memory.get l.store a = .ok (c, l.store) :=
          (Memory.get_eq_ok_iff habs).mpr ⟨hc, rfl⟩
        rw [he] at hok
        cases hok
    · obtain ⟨v, hv⟩ := (Memory.sound_get hnew.guarded.sound hg).int_of_scalar hint hrank
      rw [hv] at he
      cases he
  have := Accelerator.builds_compile l.program l.store l.memory cache hfail htargets
  cases hc : Accelerator.compile l.program l.store l.memory cache with
  | error e =>
    rw [hc] at this
    exact this.elim
  | ok plan =>
    rw [hc] at this
    exact ⟨plan, rfl, this⟩

/-- A plan with cached scalars cannot be compiled if a typed address has no cell. -/
theorem Valid.compile_fails (hl : l.Valid) {y : Operand} {t : DataType}
    (ht : (Accelerator.typing l.program l.store l.memory).type? y = some t)
    (hc : l.memory.cell? y = none) (plan : Plan) :
    Accelerator.compile l.program l.store l.memory true ≠ .ok plan := by
  intro hplan
  have hp : l.Planned true plan := Accelerator.planOf_of_compile hplan
  have hno : ∀ {i}, ¬ Accelerator.At plan.slots i y := by
    rintro i ⟨slot, hi, rfl⟩
    rw [(hp.typed_slot hi).2.1] at hc
    cases hc
  -- the address is allocated by some instruction, and the unit of that has a slot for it
  rcases Accelerator.mem_of_typing ht with hcon | ⟨z, hz, ha⟩
  · exact (hl.cell?_of_type? ht hc).1 (Accelerator.mem_constantEntries hcon).1
  · obtain ⟨-, -, -, hop, hops, -⟩ := Accelerator.isOwn_of_allocation ha
    obtain ⟨u, hu⟩ : ∃ u, Accelerator.UnitOf
        (Accelerator.sourceOf l.program l.store l.memory true) plan.slots z u := by
      obtain ⟨k, hk, rfl⟩ := List.mem_iff_getElem.mp hz
      exact ⟨_, hp.units.get hk (hp.units.length_eq ▸ hk)⟩
    cases hu with
    | skip ho => simp [hop, Accelerator.isNoOperation] at ho
    | fallback hcaches =>
      obtain ⟨i, -, hi⟩ := hcaches.covers y (by simp [hops]) t ht
      exact hno hi
    | alloc _ hops' hi _ =>
      rw [hops] at hops'
      cases hops'
      exact hno hi
    | jump hop' => simp [hop] at hop'
    | scalar hop' => simp [Accelerator.scalarOp?, hop] at hop'
    | vector hop' => simp [hop] at hop'

/-! ### Sessions -/

/-- One more run of a session: its globals, and how long the caller waits for it. -/
structure Rerun where
  globals : Array CellId
  patience : Patience

/-- The results of more runs on a used memory, each after rewinding it and binding globals. -/
def reruns (l : Launch) : Processor → RunResult → List Rerun → List RunResult
  | _, _, [] => []
  | proc, last, next :: rest =>
    let m := ({ world := last.world, memory := last.memory } : Machine).rewound next.globals
    let (r, proc) := proc.process l.environment next.patience m.world m.memory last.trace
    r :: reruns l proc r rest

/-- Where more runs on a used memory start on the machine, and how long the caller waits for each. -/
def restarts (l : Launch) : RunResult → List Rerun → List (Machine × Patience)
  | _, [] => []
  | last, next :: rest =>
    let m := ({ world := last.world, memory := last.memory } : Machine).rewound next.globals
    (m, next.patience) ::
      restarts l (Processor.interpreter.process l.environment next.patience m.world m.memory
        last.trace).1 rest

/-- Where the runs of a session start on the machine. -/
def starts (l : Launch) (patience : Patience) (trace : Log.Trace) (rest : List Rerun) :
    List (Machine × Patience) :=
  (l.machine, patience) ::
    l.restarts (Processor.interpreter.process l.environment patience l.machine.world l.memory
      trace).1 rest

/-- The results of a run on the new memory and of more runs after it. -/
def results (l : Launch) (proc : Processor) (patience : Patience) (trace : Log.Trace)
    (rest : List Rerun) : List RunResult :=
  let (r, proc) := proc.process l.environment patience l.machine.world l.memory trace
  r :: l.reruns proc r rest

theorem SameResult.counted {r r' : RunResult} (h : l.SameResult cache r r') :
    l.SameResult cache (Processor.counted r) (Processor.counted r') := by
  obtain ⟨ho, hs, ht⟩ := h
  unfold Processor.counted
  rw [ho]
  split
  · exact ⟨rfl, rfl, ht⟩
  · exact ⟨ho, hs, ht⟩

/-- A processor that runs by one plan, or will compile it. -/
theorem process_planned (cache : Bool) (env : Environment) (patience : Patience) (world : World)
    (memory : Memory) (trace : Log.Trace) (known : Option Plan) (width : Nat)
    (h : known = some plan ∨ known = none ∧
      Accelerator.compile env.program world.store memory cache = .ok plan) :
    ∃ width' width'' trace', (Processor.accelerator cache known width).process env patience world
        memory trace =
      (Processor.counted (Accelerator.runPlan env plan patience world memory trace' width').1,
        .accelerator cache (some plan) width'') := by
  rcases h with rfl | ⟨rfl, hc⟩
  · exact ⟨width, _, trace, rfl⟩
  · simp only [Processor.process, Processor.plan, hc]
    exact ⟨_, _, _, rfl⟩

theorem Twins.reruns (hl : l.Steady cache) (hp : l.Planned cache plan) {r r' : RunResult}
    (h : l.SameResult cache r r') (rest : List Rerun)
    (hg : ∀ next ∈ rest, ∀ c ∈ next.globals, c < l.base)
    (hb : ∀ s ∈ l.restarts r rest, l.HeedsWithin cache s.1 (pollInterval * s.2.polls))
    (width : Nat) :
    List.Forall₂ (l.SameResult cache) (l.reruns .interpreter r rest)
      (l.reruns (.accelerator cache (some plan) width) r' rest) := by
  induction rest generalizing r r' width with
  | nil => exact .nil
  | cons next rest ih =>
    obtain ⟨-, -, R, ht⟩ := h
    simp only [restarts, List.forall_mem_cons] at hb
    simp only [Launch.reruns]
    obtain ⟨w₁, w₂, t, hproc⟩ := process_planned cache l.environment next.patience
      (({ world := r'.world, memory := r'.memory } : Machine).rewound next.globals).world
      (({ world := r'.world, memory := r'.memory } : Machine).rewound next.globals).memory
      r'.trace (some plan) width (.inl rfl)
    rw [hproc]
    have hrun := ((ht.rewound hl.valid (hg next (by simp))).run hl hp next.patience hb.1 r.trace t
      w₁).counted
    exact .cons hrun (ih hrun (fun y hy => hg y (by simp [hy])) hb.2 w₂)

theorem Sealed.interpret {g : Accelerator.Typing} (hl : l.Valid) (hg : l.Types g) (h : l.Sealed g m)
    (hm : m.running = []) (patience : Patience) (trace : Log.Trace) :
    let r := (Processor.interpreter.process l.environment patience m.world m.memory trace).1
    l.Sealed g { world := r.world, memory := r.memory } := by
  have hstart : l.Sealed g ({ world := m.world, memory := m.memory } : Machine) := by
    rw [← hm]
    exact h
  have hstep : ∀ pc (x : Traced), l.Sealed g x.machine →
      l.Sealed g (finalState (Traced.step l.environment pc x)).machine := by
    intro pc x hx
    rw [Traced.finalState_step]
    exact hx.step hl hg pc
  have hrun := driveAll_keeps (P := fun x : Traced => l.Sealed g x.machine) hstep
    l.program.code.size patience { machine := { world := m.world, memory := m.memory }, trace } hstart
  obtain ⟨-, hworld, hmemory⟩ := Processor.counted_eq
    (VectorMachine.interpret l.environment patience m.world m.memory trace)
  simp only [Processor.process, hworld, hmemory]
  exact hrun.restart hg

/-- If the operands of all instructions are heeded with the globals of each run, every run heeds them. -/
theorem Sealed.heeds_restarts (hl : l.Valid) {r : RunResult}
    (h : l.Sealed (l.typingOf cache) { world := r.world, memory := r.memory }) (rest : List Rerun)
    (hrest : ∀ next ∈ rest, (∀ c ∈ next.globals, c < l.base) ∧ l.Heeds cache next.globals) :
    ∀ s ∈ l.restarts r rest, l.HeedsWithin cache s.1 (pollInterval * s.2.polls) := by
  induction rest generalizing r with
  | nil => simp [restarts]
  | cons next rest ih =>
    obtain ⟨hg, hb⟩ := hrest next (by simp)
    have hs := h.rewound types_typingOf hg
    have hlater := ih (hs.interpret hl types_typingOf rfl next.patience r.trace)
      fun y hy => hrest y (by simp [hy])
    simp only [restarts, List.forall_mem_cons]
    exact ⟨hs.heedsWithin hl hb _, hlater⟩

theorem Valid.heeds_starts (hl : l.Valid) (hb : l.Heeds cache l.globals) (patience : Patience)
    (trace : Log.Trace) (rest : List Rerun)
    (hrest : ∀ next ∈ rest, (∀ c ∈ next.globals, c < l.base) ∧ l.Heeds cache next.globals) :
    ∀ s ∈ l.starts patience trace rest,
      l.HeedsWithin cache s.1 (pollInterval * s.2.polls) := by
  have hnew := Sealed.allocated hl (types_typingOf : l.Types (l.typingOf cache))
  have hglobals : l.memory.globals = l.globals := (Memory.allocated hl.sound hl.allocated).globals_eq
  simp only [starts, List.forall_mem_cons]
  exact ⟨hnew.heedsWithin hl (show l.Heeds cache l.memory.globals from hglobals ▸ hb) _,
    Sealed.heeds_restarts hl (hnew.interpret hl types_typingOf rfl patience trace) rest hrest⟩

/-- All runs of a session end alike on the machine and with an accelerator. -/
theorem Steady.sameResults (hl : l.Steady cache) (width : Nat) (patience : Patience)
    (trace : Log.Trace) (rest : List Rerun) (hg : ∀ next ∈ rest, ∀ c ∈ next.globals, c < l.base)
    (hb : ∀ s ∈ l.starts patience trace rest,
      l.HeedsWithin cache s.1 (pollInterval * s.2.polls)) :
    List.Forall₂ (l.SameResult cache) (l.results .interpreter patience trace rest)
      (l.results (.accelerator cache none width) patience trace rest) := by
  obtain ⟨plan, hc, hp⟩ := hl.compiles
  simp only [starts, List.forall_mem_cons] at hb
  obtain ⟨w₁, w₂, t, hproc⟩ := process_planned cache l.environment patience l.machine.world
    l.memory trace none width (.inr ⟨rfl, hc⟩)
  simp only [results]
  rw [hproc]
  have htwins : l.Twins cache (fun c c' => c = c' ∧ l.Old c) l.machine l.machine :=
    .allocated hl.valid
  have hrun := (htwins.run hl hp patience hb.1 trace t w₁).counted
  exact .cons hrun (Twins.reruns hl hp hrun rest hg hb.2 w₂)

theorem Regular.sameResults (hl : l.Regular) (hb : l.program.Binds l.globals.size) (cache : Bool)
    (width : Nat) (patience : Patience) (trace : Log.Trace) (rest : List Rerun)
    (hrest : ∀ next ∈ rest, (∀ c ∈ next.globals, c < l.base) ∧
      l.program.Binds next.globals.size) :
    List.Forall₂ (l.SameResult cache) (l.results .interpreter patience trace rest)
      (l.results (.accelerator cache none width) patience trace rest) :=
  hl.steady.sameResults width patience trace rest (fun next hn => (hrest next hn).1)
    (hl.valid.heeds_starts (hl.heeds hb) patience trace rest fun next hn =>
      ⟨(hrest next hn).1, hl.heeds (hrest next hn).2⟩)

/-! ### What can be seen of a memory -/

/-- Cells of two memories that correspond: they are at one address, or one container of the host. -/
def Counterpart (base : Nat) (mem mem' : Memory) (c c' : CellId) : Prop :=
  (∃ y, mem.cell? y = some c ∧ mem'.cell? y = some c') ∨ c = c' ∧ c < base

/-- Two memories in which corresponding containers show the same and are linked alike. -/
structure Resembles (base : Nat) (s : Store) (mem : Memory) (s' : Store) (mem' : Memory) :
    Prop where
  sizes : ∀ p, (mem.cells? p).map Array.size = (mem'.cells? p).map Array.size
  shows : ∀ {c c'}, Counterpart base mem mem' c c' →
    s.Alike c s' c' ∧ s.isAlias c = s'.isAlias c'
  roots : ∀ {c c' d d'}, Counterpart base mem mem' c c' → Counterpart base mem mem' d d' →
    (s.root c = d ↔ s'.root c' = d') ∧ (s.root c = s.root d ↔ s'.root c' = s'.root d')
  buffers : ∀ {c c' d d'}, Counterpart base mem mem' c c' → Counterpart base mem mem' d d' →
    ((s.rootCell c).buffer = (s.rootCell d).buffer ↔
      (s'.rootCell c').buffer = (s'.rootCell d').buffer)

/-- Two runs that cannot be told apart. -/
structure Agree (base : Nat) (r r' : RunResult) : Prop where
  outcome : r.outcome = r'.outcome
  steps : r.stats.steps = r'.stats.steps
  journal : r.world.journal = r'.world.journal
  memory : Resembles base r.world.store r.memory r'.world.store r'.memory

theorem Twins.rel (hl : l.Valid) (h : l.Twins cache R m n) {c c' : CellId}
    (hc : Counterpart l.base m.memory n.memory c c') : R c c' := by
  rcases hc with ⟨y, hc, hc'⟩ | ⟨rfl, hc⟩
  · cases hp : y.part with
    | globals | locals | constants | registers =>
      have hR := h.tied.cells (y := y) (by simp [Placed, Operand.IsOwn, hp])
      rw [hc, hc'] at hR
      cases hR
      assumption
    | stack =>
      simp only [Memory.cell?, hp, Memory.cells?, Option.bind_some] at hc hc'
      split at hc
      · cases hc
      · rename_i hpos
        rw [if_neg hpos] at hc'
        obtain ⟨h₁, rfl⟩ := Array.getElem?_eq_some_iff.mp hc
        obtain ⟨h₂, rfl⟩ := Array.getElem?_eq_some_iff.mp hc'
        exact h.tied.stack.get (i := y.addr.toNat) (by simpa using h₁) (by simpa using h₂)
    | absent | unknown => simp [Memory.cell?, hp, Memory.cells?] at hc
  · exact h.old (Nat.lt_of_lt_of_le hc
      (Sealed.allocated hl (types_typingOf : l.Types (l.typingOf cache))).guarded.base_le)

theorem Twins.resembles (hl : l.Valid) (h : l.Twins cache R m n) :
    Resembles l.base m.store m.memory n.store n.memory := by
  refine ⟨fun p => ?_, fun hc => ?_, fun hc hd => ?_, fun {c c' d d'} hc hd => ?_⟩
  · by_cases hp : p = .stack
    · subst hp
      have := h.tied.stack.length_eq
      simpa [Memory.cells?] using this
    · exact h.tied.sizes hp
  · exact ⟨h.tied.store.alike (h.rel hl hc), h.tied.store.isAlias_eq (h.rel hl hc)⟩
  · have hc := h.rel hl hc
    have hd := h.rel hl hd
    exact ⟨h.tied.store.root_eq_iff hc hd, h.tied.store.root_eq_iff hc (h.tied.store.root hd)⟩
  · exact h.tied.store.share_root (h.rel hl hc) (h.tied.store.root (h.rel hl hd)) (.inl trivial)

theorem SameResult.agree (hl : l.Valid) {r r' : RunResult} (h : l.SameResult cache r r') :
    Agree l.base r r' := by
  obtain ⟨ho, hs, R, ht⟩ := h
  exact ⟨ho, hs, ht.tied.journal, ht.resembles hl⟩

/-- The accelerator refines the machine: on every memory of a program, in every sequence of runs,
with or without cached scalars, it ends each run like the machine, after the same number of steps
and the same host calls, and leaves a memory that cannot be told apart. -/
theorem accelerator_refines (hl : l.Regular) (hb : l.program.Binds l.globals.size) (cache : Bool)
    (width : Nat) (patience : Patience) (trace : Log.Trace) (rest : List Rerun)
    (hrest : ∀ next ∈ rest, (∀ c ∈ next.globals, c < l.base) ∧
      l.program.Binds next.globals.size) :
    List.Forall₂ (Agree l.base) (l.results .interpreter patience trace rest)
      (l.results (.accelerator cache none width) patience trace rest) ∧
    ∀ note, List.Forall₂ (Agree l.base)
      ((l.recording note).results .interpreter patience trace rest)
      ((l.recording note).results (.accelerator cache none width) patience trace rest) := by
  refine ⟨(hl.sameResults hb cache width patience trace rest hrest).imp fun _ _ =>
    SameResult.agree hl.valid, fun note => ?_⟩
  have hl' := hl.recording note
  exact (hl'.sameResults hb cache width patience trace rest hrest).imp fun _ _ =>
    SameResult.agree hl'.valid

/-- Counts a global down and hands each value to the host. -/
def countDown : Program where
  code := #[
    { opcode := .alloc, types := [.int], operands := [⟨.locals, 0⟩] },
    { opcode := .alloc, types := [.bool], operands := [⟨.locals, 1⟩] },
    { opcode := .move, types := [.int], operands := [⟨.locals, 0⟩, ⟨.globals, 0⟩] },
    { opcode := .nop, types := [.void] },
    { opcode := .arithmetic .sub, types := [.int],
      operands := [⟨.locals, 0⟩, ⟨.locals, 0⟩, ⟨.constants, 0⟩] },
    { opcode := .callExternal, types := [.void],
      operands := [⟨.globals, 0⟩, ⟨.constants, 1⟩, ⟨.locals, 0⟩] },
    { opcode := .compare .gt, types := [.int],
      operands := [⟨.locals, 1⟩, ⟨.locals, 0⟩, ⟨.constants, 1⟩] },
    { opcode := .jump true, types := [.bool],
      operands := [⟨.absent, 0⟩, ⟨.constants, 2⟩, ⟨.locals, 1⟩] },
    { opcode := .finish, types := [.int], operands := [⟨.absent, 0⟩, ⟨.locals, 0⟩] }]
  labels := ⟨[("&loop", 3)]⟩
  constants := ⟨[("~int:3", 2), ("~int:0", 1), ("~int:1", 0)]⟩
  result := ⟨.locals, 0⟩
  extent := { globals := 0, locals := 1, constants := 2 }

/-- Two runs that count down from 2, with host code that copies its argument into the global. -/
theorem accelerator_refines_countDown :
    let l := Launch.on countDown (some (Linker.editing fun _ => [.refer 0 1]))
      (({} : Store).ofScalar (.int 2)).2 #[0]
    l.Regular ∧ ∀ cache, List.Forall₂ (Agree 1)
      (l.results .interpreter ⟨1, .canceled⟩ {} [⟨#[0], ⟨1, .canceled⟩⟩])
      (l.results (.accelerator cache none 0) ⟨1, .canceled⟩ {} [⟨#[0], ⟨1, .canceled⟩⟩]) := by
  intro l
  have hasm : (Assembler.assemble ("ALLOC int L0; ALLOC bool L1; MOV int L0 G0; #LABEL &loop; " ++
      "SUB int L0 L0 ~int:1; CALLX void G0 ~int:0 L0; GT int L1 L0 ~int:0; " ++
      "JMP bool - &loop L1; END int - L0;") {}).toOption = some countDown := by decide +kernel
  have hs : (({} : Store).ofScalar (.int 2)).2.Sound :=
    (Store.Touches.ofScalar (C := fun _ => True) Store.region_true _).sound Store.sound_empty
  have hl : l.Regular := by
    refine ⟨valid_on hasm hs (by decide +kernel) (by decide +kernel) fun link hlink => ?_,
      fun link hlink => ?_, ?_, by decide, by decide⟩
    · cases hlink
      exact Linker.confined_editing _
    · cases hlink
      exact Linker.respects_editing _
    · exact (by decide : ∀ z ∈ countDown.code, ∀ on, z.opcode = .jump on →
        ∀ y ∈ z.operands[1]?, y.part ≠ .globals)
  have hb : l.program.Binds 1 := by unfold Program.Binds; decide
  refine ⟨hl, fun cache => ?_⟩
  exact (accelerator_refines hl hb cache 0 ⟨1, .canceled⟩ {} [⟨#[0], ⟨1, .canceled⟩⟩]
    (by simpa using ⟨by decide, hb⟩)).1

end Launch

end VectorMachine
