import VectorMachine.Proofs.Accelerator.Pools
import VectorMachine.Proofs.Engine.Hosts
import VectorMachine.Proofs.Traces

/-!
# Runs of an engine

A run opens the bindings, loads a program with a memory for it, processes it and hands the variables
back.  All this leaves the bindings and what belongs to the memory alone apart from each other: host
code touches only containers that it knows or is handed.
-/

namespace VectorMachine
set_option autoImplicit false

open Store (Touches)
open Machine (Moves Pools)
open Binding (Table)

variable {α β : Type} {known : CellId → Prop} {e e₀ e' : Engine} {p : Program} {m m' : Memory}
  {w : World} {src : String} {hit : Bool}

/-- A processor of the kind that options ask for. -/
def Processor.Suits (o : Engine.Options) : Processor → Prop
  | .interpreter => o.accelerate = false
  | .accelerator cache _ _ => o.accelerate = true ∧ cache = o.scalarCache

theorem Processor.suits_processor (o : Engine.Options) : o.processor.Suits o := by
  unfold Engine.Options.processor
  cases ho : o.accelerate <;> simp [Processor.Suits, ho]

theorem Processor.Suits.forget {o : Engine.Options} {proc : Processor} (h : proc.Suits o) :
    proc.forget.Suits o := by
  cases proc <;> exact h

theorem Processor.Suits.process {o : Engine.Options} {proc : Processor} (h : proc.Suits o)
    (env : Environment) (patience : Patience) (world : World) (memory : Memory)
    (trace : Log.Trace) : (proc.process env patience world memory trace).2.Suits o := by
  cases proc with
  | interpreter => exact h
  | accelerator cache known width =>
    simp only [Processor.process]
    cases Processor.plan env.program cache known width world.store memory trace <;> exact h

theorem Processor.fits_forget (proc : Processor) : proc.forget.Fits p m := by
  cases proc with
  | interpreter => trivial
  | accelerator cache known width => exact nofun

namespace Memory

/-- The cells that a memory has for itself. -/
def own (m : Memory) : Array CellId := m.locals ++ m.registers ++ m.constants

/-- A memory of the kind that an allocation for the program gives: it has as many locals and registers
as the program asks for, and all its own cells differ from each other. -/
structure Furnished (p : Program) (m : Memory) : Prop where
  allocatable : ∃ s globals r, allocate s p.layout globals = .ok r
  locals : m.locals.size = extentSize p.layout.greatestLocal
  registers : m.registers.size = extentSize p.layout.greatestRegister
  distinct : m.own.toList.Nodup

theorem append_consecutive (k n j : Nat) :
    consecutive k n ++ consecutive (k + n) j = consecutive k (n + j) := by
  apply Array.ext_getElem?
  intro i
  rw [Array.getElem?_append, getElem?_consecutive, getElem?_consecutive, getElem?_consecutive,
    size_consecutive]
  split
  · rw [if_pos (by omega)]
  · have hsum : k + n + (i - n) = k + i := by omega
    rw [hsum]
    by_cases hi : i < n + j
    · rw [if_pos (by omega), if_pos hi]
    · rw [if_neg (by omega), if_neg hi]

theorem nodup_consecutive (k n : Nat) : (consecutive k n).toList.Nodup := by
  simp only [consecutive, Array.toList_map, Array.toList_range]
  exact List.Nodup.map (fun a b h => by simpa using h) List.nodup_range

theorem Allocated.own_eq {s t : Store} {globals : Array CellId}
    (h : Allocated s p.layout globals m t) : m.own = consecutive s.cells.size
      (m.locals.size + m.registers.size + p.layout.immediates.length) := by
  have hl : consecutive s.cells.size m.locals.size = m.locals := by
    rw [h.locals_eq, size_consecutive]
  have hr : consecutive (s.cells.size + m.locals.size) m.registers.size = m.registers := by
    conv_rhs => rw [h.registers_eq]
    rw [h.registers_eq, size_consecutive]
  rw [own, h.constants_eq, ← append_consecutive, ← append_consecutive, hl, hr, Nat.add_assoc]

theorem furnished_of_allocate {s t : Store} {globals : Array CellId} (hs : s.Sound)
    (h : allocate s p.layout globals = .ok (m, t)) : m.Furnished p := by
  have ha := allocated hs h
  refine ⟨⟨s, globals, (m, t), h⟩, by rw [ha.locals_eq, size_consecutive],
    by rw [ha.registers_eq, size_consecutive], ?_⟩
  rw [ha.own_eq]
  exact nodup_consecutive _ _

theorem own_of_moves {C : CellId → Prop} {n n' : Machine} (hm : Moves C n n') :
    n'.memory.own = n.memory.own := by
  rw [own, own, hm.locals, hm.registers, hm.constants]

theorem mem_own_of_constant {c : CellId} (h : c ∈ m.constants) : c ∈ m.own := by
  simp [own, h]

theorem Furnished.moves {C : CellId → Prop} {n n' : Machine} (h : n.memory.Furnished p)
    (hm : Moves C n n') : n'.memory.Furnished p := by
  obtain ⟨ha, hl, hr, hd⟩ := h
  exact ⟨ha, hm.locals ▸ hl, hm.registers ▸ hr, by rwa [own_of_moves hm]⟩

end Memory

/-- What host code does to the containers that it knows. -/
def HostMoves (known : CellId → Prop) (w w' : World) : Prop :=
  ∀ C : CellId → Prop, (∀ c, known c → C c) → w.store.Region C → Touches C w.store w'.store

theorem HostMoves.cells_le {w' : World} (h : HostMoves known w w') :
    w.store.cells.size ≤ w'.store.cells.size :=
  (h (fun _ => True) (fun _ _ => trivial) Store.region_true).cells_le

theorem HostMoves.sound {w' : World} (h : HostMoves known w w') (hs : w.store.Sound) :
    w'.store.Sound :=
  (h (fun _ => True) (fun _ _ => trivial) Store.region_true).sound hs

theorem HostMoves.of_touching {ε : Type} {f : EStateM ε World α} {G : Array CellId}
    (h : ∀ C : CellId → Prop, (∀ c, known c → C c) → Binding.Touching C G f)
    (hG : ∀ c ∈ G, known c ∧ c < w.store.cells.size) : HostMoves known w (finalState (f w)) :=
  fun C hC hw => h C hC w hw fun c hc => ⟨hC c (hG c hc).1, (hG c hc).2⟩

namespace Engine

/-- The containers that host code may know before a run: all that are there, those of the memory that
the engine keeps apart. -/
def Known (e : Engine) (c : CellId) : Prop :=
  c < e.world.store.cells.size ∧ ∀ k, e.kept = some k → c ∉ k.memory.own

/-- The store is sound, the known containers are there, and all variables are bound to known ones. -/
structure Steady (known : CellId → Prop) (e : Engine) : Prop where
  sound : e.world.store.Sound
  lt : ∀ c, known c → c < e.world.store.cells.size
  bound : ∀ c ∈ e.table.globals, known c
  suits : e.processor.Suits e.options

/-- A program with a memory for it, of whose own cells the host knows none. -/
structure Loaded (known : CellId → Prop) (e : Engine) (p : Program) (m : Memory) : Prop where
  pools : ({ world := e.world, memory := m } : Machine).Pools p
  wellFormed : p.WellFormed
  furnished : m.Furnished p
  fits : e.processor.Fits p m
  unknown : ∀ c, known c → c ∉ m.own

theorem Loaded.unpooled (h : Loaded known e p m) (c : CellId) (hc : known c) : c ∉ m.constants :=
  fun hm => h.unknown c hc (Memory.mem_own_of_constant hm)

theorem Steady.host (h : Steady known e) (hw : HostMoves known e.world w) :
    Steady known { e with world := w } :=
  ⟨hw.sound h.sound, fun c hc => Nat.lt_of_lt_of_le (h.lt c hc) hw.cells_le, h.bound, h.suits⟩

theorem Loaded.host (h : Loaded known e p m) (hw : HostMoves known e.world w) :
    Loaded known { e with world := w } p m := by
  have hin := h.pools.within
  have ht := hw _ h.unpooled hin.region
  have hm : Moves _ ({ world := e.world, memory := m } : Machine) { world := w, memory := m } :=
    ⟨ht, rfl, rfl, rfl, rfl, fun c hc =>
      ⟨(hin.stack c hc).1, Nat.lt_of_lt_of_le (hin.stack c hc).2 ht.cells_le⟩⟩
  exact ⟨h.pools.moves hm, h.wellFormed, h.furnished, h.fits, h.unknown⟩

theorem Loaded.congr (h : Loaded known e p m) (hw : e'.world = e.world)
    (hp : e'.processor = e.processor) : Loaded known e' p m :=
  ⟨hw ▸ h.pools, h.wellFormed, h.furnished, hp ▸ h.fits, h.unknown⟩

theorem Steady.globals_lt (h : Steady known e) :
    ∀ c ∈ e.table.globals, known c ∧ c < e.world.store.cells.size :=
  fun c hc => ⟨h.bound c hc, h.lt c (h.bound c hc)⟩

/-! ### What a run keeps -/

/-- A computation keeps a property of the engine, whatever its outcome. -/
def Preserves (P : Engine → Prop) (x : Action α) : Prop := ∀ e, P e → P (finalState (x e))

theorem Preserves.bind {P : Engine → Prop} {x : Action α} {f : α → Action β} (hx : Preserves P x)
    (hf : ∀ a, Preserves P (f a)) : Preserves P (x >>= f) := by
  intro e he
  have h := hx e he
  simp only [Bind.bind, EStateM.bind]
  cases hr : x e with
  | ok a e' =>
    rw [hr] at h
    exact hf a e' h
  | error a e' =>
    rw [hr] at h
    exact h

theorem Preserves.pure {P : Engine → Prop} (a : α) : Preserves P (Pure.pure a : Action α) :=
  fun _ he => he

theorem Preserves.get {P : Engine → Prop} : Preserves P (MonadState.get : Action Engine) :=
  fun _ he => he

/-- Two engines with the same options and the same bindings, active or not. -/
structure SameBindings (e₀ e : Engine) : Prop where
  options : e.options = e₀.options
  vars : e.table.vars = e₀.table.vars
  funcs : e.table.funcs = e₀.table.funcs
  names : e₀.table.SameNames e.table

theorem SameBindings.globals (h : SameBindings e₀ e) : e.table.globals = e₀.table.globals := by
  rw [Table.globals, Table.globals, h.vars]

theorem SameBindings.key (h : SameBindings e₀ e) (src : String) : e.key src = e₀.key src := by
  rw [Engine.key, Engine.key, h.names.version_eq]

theorem SameBindings.reaches (h : SameBindings e₀ e) (hr : e₀.table.Reaches known) :
    e.table.Reaches known := by
  refine ⟨h.funcs ▸ hr.calls, ?_, h.vars ▸ hr.writeBacks⟩
  rw [Table.hooks, h.vars, h.funcs]
  exact hr.hooks

/-- The engine during a run, before anything is loaded. -/
structure Before (e₀ e : Engine) : Prop extends SameBindings e₀ e where
  steady : Steady e₀.Known e
  kept : e.kept = e₀.kept
  loaded : ∀ k, e.kept = some k → Loaded e₀.Known e k.program k.memory

/-- The engine during a run, with a program and a memory for it. -/
structure During (e₀ : Engine) (src : String) (p : Program) (hit : Bool) (e : Engine) : Prop
    extends SameBindings e₀ e where
  steady : Steady e₀.Known e
  loaded : ∃ m, Loaded e₀.Known e p m ∧
    e.kept = if e₀.options.reexecute then some ⟨e₀.key src, p, m⟩ else none
  cacheHit : e.stats.cacheHit = hit

theorem Before.host (h : Before e₀ e) (hw : HostMoves e₀.Known e.world w) :
    Before e₀ { e with world := w } :=
  ⟨⟨h.options, h.vars, h.funcs, h.names⟩, h.steady.host hw, h.kept, fun k hk => (h.loaded k hk).host hw⟩

theorem During.host (h : During e₀ src p hit e) (hw : HostMoves e₀.Known e.world w) :
    During e₀ src p hit { e with world := w } := by
  obtain ⟨m, hm, hk⟩ := h.loaded
  exact ⟨⟨h.options, h.vars, h.funcs, h.names⟩, h.steady.host hw, ⟨m, hm.host hw, hk⟩, h.cacheHit⟩

/-! ### Hooks and write backs -/

theorem activate_eq (e : Engine) : activate e =
    match e.table.activate e.world with
    | .ok t w => .ok () { e with world := w, table := t }
    | .error s w => .error (.ofBindingStop s) { e with world := w } := by
  change (onWorld e.table.activate >>= fun t => modify fun e => { e with table := t }) e = _
  simp only [bind, EStateM.bind, onWorld]
  cases e.table.activate e.world <;> rfl

theorem deactivate_eq (e : Engine) : deactivate e =
    match e.table.inactive.deactivate e.world with
    | .ok _ w => .ok () { e with world := w, table := e.table.inactive }
    | .error s w => .error (.ofBindingStop s) { e with world := w, table := e.table.inactive } := by
  change onWorld e.table.inactive.deactivate { e with table := e.table.inactive } = _
  simp only [onWorld]
  cases e.table.inactive.deactivate e.world <;> rfl

theorem table_activate {t t' : Table} {w' : World} (h : t.activate w = .ok t' w') :
    t' = { t with active := true } := by
  simp only [Table.activate, bind, EStateM.bind] at h
  cases hr : Table.activationHooks t.hooks w with
  | ok u w₁ =>
    rw [hr] at h
    cases h
    rfl
  | error s w₁ =>
    rw [hr] at h
    cases h

theorem hostMoves_activate (hr : e.table.Reaches known) :
    HostMoves known e.world (finalState (e.table.activate e.world)) :=
  .of_touching (G := #[]) (fun _ hC => hr.activate hC) (by simp)

theorem hostMoves_deactivate (hr : e.table.Reaches known) :
    HostMoves known e.world (finalState (e.table.inactive.deactivate e.world)) :=
  have hr' : e.table.inactive.Reaches known := ⟨hr.calls, hr.hooks, hr.writeBacks⟩
  .of_touching (G := #[]) (fun _ hC => hr'.deactivate hC) (by simp)

/-- A property that host code keeps, whether the bindings are active or not. -/
structure Hostly (known : CellId → Prop) (P : Engine → Prop) : Prop where
  host : ∀ {e w}, P e → HostMoves known e.world w → P { e with world := w }
  mark : ∀ {e} (active : Bool), P e → P { e with table := { e.table with active := active } }

variable {P : Engine → Prop}

theorem preserves_activate (hP : Hostly known P) (hr : ∀ e, P e → e.table.Reaches known) :
    Preserves P activate := by
  intro e he
  have hw := hostMoves_activate (hr e he)
  rw [activate_eq]
  cases ha : e.table.activate e.world with
  | ok t w =>
    rw [ha] at hw
    obtain rfl := table_activate ha
    exact hP.mark true (hP.host he hw)
  | error s w =>
    rw [ha] at hw
    exact hP.host he hw

theorem preserves_deactivate (hP : Hostly known P) (hr : ∀ e, P e → e.table.Reaches known) :
    Preserves P deactivate := by
  intro e he
  have hw := hostMoves_deactivate (hr e he)
  rw [deactivate_eq]
  cases ha : e.table.inactive.deactivate e.world with
  | ok u w =>
    rw [ha] at hw
    exact hP.mark false (hP.host he hw)
  | error s w =>
    rw [ha] at hw
    exact hP.mark false (hP.host he hw)

theorem preserves_writeBack (hP : Hostly known P) (hr : ∀ e, P e → e.table.Reaches known)
    (hs : ∀ e, P e → Steady known e) :
    Preserves P (do onWorld (← get).table.writeBack) := by
  intro e he
  have hw : HostMoves known e.world (finalState (e.table.writeBack e.world)) :=
    .of_touching (fun _ hC => (hr e he).writeBack hC) (hs e he).globals_lt
  change P (finalState (onWorld e.table.writeBack e))
  unfold onWorld
  cases hb : e.table.writeBack e.world with
  | ok u w =>
    rw [hb] at hw
    exact hP.host he hw
  | error s w =>
    rw [hb] at hw
    exact hP.host he hw

theorem hostly_before : Hostly e₀.Known (Before e₀) where
  host h hw := h.host hw
  mark _ h := ⟨⟨h.options, h.vars, h.funcs, h.names.mark _⟩,
    ⟨h.steady.sound, h.steady.lt, h.steady.bound, h.steady.suits⟩, h.kept,
    fun k hk => (h.loaded k hk).congr rfl rfl⟩

theorem hostly_during : Hostly e₀.Known (During e₀ src p hit) where
  host h hw := h.host hw
  mark _ h := by
    obtain ⟨m, hm, hk⟩ := h.loaded
    exact ⟨⟨h.options, h.vars, h.funcs, h.names.mark _⟩,
      ⟨h.steady.sound, h.steady.lt, h.steady.bound, h.steady.suits⟩,
      ⟨m, hm.congr rfl rfl, hk⟩, h.cacheHit⟩

/-! ### Loading -/

/-- Assembles a source and allocates a memory for its program. -/
def build (src : String) : Action (Program × Memory × Bool) := do
  let p ← assemble src
  dump p
  let m ← allocate p
  keep src p m
  return (p, m, false)

theorem load_eq (src : String) (e : Engine) : load src e =
    (match e.lookup src with
    | some k => do return (k.program, ← reuse k, true)
    | none => build src : Action (Program × Memory × Bool)) e := by
  unfold build
  rfl

/-- A kept program is loaded with its memory rewound and bound to the current globals. -/
theorem load_of_some {k : Kept} (h : e.lookup src = some k) :
    load src e = .ok (k.program, (k.memory.rewind e.world.store).1.bindGlobals e.table.globals, true)
      { e with world.store := (k.memory.rewind e.world.store).2 } := by
  rw [load_eq, h]
  rfl

theorem load_of_none (h : e.lookup src = none) : load src e = build src e := by
  rw [load_eq, h]

/-- Building fails and leaves the engine as it was but for its sinks, or gives a new memory. -/
theorem build_cases (src : String) (e : Engine) :
    (∃ x sinks, build src e = .error x { e with sinks := sinks }) ∨
    ∃ p m s sinks, Assembler.assemble src e.table.symbols = .ok p ∧
      Memory.allocate e.world.store p.layout e.table.globals = .ok (m, s) ∧
      build src e = .ok (p, m, false) { e with
        world.store := s, sinks := sinks,
        kept := if e.options.reexecute then some ⟨e.key src, p, m⟩ else e.kept,
        processor := e.processor.forget } := by
  unfold build
  simp only [bind, EStateM.bind, assemble]
  cases hp : Assembler.assemble src e.table.symbols with
  | error x => exact .inl ⟨_, e.sinks, rfl⟩
  | ok p =>
    have hdump : ∃ sinks, finalState (dump p e) = { e with sinks := sinks } := by
      unfold dump
      split
      · exact ⟨e.sinks, rfl⟩
      · split
        · exact ⟨_, rfl⟩
        · split <;> exact ⟨_, rfl⟩
    obtain ⟨sinks, hsinks⟩ := hdump
    simp only
    cases hd : dump p e with
    | error x e₁ =>
      rw [hd] at hsinks
      cases hsinks
      exact .inl ⟨x, sinks, rfl⟩
    | ok u e₁ =>
      rw [hd] at hsinks
      cases hsinks
      simp only [allocate]
      cases ha : Memory.allocate e.world.store p.layout e.table.globals with
      | error x => exact .inl ⟨_, sinks, rfl⟩
      | ok r => exact .inr ⟨p, r.1, r.2, sinks, rfl, ha, rfl⟩

theorem lookup_of_before (h : Before e₀ e) (src : String) : e.lookup src = e₀.lookup src := by
  rw [lookup, lookup, h.kept, h.key]

theorem Before.loaded_hit {k : Kept} (h : Before e₀ e) (hk : e.lookup src = some k) :
    Loaded e₀.Known { e with world.store := (k.memory.rewind e.world.store).2 } k.program
      ((k.memory.rewind e.world.store).1.bindGlobals e.table.globals) ∧
    Steady e₀.Known { e with world.store := (k.memory.rewind e.world.store).2 } := by
  have hkept : e.kept = some k := (Option.filter_eq_some_iff.mp hk).1
  have hl := h.loaded k hkept
  have hbound : ∀ c ∈ e.table.globals, c < e.world.store.cells.size ∧
      ({ world := e.world, memory := k.memory } : Machine).Unpooled c := fun c hc =>
    ⟨(h.steady.globals_lt c hc).2, hl.unpooled c (h.steady.bound c hc)⟩
  have hpools := hl.pools.rewound hbound
  have hcell : ∀ {y : Operand}, y.IsOwn →
      ((k.memory.rewind e.world.store).1.bindGlobals e.table.globals).cell? y = k.memory.cell? y :=
    fun hy => Machine.cell?_rewound (m := { world := e.world, memory := k.memory }) hy
  have hsize : e.world.store.cells.size ≤ (k.memory.rewind e.world.store).2.cells.size := by
    have hm := Machine.moves_unlinkAll (C := fun _ => True)
      (m := { world := e.world, memory := k.memory })
      (k.memory.locals ++ k.memory.registers).toList
      ⟨Store.region_true, fun c hc => ⟨trivial, (hl.pools.within.stack c hc).2⟩⟩ fun _ _ => trivial
    have := hm.touches.cells_le
    rwa [← Machine.rewound_store e.table.globals] at this
  refine ⟨⟨hpools, hl.wellFormed, ⟨hl.furnished.allocatable, hl.furnished.locals,
    hl.furnished.registers, hl.furnished.distinct⟩, hl.fits.congr hcell, hl.unknown⟩, hpools.sound,
    fun c hc => Nat.lt_of_lt_of_le (h.steady.lt c hc) hsize, h.steady.bound, h.steady.suits⟩

theorem Before.loaded_miss {s : Store} (h : Before e₀ e)
    (hp : Assembler.assemble src e.table.symbols = .ok p)
    (ha : Memory.allocate e.world.store p.layout e.table.globals = .ok (m, s))
    (sinks : List Sink) (kept : Option Kept) :
    Loaded e₀.Known { e with world.store := s, sinks := sinks, kept := kept,
                             processor := e.processor.forget } p m ∧
    Steady e₀.Known { e with world.store := s, sinks := sinks, kept := kept,
                             processor := e.processor.forget } := by
  have halloc := Memory.allocated h.steady.sound ha
  have hpools : ({ world := { e.world with store := s }, memory := m } : Machine).Pools p :=
    Machine.pools_of_allocated h.steady.sound halloc fun c hc => (h.steady.globals_lt c hc).2
  refine ⟨⟨hpools, Assembler.wellFormed_assemble hp, Memory.furnished_of_allocate h.steady.sound ha,
    Processor.fits_forget _, fun c hc hmem => ?_⟩, hpools.sound,
    fun c hc => Nat.lt_of_lt_of_le (h.steady.lt c hc) halloc.adds.size_le, h.steady.bound,
    h.steady.suits.forget⟩
  rw [halloc.own_eq] at hmem
  exact Nat.not_lt.mpr (Memory.le_of_mem_consecutive hmem) (h.steady.lt c hc)

/-! ### Running what is loaded -/

/-- What a run does once its program is loaded. -/
def finish (p : Program) (m : Memory) (hit : Bool) (patience : Patience) :
    Action (Option CellId) := do
  modify fun e => { e with stats := { cacheHit := hit, runs := e.stats.runs + 1 } }
  note ("run " ++ toString (← get).stats.runs ++ " cache hit:" ++ toString hit)
  let m ← process p m patience
  note ("ran " ++ toString (← get).stats.counts.steps ++ " steps")
  onWorld (← get).table.writeBack
  if p.result.isAbsent then return none
  else return some (← cellAt m p.result)

theorem perform_eq (src : String) (patience : Patience) :
    perform src patience = load src >>= fun x => finish x.1 x.2.1 x.2.2 patience := rfl

/-- The engine once a program is loaded: what it keeps is the program with its memory, the one that
is loaded or the one from which it was rewound. -/
structure Ready (e₀ : Engine) (src : String) (p : Program) (m : Memory) (e : Engine) : Prop
    extends SameBindings e₀ e where
  steady : Steady e₀.Known e
  loaded : Loaded e₀.Known e p m
  kept : ∃ m', e.kept = if e₀.options.reexecute then some ⟨e₀.key src, p, m'⟩ else none

theorem Ready.process (h : Ready e₀ src p m e) (hr : e₀.table.Reaches e₀.Known)
    (hhit : e.stats.cacheHit = hit) (patience : Patience) :
    During e₀ src p hit (finalState (process p m patience e)) := by
  have hlink : ∀ link, some e.table.link = some link → link.StaysIn
      ({ world := e.world, memory := m } : Machine).Unpooled := by
    rintro link hl
    cases hl
    exact (h.reaches hr).link h.loaded.unpooled
  have hwf : (⟨p, some e.table.link⟩ : Environment).program.WellFormed := h.loaded.wellFormed
  obtain ⟨hmoves, hfits⟩ := moves_process hwf hlink h.loaded.pools h.loaded.fits patience e.trace
  have hsuits := h.steady.suits.process ⟨p, some e.table.link⟩ patience e.world m e.trace
  obtain ⟨m', hkept⟩ := h.kept
  unfold Engine.process
  generalize e.processor.process ⟨p, some e.table.link⟩ patience e.world m e.trace = r at *
  have hloaded : ∀ e' : Engine, e'.world = r.1.world → e'.processor = r.2 →
      Loaded e₀.Known e' p r.1.memory := fun e' hw hp =>
    ⟨hw ▸ h.loaded.pools.moves hmoves, h.loaded.wellFormed, h.loaded.furnished.moves hmoves,
      hp ▸ hfits, by rw [Memory.own_of_moves hmoves]; exact h.loaded.unknown⟩
  have hduring : During e₀ src p hit { e with
      world := r.1.world, trace := r.1.trace, processor := r.2, stats.counts := r.1.stats,
      kept := e.kept.map fun k => { k with memory := r.1.memory } } := by
    refine ⟨⟨h.options, h.vars, h.funcs, h.names⟩, ⟨hmoves.touches.sound h.steady.sound,
      fun c hc => Nat.lt_of_lt_of_le (h.steady.lt c hc) hmoves.touches.cells_le, h.steady.bound,
      hsuits⟩, ⟨r.1.memory, hloaded _ rfl rfl, ?_⟩, hhit⟩
    rw [hkept]
    split <;> rfl
  simp only
  split <;> exact hduring

theorem During.congr (h : During e₀ src p hit e) (hw : e'.world = e.world)
    (hp : e'.processor = e.processor) (ho : e'.options = e.options) (ht : e'.table = e.table)
    (hk : e'.kept = e.kept) (hc : e'.stats.cacheHit = e.stats.cacheHit) :
    During e₀ src p hit e' := by
  obtain ⟨m, hm, hkept⟩ := h.loaded
  exact ⟨⟨ho.trans h.options, ht ▸ h.vars, ht ▸ h.funcs, ht ▸ h.names⟩, ⟨hw ▸ h.steady.sound, hw ▸ h.steady.lt,
    ht ▸ h.steady.bound, hp ▸ ho ▸ h.steady.suits⟩, ⟨m, hm.congr hw hp, hk.trans hkept⟩,
    hc.trans h.cacheHit⟩

theorem preserves_note (text : String) : Preserves (During e₀ src p hit) (note text) :=
  fun _ h => h.congr rfl rfl rfl rfl rfl rfl

theorem preserves_cellAt (m : Memory) (x : Operand) :
    Preserves (During e₀ src p hit) (cellAt m x) := by
  intro e h
  unfold cellAt
  split
  · rename_i c s hg
    refine h.host fun C _ hw => ?_
    unfold Memory.get at hg
    split at hg
    · cases hg
      exact .fresh hw
    · split at hg
      · cases hg
      · split at hg
        · cases hg
        · split at hg
          · cases hg
            exact .refl hw
          · cases hg
  · exact h

theorem Ready.finish (h : Ready e₀ src p m e) (hr : e₀.table.Reaches e₀.Known)
    (patience : Patience) : During e₀ src p hit (finalState (finish p m hit patience e)) := by
  have hready : ∀ e' : Engine, e'.world = e.world → e'.processor = e.processor →
      e'.options = e.options → e'.table = e.table → e'.kept = e.kept → Ready e₀ src p m e' :=
    fun e' hw hp ho ht hk => ⟨⟨ho.trans h.options, ht ▸ h.vars, ht ▸ h.funcs, ht ▸ h.names⟩,
      ⟨hw ▸ h.steady.sound, hw ▸ h.steady.lt, ht ▸ h.steady.bound, hp ▸ ho ▸ h.steady.suits⟩,
      h.loaded.congr hw hp, hk ▸ h.kept⟩
  have hrest : ∀ m', Preserves (During e₀ src p hit) (do
      note ("ran " ++ toString (← get).stats.counts.steps ++ " steps")
      onWorld (← get).table.writeBack
      if p.result.isAbsent then return none
      else return some (← cellAt m' p.result) : Action (Option CellId)) := by
    intro m'
    refine Preserves.get.bind fun _ => (preserves_note _).bind fun _ => ?_
    refine (preserves_writeBack hostly_during (fun _ h => h.reaches hr) fun _ h => h.steady).bind
      fun _ => ?_
    split
    · exact .pure _
    · exact (preserves_cellAt _ _).bind fun _ => .pure _
  let e₁ : Engine := { e with
    stats := { cacheHit := hit, runs := e.stats.runs + 1 }
    trace := (e.trace.add 0 "#" ("run " ++ toString (e.stats.runs + 1) ++ " cache hit:" ++
      toString hit)).2 }
  have hprocess : During e₀ src p hit (finalState (Engine.process p m patience e₁)) :=
    (hready e₁ rfl rfl rfl rfl rfl).process hr rfl patience
  have hfinish : Engine.finish p m hit patience e = (Engine.process p m patience >>= fun m' => do
      note ("ran " ++ toString (← get).stats.counts.steps ++ " steps")
      onWorld (← get).table.writeBack
      if p.result.isAbsent then return none
      else return some (← cellAt m' p.result) : Action (Option CellId)) e₁ := rfl
  rw [hfinish]
  simp only [bind, EStateM.bind]
  cases hx : Engine.process p m patience e₁ with
  | ok m' e₂ =>
    rw [hx] at hprocess
    exact hrest m' e₂ hprocess
  | error x e₂ =>
    rw [hx] at hprocess
    exact hprocess

/-- Loading leaves the engine as it was but for its sinks, or gives a program with a memory. -/
theorem Before.load (h : Before e₀ e) (src : String)
    (hkept : ∀ k, e₀.kept = some k → e₀.options.reexecute = true) :
    (∃ x sinks, load src e = .error x { e with sinks := sinks }) ∨
    ∃ p m hit e', load src e = .ok (p, m, hit) e' ∧ Ready e₀ src p m e' := by
  cases hk : e.lookup src with
  | some k =>
    obtain ⟨hl, hs⟩ := h.loaded_hit hk
    refine .inr ⟨_, _, _, _, load_of_some hk, ⟨h.options, h.vars, h.funcs, h.names⟩, hs, hl, k.memory, ?_⟩
    obtain ⟨hkept', hkey⟩ := Option.filter_eq_some_iff.mp hk
    rw [if_pos (hkept k (h.kept ▸ hkept'))]
    have hkey' : k.key = e₀.key src := by
      rw [← h.key src]
      exact of_decide_eq_true hkey
    rw [← hkey']
    exact hkept'
  | none =>
    rw [load_of_none hk]
    rcases build_cases src e with hfail | ⟨p, m, s, sinks, hp, ha, hload⟩
    · exact .inl hfail
    · obtain ⟨hl, hs⟩ := h.loaded_miss hp ha sinks
        (if e.options.reexecute then some ⟨e.key src, p, m⟩ else e.kept)
      refine .inr ⟨p, m, false, _, hload, ⟨h.options, h.vars, h.funcs, h.names⟩, hs, hl, m, ?_⟩
      change (if e.options.reexecute then some ⟨e.key src, p, m⟩ else e.kept) = _
      rw [h.key src, h.options]
      split
      · rfl
      · rename_i hne
        cases hkn : e₀.kept with
        | none => rw [h.kept, hkn]
        | some k => exact absurd (hkept k hkn) hne

/-! ### Whole runs -/

/-- Whether a run gets past the check of the activation. -/
def Admits (e : Engine) : Prop := e.options.autoActivate = true ∨ e.table.active = true

/-- Activates the bindings if the engine does so itself and they are not active. -/
def opened : Action Unit := fun e =>
  if e.options.autoActivate && !e.table.active then activate e else .ok () e

/-- A run of the source gets to its processor: the engine `e₁` with active bindings loads the program
`p` with the memory `m`, which leaves the engine `e₂`. -/
structure Loads (e : Engine) (src : String) (e₁ : Engine) (p : Program) (m : Memory) (hit : Bool)
    (e₂ : Engine) : Prop where
  opened_eq : opened e = .ok () e₁
  load_eq : load src e₁ = .ok (p, m, hit) e₂

theorem Loads.unique {e₁ e₂ e₁' e₂' : Engine} {hit' : Bool} {p' : Program}
    (h : Loads e src e₁ p m hit e₂) (h' : Loads e src e₁' p' m' hit' e₂') :
    e₁' = e₁ ∧ p' = p ∧ m' = m ∧ hit' = hit ∧ e₂' = e₂ := by
  have ho := h'.opened_eq.symm.trans h.opened_eq
  cases ho
  have hl := h'.load_eq.symm.trans h.load_eq
  cases hl
  exact ⟨rfl, rfl, rfl, rfl, rfl⟩

theorem withBindings_eq (f : Action α) (e : Engine) : withBindings f e =
    match opened e with
    | .ok _ e₁ => if e.options.autoActivate && !e.table.active then thenDeactivate f e₁ else f e₁
    | .error x e₁ => .error x e₁ := by
  change (if e.options.autoActivate && !e.table.active then
    (do activate; thenDeactivate f : Action α) else f) e = _
  unfold opened
  cases hc : e.options.autoActivate && !e.table.active with
  | false => rfl
  | true =>
    simp only [if_true, bind, EStateM.bind]
    cases activate e <;> rfl

theorem finalState_thenDeactivate (f : Action α) (e : Engine) :
    finalState (thenDeactivate f e) = finalState (deactivate (finalState (f e))) := by
  unfold thenDeactivate
  cases f e with
  | ok x e₁ =>
    simp only [finalState]
    cases deactivate e₁ <;> rfl
  | error x e₁ =>
    simp only [finalState]
    cases deactivate e₁ with
    | ok u e₂ => rfl
    | error d e₂ => cases d <;> rfl

theorem thenDeactivate_error {f : Action α} {x : Error} (hf : f e = .error x e') :
    ∃ y e'', thenDeactivate f e = .error y e'' := by
  unfold thenDeactivate
  rw [hf]
  simp only
  cases deactivate e' with
  | ok u e₂ => exact ⟨_, _, rfl⟩
  | error d e₂ => cases d <;> exact ⟨_, _, rfl⟩

/-- Opening the bindings keeps what activation keeps. -/
theorem Preserves.opened {P : Engine → Prop} (ha : Preserves P activate) : Preserves P opened := by
  intro e he
  unfold Engine.opened
  split
  · exact ha e he
  · exact he

/-- Closing the bindings after a computation keeps what deactivation keeps. -/
theorem finalState_withBindings {P : Engine → Prop} {f : Action α} {e₁ : Engine}
    (ho : opened e = .ok () e₁) (hd : Preserves P deactivate) (hf : P (finalState (f e₁))) :
    P (finalState (withBindings f e)) := by
  rw [withBindings_eq, ho]
  simp only
  split
  · rw [finalState_thenDeactivate]
    exact hd _ hf
  · exact hf

/-- A run fails before it has loaded anything, or it has a program with a memory. -/
theorem withBindings_perform (hb : Before e e) (hr : e.table.Reaches e.Known)
    (hkept : ∀ k, e.kept = some k → e.options.reexecute = true) (src : String)
    (patience : Patience) :
    (Before e (finalState (withBindings (perform src patience) e)) ∧
      (∃ x e', withBindings (perform src patience) e = .error x e') ∧
      ∀ e₁ p m hit e₂, ¬ Loads e src e₁ p m hit e₂) ∨
    ∃ e₁ p m hit e₂, Loads e src e₁ p m hit e₂ ∧
      During e src p hit (finalState (withBindings (perform src patience) e)) := by
  have hreach : ∀ e', Before e e' → e'.table.Reaches e.Known := fun _ h => h.reaches hr
  have hopened : Before e (finalState (opened e)) :=
    (preserves_activate hostly_before hreach).opened e hb
  cases ho : opened e with
  | error x e₁ =>
    rw [ho] at hopened
    rw [withBindings_eq, ho]
    refine .inl ⟨hopened, ⟨x, e₁, rfl⟩, fun e₁ p m hit e₂ hl => ?_⟩
    rw [hl.opened_eq] at ho
    cases ho
  | ok u e₁ =>
    rw [ho] at hopened
    change Before e e₁ at hopened
    rcases hopened.load src hkept with ⟨x, sinks, hload⟩ | ⟨p, m, hit, e₂, hload, hready⟩
    · have hperform : perform src patience e₁ = .error x { e₁ with sinks := sinks } := by
        rw [perform_eq]
        simp only [bind, EStateM.bind, hload]
      have hbefore : Before e { e₁ with sinks := sinks } :=
        ⟨⟨hopened.options, hopened.vars, hopened.funcs, hopened.names⟩, ⟨hopened.steady.sound, hopened.steady.lt,
          hopened.steady.bound, hopened.steady.suits⟩, hopened.kept,
          fun k hk => (hopened.loaded k hk).congr rfl rfl⟩
      refine .inl ⟨?_, ?_, fun e₁' p m hit e₂ hl => ?_⟩
      · refine finalState_withBindings ho (preserves_deactivate hostly_before hreach) ?_
        rw [hperform]
        exact hbefore
      · rw [withBindings_eq, ho]
        simp only
        split
        · exact thenDeactivate_error hperform
        · exact ⟨_, _, hperform⟩
      · have := hl.opened_eq.symm.trans ho
        cases this
        have := hl.load_eq.symm.trans hload
        cases this
    · refine .inr ⟨e₁, p, m, hit, e₂, ⟨ho, hload⟩, ?_⟩
      refine finalState_withBindings ho
        (preserves_deactivate hostly_during fun _ h => h.reaches hr) ?_
      have hperform : perform src patience e₁ = finish p m hit patience e₂ := by
        rw [perform_eq]
        simp only [bind, EStateM.bind, hload]
      rw [hperform]
      exact hready.finish hr patience

end Engine

end VectorMachine
