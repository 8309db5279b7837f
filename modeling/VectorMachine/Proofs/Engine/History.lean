import VectorMachine.Proofs.Engine.Pasts
import VectorMachine.Proofs.Engine.Renewal

/-!
# The history of an engine

An engine keeps the program and the memory of its last run.  A source that is run again with the same
bindings, right after a run of it that succeeded, gets them back, with the memory rewound and bound to
the current globals; every other run assembles its source and allocates a new memory, as the first run
of a new engine does.
-/

namespace VectorMachine
set_option autoImplicit false

open Binding (Table)

variable {S : String → Prop} {last : Option (String × Nat)} {e e' e₁ e₂ : Engine} {p : Program}
  {m m' : Memory} {src : String} {hit : Bool}

/-- The memory `m` is like the new memory `m'` but for its locals and registers: its own cells are as
many, all distinct and apart from the globals, its constants hold the same scalars, apart from
everything else, and all other containers and their data are the same.  The locals and registers are
not linked to other cells.  What other containers show is the same unless they are linked to these. -/
structure Memory.Resembles (s : Store) (m : Memory) (s' : Store) (m' : Memory) : Prop where
  globals : m.globals = m'.globals
  stack : m.stack = #[] ∧ m'.stack = #[]
  locals : m.locals.size = m'.locals.size
  registers : m.registers.size = m'.registers.size
  unlinked : ∀ c ∈ m.locals ++ m.registers, (s.cell c).target = none
  distinct : m.own.toList.Nodup
  apart : ∀ c ∈ m.globals, c ∉ m.own
  constants : List.Forall₂ (fun c c' => s.Isolated c ∧ s'.Isolated c' ∧
    ∃ v, s.Holds c (some v) ∧ s'.Holds c' (some v)) m.constants.toList m'.constants.toList
  others : ∀ c < s.cells.size, c ∉ m.locals ++ m.registers → s'.cell c = s.cell c
  buffers : ∀ b < s.buffers.size, s'.buffers[b]? = s.buffers[b]?
  shows : ∀ c < s.cells.size, s.root c ∉ m.locals ++ m.registers → s.Alike c s' c

namespace Engine

/-- What an engine keeps belongs to its last run if that succeeded, the source and the number of
bindings of which are `last`. -/
structure Recorded (S : String → Prop) (last : Option (String × Nat)) (e : Engine) : Prop where
  steady : Steady e.Known e
  loaded : ∀ k, e.kept = some k → Loaded e.Known e k.program k.memory
  keys : e.kept.map (·.key) = if e.options.reexecute then last.map keyOf else none
  sources : ∀ x, last = some x → S x.1
  attests : Attests S e

theorem Recorded.before (h : Recorded S last e) : Before e e :=
  ⟨⟨rfl, rfl, rfl, rfl, rfl, rfl⟩, h.steady, rfl, h.loaded⟩

theorem Recorded.reexecute (h : Recorded S last e) (k : Kept) (hk : e.kept = some k) :
    e.options.reexecute = true := by
  have := h.keys
  rw [hk] at this
  by_contra hne
  simp [hne] at this

theorem Recorded.kept_eq_none (h : Recorded S last e) (ho : e.options.reexecute = false) :
    e.kept = none := by
  have := h.keys
  rw [ho] at this
  simpa using this

/-- A kept program is found for a source iff the source was run last, with the same bindings and
success. -/
theorem Recorded.lookup (hS : Distinguishes S) (h : Recorded S last e) (hsrc : S src) :
    (∃ k, e.lookup src = some k) ↔
      e.options.reexecute = true ∧ last = some (src, e.table.version) := by
  constructor
  · rintro ⟨k, hk⟩
    obtain ⟨hkept, hkey⟩ := Option.filter_eq_some_iff.mp hk
    have hre := h.reexecute k hkept
    have hkeys := h.keys
    rw [hkept, if_pos hre] at hkeys
    obtain ⟨x, hlast, hx⟩ := Option.map_eq_some_iff.mp hkeys.symm
    obtain rfl := eq_of_keyOf hS (h.sources x hlast) hsrc (hx.trans (of_decide_eq_true hkey))
    exact ⟨hre, hlast⟩
  · rintro ⟨hre, hlast⟩
    have hkeys := h.keys
    rw [if_pos hre, hlast] at hkeys
    obtain ⟨k, hk, hkey⟩ := Option.map_eq_some_iff.mp hkeys
    exact ⟨k, Option.filter_eq_some_iff.mpr ⟨hk, decide_eq_true hkey⟩⟩

/-! ### What keeps the record -/

theorem Steady.known {known : CellId → Prop} (h : Steady known e)
    (hk : ∀ c, known c → e.Known c) : Steady e.Known e :=
  ⟨h.sound, fun _ hc => hc.1, fun c hc => hk c (h.bound c hc), h.suits⟩

theorem Loaded.known {known : CellId → Prop} {k : Kept} (h : Loaded known e k.program k.memory)
    (hk : e.kept = some k) : Loaded e.Known e k.program k.memory :=
  ⟨h.pools, h.wellFormed, h.furnished, h.fits, fun _ hc => hc.2 k hk⟩

/-- Host code keeps the record. -/
theorem Recorded.of_before (h : Recorded S last e) (hb : Before e e') : Recorded S last e' := by
  have hknown : ∀ c, e.Known c → e'.Known c := fun c hc =>
    ⟨hb.steady.lt c hc, fun k hk => hc.2 k (hb.kept ▸ hk)⟩
  refine ⟨hb.steady.known hknown, fun k hk => (hb.loaded k hk).known hk, ?_, h.sources,
    h.attests.rename hb.kept hb.names⟩
  rw [hb.kept, hb.options]
  exact h.keys

/-- So does binding more. -/
theorem Recorded.grow {t : Table} (h : Recorded S last e)
    (hbound : ∀ c ∈ t.globals, e.Known c) (hlt : e.table.version < t.version) :
    Recorded S last { e with table := t } :=
  ⟨⟨h.steady.sound, h.steady.lt, hbound, h.steady.suits⟩,
    fun k hk => (h.loaded k hk).congr rfl rfl, h.keys, h.sources, h.attests.grow rfl hlt⟩

/-- And binding variables to other containers. -/
theorem Recorded.rebind {t : Table} (h : Recorded S last e) (hbound : ∀ c ∈ t.globals, e.Known c)
    (hnames : e.table.SameNames t) : Recorded S last { e with table := t } :=
  ⟨⟨h.steady.sound, h.steady.lt, hbound, h.steady.suits⟩,
    fun k hk => (h.loaded k hk).congr rfl rfl, h.keys, h.sources, h.attests.rename rfl hnames⟩

theorem Recorded.addVariable {t : Table} {v : Binding.Variable} {i : Nat} (h : Recorded S last e)
    (hv : e.Known v.cell) (ht : e.table.addVariable v = .ok (i, t)) :
    Recorded S last { e with table := t } := by
  have hlt := Table.version_lt_addVariable ht
  unfold Table.addVariable at ht
  split at ht
  · cases ht
  · cases ht
    refine h.grow (fun c hc => ?_) hlt
    simp only [Table.globals, Array.map_push, Array.mem_push] at hc
    rcases hc with hc | rfl
    · exact h.steady.bound c hc
    · exact hv

theorem Recorded.addFunction {t : Table} {f : Binding.Function} {i : Nat} (h : Recorded S last e)
    (ht : e.table.addFunction f = .ok (i, t)) : Recorded S last { e with table := t } := by
  have hlt := Table.version_lt_addFunction ht
  unfold Table.addFunction at ht
  split at ht
  · cases ht
  · cases ht
    exact h.grow h.steady.bound hlt

theorem Recorded.set {t : Table} {name : String} {c : CellId} (h : Recorded S last e)
    (hc : e.Known c) (ht : e.table.set name c = .ok t) : Recorded S last { e with table := t } := by
  refine h.rebind (fun d hd => ?_) (Table.sameNames_set ht)
  unfold Table.set at ht
  split at ht
  · cases ht
  · cases ht
    simp only [Table.globals, Array.mem_map] at hd
    obtain ⟨v, hv, rfl⟩ := hd
    obtain ⟨j, hj⟩ := Array.getElem?_of_mem hv
    rw [Array.getElem?_modify] at hj
    split at hj
    · obtain ⟨v', -, rfl⟩ := Option.map_eq_some_iff.mp hj
      exact hc
    · exact h.steady.bound _ (Array.mem_map_of_mem (Array.mem_of_getElem? hj))

/-! ### Runs -/

theorem exec_of_admits (h : e.Admits) (src : String) (patience : Patience) :
    exec src patience e = match withBindings (perform src patience) e with
      | .ok x e => .ok x e
      | .error x e => .error x.recover { e with kept := none } := by
  have hdo : ¬ (!e.options.autoActivate && !e.table.active) = true := by
    rcases h with h | h <;> simp [h]
  unfold exec
  exact if_neg hdo

theorem exec_of_not_admits (h : ¬ e.Admits) (src : String) (patience : Patience) :
    exec src patience e = .error .notActivated e := by
  have hdo : (!e.options.autoActivate && !e.table.active) = true := by
    simpa [Admits] using h
  unfold exec
  exact if_pos hdo

/-- Bindings that are opened may only have been changed by host code. -/
theorem Recorded.opened (h : Recorded S last e) (hr : e.table.Reaches e.Known)
    (ho : opened e = .ok () e₁) : Before e e₁ := by
  have hb : Before e (finalState (Engine.opened e)) :=
    (preserves_activate hostly_before fun _ h => h.reaches hr).opened e h.before
  rwa [ho] at hb

/-- A kept memory that is used again resembles a new one. -/
theorem Loaded.resembles {known : CellId → Prop} {s s' : Store} (h : Loaded known e p m)
    (hs : Steady known e) (hglobals : m.globals = e.table.globals) (hstack : m.stack = #[])
    (hstore : e.world.store = (m.locals ++ m.registers).toList.foldl Store.unlink s)
    (hsound : s.Sound) (hlt : ∀ c ∈ e.table.globals, c < s.cells.size)
    (ha : Memory.allocate s p.layout e.table.globals = .ok (m', s')) :
    Memory.Resembles e.world.store m s' m' := by
  have halloc := Memory.allocated hsound ha
  have hunlinked : ∀ c ∈ m.locals ++ m.registers, (e.world.store.cell c).target = none := by
    intro c hc
    rw [hstore]
    exact Store.target_unlinkAll (.inl (by simpa using hc))
  have hsize : e.world.store.cells.size = s.cells.size := by rw [hstore, Store.size_unlinkAll]
  have hothers : ∀ c < e.world.store.cells.size, c ∉ m.locals ++ m.registers →
      s'.cell c = e.world.store.cell c := by
    intro c hlt hc
    rw [halloc.adds.touches.cell_eq (Nat.not_le.mpr (hsize ▸ hlt)), hstore,
      Store.cell_unlinkAll (by simpa using hc)]
  have hbuffers : ∀ b < e.world.store.buffers.size,
      s'.buffers[b]? = e.world.store.buffers[b]? := by
    rw [hstore, Store.buffers_unlinkAll]
    intro b hb
    refine halloc.adds.touches.buffer_eq hb fun c hc => ?_
    rw [Store.cell_of_le hc]
    nofun
  have hnew : ({ world := ⟨s', #[]⟩, memory := m' } : Machine).Pools p :=
    Machine.pools_of_allocated hsound halloc hlt
  refine ⟨hglobals.trans halloc.globals_eq.symm, ⟨hstack, halloc.stack_eq⟩,
    by rw [h.furnished.locals, halloc.locals_eq, Memory.size_consecutive],
    by rw [h.furnished.registers, halloc.registers_eq, Memory.size_consecutive], hunlinked,
    h.furnished.distinct, fun c hc => h.unknown c (hs.bound c (hglobals ▸ hc)), ?_, hothers,
    hbuffers, fun c hlt hr => hs.sound.alike_of_cells_eq hothers hbuffers hunlinked hlt hr⟩
  -- each pair of constants holds what one immediate stands for
  have hlen := h.pools.values.length_eq
  have hlen' := hnew.values.length_eq
  rw [List.forall₂_iff_get]
  refine ⟨hlen.trans hlen'.symm, fun i hi hi' => ?_⟩
  obtain ⟨v, hv, hold⟩ := h.pools.values.get hi (hlen ▸ hi)
  obtain ⟨v', hv', hold'⟩ := hnew.values.get hi' (hlen' ▸ hi')
  obtain rfl : v = v' := Except.ok.inj (hv.symm.trans hv')
  exact ⟨h.pools.isolated _ (Array.mem_toList_iff.mp (List.get_mem _ _)),
    hnew.isolated _ (Array.mem_toList_iff.mp (List.get_mem _ _)), v, hold, hold'⟩

/-- What memory a run gets to its processor. -/
theorem Recorded.loads (hS : Distinguishes S) (h : Recorded S last e) (hsrc : S src)
    (hr : e.table.Reaches e.Known) (hl : Loads e src e₁ p m hit e₂) :
    (hit = true ↔ e.options.reexecute = true ∧ last = some (src, e.table.version)) ∧
    ∃ m' s, Memory.allocate e₁.world.store p.layout e.table.globals = .ok (m', s) ∧
      if hit then Memory.Resembles e₂.world.store m s m' else m = m' ∧ e₂.world.store = s := by
  have hb := h.opened hr hl.opened_eq
  have hload := hl.load_eq
  rw [← h.lookup hS hsrc, ← hb.globals]
  have hlookup := lookup_of_before hb src
  cases hk : e₁.lookup src with
  | some k =>
    rw [load_of_some hk] at hload
    cases hload
    rw [hlookup] at hk
    obtain ⟨hloaded, hsteady⟩ := hb.loaded_hit (hlookup.trans hk)
    obtain ⟨s, globals, r, hagain⟩ := hloaded.furnished.allocatable
    obtain ⟨m', s', ha⟩ := Memory.allocate_again hagain e₁.world.store e₁.table.globals
    refine ⟨⟨fun _ => ⟨k, hk⟩, fun _ => rfl⟩, m', s', ha, ?_⟩
    rw [if_pos rfl]
    refine hloaded.resembles hsteady rfl rfl ?_ hb.steady.sound
      (fun c hc => (hb.steady.globals_lt c hc).2) ha
    simp only [Memory.rewind, Memory.bindGlobals, ← Array.foldl_toList]
  | none =>
    rw [load_of_none hk] at hload
    rw [hlookup] at hk
    rcases build_cases src e₁ with ⟨x, sinks, hx⟩ | ⟨p', m', s, sinks, -, ha, hx⟩
    · rw [hx] at hload
      cases hload
    · rw [hx] at hload
      cases hload
      have hmiss : ¬ ∃ k, e.lookup src = some k := by simp [hk]
      exact ⟨⟨fun hf => absurd hf Bool.false_ne_true, fun hk => absurd hk hmiss⟩, m, s, ha,
        ⟨rfl, rfl⟩⟩

theorem Recorded.forgotten (hs : e.world.store.Sound)
    (hbound : ∀ c ∈ e.table.globals, c < e.world.store.cells.size)
    (hsuits : e.processor.Suits e.options) (hk : e.kept = none) : Recorded S none e := by
  have hnone : ∀ k, e.kept ≠ some k := fun k => by simp [hk]
  exact ⟨⟨hs, fun _ hc => hc.1, fun c hc => ⟨hbound c hc, fun k hk => absurd hk (hnone k)⟩, hsuits⟩,
    fun k hk => absurd hk (hnone k), by simp [hk], nofun, attests_of_kept_eq_none hk⟩

/-- The source and the number of bindings of the last run that was admitted, if it succeeded. -/
def lastRun (src : String) (patience : Patience) (last : Option (String × Nat)) (e : Engine) :
    Option (String × Nat) :=
  if e.options.autoActivate || e.table.active then
    match exec src patience e with
    | .ok _ _ => some (src, e.table.version)
    | .error _ _ => none
  else last

/-- A run that succeeds is recorded. -/
theorem During.recorded (h : During e src p hit e') (hattests : Attests S e') (hsrc : S src) :
    Recorded S (some (src, e.table.version)) e' := by
  obtain ⟨m, hloaded, hkept⟩ := h.loaded
  have hk : ∀ k, e'.kept = some k → k = ⟨e.key src, p, m⟩ := by
    intro k hk
    rw [hkept] at hk
    split at hk <;> cases hk
    rfl
  have hknown : ∀ c, e.Known c → e'.Known c := fun c hc =>
    ⟨h.steady.lt c hc, fun k hk' => hk k hk' ▸ hloaded.unknown c hc⟩
  refine ⟨h.steady.known hknown, fun k hk' => ?_, ?_, ?_, hattests⟩
  · have hloaded' : Loaded e.Known e' k.program k.memory := by
      rw [hk k hk']
      exact hloaded
    exact hloaded'.known hk'
  · rw [hkept, h.options]
    split <;> rfl
  · rintro _ ⟨⟩
    exact hsrc

theorem Recorded.exec (h : Recorded S last e) (hsrc : S src)
    (hr : e.table.Reaches e.Known) (patience : Patience) :
    Recorded S (lastRun src patience last e) (finalState (exec src patience e)) := by
  have hattests := attests_exec hsrc patience e h.attests
  unfold lastRun
  by_cases hadmits : e.Admits
  · have hdo : (e.options.autoActivate || e.table.active) = true := by
      simpa [Admits] using hadmits
    rw [exec_of_admits hadmits] at hattests
    rw [if_pos hdo, exec_of_admits hadmits]
    have hfail : ∀ e', Steady e.Known e' → Recorded S none { e' with kept := none } :=
      fun e' hs => .forgotten hs.sound (fun c hc => hs.lt c (hs.bound c hc)) hs.suits rfl
    rcases withBindings_perform h.before hr h.reexecute src patience with
      ⟨hb, ⟨x, e', hx⟩, -⟩ | ⟨e₁, p, m, hit, e₂, hl, hd⟩
    · rw [hx] at hb ⊢
      exact hfail e' hb.steady
    · cases hx : withBindings (perform src patience) e with
      | error x e' =>
        rw [hx] at hd
        exact hfail e' hd.steady
      | ok x e' =>
        rw [hx] at hd hattests
        exact During.recorded hd hattests hsrc
  · have hdo : ¬ (e.options.autoActivate || e.table.active) = true := by
      simpa [Admits] using hadmits
    rw [if_neg hdo, exec_of_not_admits hadmits]
    exact h

/-! ### Histories -/

/-- A new engine, with variables that are bound to containers which are there. -/
structure New (e : Engine) : Prop where
  kept : e.kept = none
  processor : e.processor = e.options.processor
  sound : e.world.store.Sound
  bound : ∀ c ∈ e.table.globals, c < e.world.store.cells.size

theorem New.recorded (h : e.New) : Recorded S none e :=
  .forgotten h.sound h.bound (h.processor ▸ Processor.suits_processor _) h.kept

/-- What an engine goes through that runs sources from `S`, with the source and the number of bindings
of its last run that was admitted, if that succeeded.  Code of the host, in between or called by a run,
touches only containers that it knows or is handed, and binds variables to such containers only. -/
inductive History (S : String → Prop) : Engine → Option (String × Nat) → Prop
  | new {e : Engine} : e.New → History S e none
  | exec {e : Engine} {last : Option (String × Nat)} {src : String} (patience : Patience) :
      History S e last → S src → e.table.Reaches e.Known →
      History S (finalState (exec src patience e)) (lastRun src patience last e)
  | addVariable {e : Engine} {last : Option (String × Nat)} {v : Binding.Variable} {i : Nat}
      {t : Table} : History S e last → e.Known v.cell → e.table.addVariable v = .ok (i, t) →
      History S { e with table := t } last
  | addFunction {e : Engine} {last : Option (String × Nat)} {f : Binding.Function} {i : Nat}
      {t : Table} : History S e last → e.table.addFunction f = .ok (i, t) →
      History S { e with table := t } last
  | set {e : Engine} {last : Option (String × Nat)} {name : String} {c : CellId} {t : Table} :
      History S e last → e.Known c → e.table.set name c = .ok t →
      History S { e with table := t } last
  | host {e : Engine} {last : Option (String × Nat)} {w : World} :
      History S e last → HostMoves e.Known e.world w → History S { e with world := w } last
  | activate {e : Engine} {last : Option (String × Nat)} :
      History S e last → e.table.Reaches e.Known → History S (finalState (activate e)) last
  | deactivate {e : Engine} {last : Option (String × Nat)} :
      History S e last → e.table.Reaches e.Known → History S (finalState (deactivate e)) last

theorem History.recorded (h : History S e last) : Recorded S last e := by
  induction h with
  | new hnew => exact hnew.recorded
  | exec patience _ hsrc hr ih => exact ih.exec hsrc hr patience
  | addVariable _ hv ht ih => exact ih.addVariable hv ht
  | addFunction _ ht ih => exact ih.addFunction ht
  | set _ hc ht ih => exact ih.set hc ht
  | host _ hw ih => exact ih.of_before (ih.before.host hw)
  | activate _ hr ih =>
    exact ih.of_before (preserves_activate hostly_before (fun _ h => h.reaches hr) _ ih.before)
  | deactivate _ hr ih =>
    exact ih.of_before (preserves_deactivate hostly_before (fun _ h => h.reaches hr) _ ih.before)

theorem Loads.cacheHit (h : Recorded S last e) (hr : e.table.Reaches e.Known) (hadmits : e.Admits)
    (hl : Loads e src e₁ p m hit e₂) (patience : Patience) :
    (finalState (Engine.exec src patience e)).stats.cacheHit = hit := by
  rcases withBindings_perform h.before hr h.reexecute src patience with
    ⟨-, -, hno⟩ | ⟨e₁', p', m', hit', e₂', hl', hd⟩
  · exact absurd hl (hno _ _ _ _ _)
  · obtain ⟨-, -, -, rfl, -⟩ := hl.unique hl'
    rw [exec_of_admits hadmits, ← hd.cacheHit]
    cases withBindings (perform src patience) e <;> rfl

/-- Whatever an engine has gone through, a run that gets to its processor runs what its source
assembles to with the current bindings, on a new memory or, if the same source was run last with the
same bindings and success, on one that resembles a new memory; its counts tell which.  A run that
reuses nothing is as on a new engine. -/
theorem History.independent (hS : Distinguishes S) (h : History S e last) (hsrc : S src)
    (hadmits : e.Admits) (hr : e.table.Reaches e.Known) (patience : Patience) :
    (∀ e₁ p m hit e₂, Loads e src e₁ p m hit e₂ →
      perform src patience e₁ = finish p m hit patience e₂ ∧
      Assembler.assemble src e.table.symbols = .ok p ∧
      (hit = true ↔ e.options.reexecute = true ∧ last = some (src, e.table.version)) ∧
      (finalState (Engine.exec src patience e)).stats.cacheHit = hit ∧
      ∃ m' s, Memory.allocate e₁.world.store p.layout e.table.globals = .ok (m', s) ∧
        if hit then Memory.Resembles e₂.world.store m s m' else m = m' ∧ e₂.world.store = s) ∧
    (¬ (e.options.reexecute = true ∧ last = some (src, e.table.version)) →
      SameOutcome Serves (fun x y => Fails e.stats {} x y ∧ x.kept = none ∧ y.kept = none)
        (Engine.exec src patience e) (Engine.exec src patience e.renewed)) := by
  have hrec := h.recorded
  refine ⟨fun e₁ p m hit e₂ hl => ?_, fun hmiss => ?_⟩
  · obtain ⟨hhit, hmem⟩ := hrec.loads hS hsrc hr hl
    refine ⟨?_, hrec.attests.assembled hS hsrc hl, hhit, Loads.cacheHit hrec hr hadmits hl patience,
      hmem⟩
    rw [perform_eq]
    simp only [bind, EStateM.bind, hl.load_eq]
  · refine exec_renewed hadmits hrec.steady.suits hrec.kept_eq_none ?_ patience
    cases hk : e.lookup src with
    | none => rfl
    | some k => exact absurd ((hrec.lookup hS hsrc).mp ⟨k, hk⟩) hmiss

/-- An engine with active bindings, of which there are none, that has run a source. -/
def adding : Engine :=
  finalState (Engine.exec "ADD int R0 ~int:1 ~int:2; END int - R0;" { polls := 64 }
    { options := { autoActivate := false }, table := { active := true } })

theorem reaches_of_empty {t : Table} {known : CellId → Prop} (hv : t.vars.size = 0)
    (hf : t.funcs.size = 0) : t.Reaches known := by
  have hv' := Array.eq_empty_of_size_eq_zero hv
  have hf' := Array.eq_empty_of_size_eq_zero hf
  exact ⟨by simp [hf'], by simp [Table.hooks, hv', hf'], by simp [hv']⟩

/-- The second run of a source gets the program and the memory of the first. -/
theorem History.independent_adding :
    let src := "ADD int R0 ~int:1 ~int:2; END int - R0;"
    History (· = src) adding (some (src, 0)) ∧
    ∃ e₁ p m e₂ m' s, Loads adding src e₁ p m true e₂ ∧
      Assembler.assemble src adding.table.symbols = .ok p ∧
      (finalState (Engine.exec src { polls := 64 } adding)).stats.cacheHit = true ∧
      Memory.allocate e₁.world.store p.layout adding.table.globals = .ok (m', s) ∧
      Memory.Resembles e₂.world.store m s m' := by
  intro src
  have hS : Distinguishes (· = src) := fun a b ha hb _ => ha.trans hb.symm
  have hnew : History (· = src) { options := { autoActivate := false }, table := { active := true } }
      none := .new ⟨rfl, rfl, Store.sound_empty, by simp [Table.globals]⟩
  have hrun : lastRun src { polls := 64 } none
      { options := { autoActivate := false }, table := { active := true } } = some (src, 0) := by
    decide +kernel
  have h : History (· = src) adding (some (src, 0)) := by
    rw [← hrun]
    exact hnew.exec { polls := 64 } rfl (reaches_of_empty rfl rfl)
  have hoptions : adding.options = { autoActivate := false } := by decide +kernel
  have hversion : adding.table.version = 0 := by decide +kernel
  have hreaches : adding.table.Reaches adding.Known :=
    reaches_of_empty (by decide +kernel) (by decide +kernel)
  have hadmits : adding.Admits := .inr (by decide +kernel)
  have hlast : some (src, 0) = some (src, adding.table.version) := by rw [hversion]
  obtain ⟨k, hk⟩ := (h.recorded.lookup hS rfl).mpr ⟨by rw [hoptions], hlast⟩
  have hopened : opened adding = .ok () adding := by
    unfold opened
    rw [hoptions]
    rfl
  have hloads : Loads adding src adding k.program _ true _ := ⟨hopened, load_of_some hk⟩
  obtain ⟨-, hp, -, hcount, m', s, ha, hm⟩ :=
    (h.independent hS rfl hadmits hreaches { polls := 64 }).1 _ _ _ _ _ hloads
  exact ⟨h, _, _, _, _, m', s, hloads, hp, hcount, ha, hm⟩

/-- What a run gets to its processor, with the engine before and after loading. -/
structure Loading where
  before : Engine
  program : Program
  memory : Memory
  hit : Bool
  after : Engine

def loading? (e : Engine) (src : String) : Option Loading :=
  (success? (opened e)).bind fun x => (success? (load src x.2)).map fun y =>
    ⟨x.2, y.1.1, y.1.2.1, y.1.2.2, y.2⟩

theorem loading?_eq_some_iff {r : Loading} : loading? e src = some r ↔
    Loads e src r.before r.program r.memory r.hit r.after := by
  constructor
  · intro h
    obtain ⟨x, hx, h⟩ := Option.bind_eq_some_iff.mp h
    obtain ⟨y, hy, rfl⟩ := Option.map_eq_some_iff.mp h
    exact ⟨eq_ok_of_success hx, eq_ok_of_success hy⟩
  · intro h
    simp [loading?, h.opened_eq, h.load_eq, success?]

/-- A program that links its first global to a local, and the local to the second global. -/
def relinkingText : String :=
  "MOV int L1 G0; MOV int L0 ~int:9; REF int G0 L0; REF int L0 G1; END int - L1;"

/-- An engine that has run it once, with variables that held 5 and 7. -/
def relinked : Engine :=
  finalState (Engine.exec relinkingText { polls := 64 }
    { table := { vars := #[{ name := "g", cell := 0 }, { name := "h", cell := 1 }],
                 varIndex := [("g", 0), ("h", 1)], version := 2 },
      world := { store := ((({} : Store).ofScalar (.int 5)).2.ofScalar (.int 7)).2 } })

/-- A program that writes to its global and returns a constant. -/
def overwritingText : String := "MOV int G0 ~int:2; END int - ~int:1;"

def overwriting : Engine :=
  { table := { vars := #[{ name := "x", cell := 0 }], varIndex := [("x", 0)], version := 1 },
    world := { store := (({} : Store).ofScalar (.int 5)).2 } }

/-- The next run of the first program finds its first global linked to the rewound local, and with a
new memory it would find it linked to the second global.  If the variable of the other program is bound
to the container that a run of it returns, the second run from then on finds another number in the
constant. -/
theorem kept_memory_differs :
    (∃ e₁ p m e₂ m' s, Loads relinked relinkingText e₁ p m true e₂ ∧
      Memory.allocate e₁.world.store p.layout relinked.table.globals = .ok (m', s) ∧
      m.cell? ⟨.globals, 0⟩ = some 0 ∧ m'.cell? ⟨.globals, 0⟩ = some 0 ∧
      (e₂.world.store.int 0).toOption = some 9 ∧ (s.int 0).toOption = some 7) ∧
    ∃ c e t e₁ p m e₂,
      Engine.exec overwritingText { polls := 64 } overwriting = .ok (some c) e ∧
      e.table.set "x" c = .ok t ∧
      Loads (finalState (Engine.exec overwritingText { polls := 64 } { e with table := t }))
        overwritingText e₁ p m true e₂ ∧
      p.immediates[1]? = some "~int:1" ∧ m.cell? ⟨.constants, 1⟩ = some c ∧
      (e₂.world.store.int c).toOption = some 2 := by
  constructor
  · have hx : (loading? relinked relinkingText).any (fun r =>
        r.hit && (Memory.allocate r.before.world.store r.program.layout
          relinked.table.globals).toOption.any fun new =>
            r.memory.cell? ⟨.globals, 0⟩ = some 0 ∧ new.1.cell? ⟨.globals, 0⟩ = some 0 ∧
              (r.after.world.store.int 0).toOption = some 9 ∧
              (new.2.int 0).toOption = some 7) = true := by
      decide +kernel
    obtain ⟨r, hr, hP⟩ := (Option.any_eq_true _ _).mp hx
    obtain ⟨hhit, hQ⟩ := (Bool.and_eq_true _ _).mp hP
    obtain ⟨new, hnew, hR⟩ := (Option.any_eq_true _ _).mp hQ
    exact ⟨r.before, r.program, r.memory, r.after, new.1, new.2, hhit ▸ loading?_eq_some_iff.mp hr,
      eq_ok_of_toOption hnew, of_decide_eq_true hR⟩
  · have hx : (success? (Engine.exec overwritingText { polls := 64 } overwriting)).any (fun x =>
        x.1.any fun c => (x.2.table.set "x" c).toOption.any fun t =>
          (loading? (finalState (Engine.exec overwritingText { polls := 64 }
            { x.2 with table := t })) overwritingText).any fun r =>
              r.hit && decide (r.program.immediates[1]? = some "~int:1" ∧
                r.memory.cell? ⟨.constants, 1⟩ = some c ∧
                (r.after.world.store.int c).toOption = some 2)) = true := by
      decide +kernel
    obtain ⟨result, e, hexec, hP⟩ := exists_ok hx
    obtain ⟨c, hc, hQ⟩ := (Option.any_eq_true _ _).mp hP
    obtain ⟨t, ht, hR⟩ := (Option.any_eq_true _ _).mp hQ
    obtain ⟨r, hr, hS⟩ := (Option.any_eq_true _ _).mp hR
    obtain ⟨hhit, hT⟩ := (Bool.and_eq_true _ _).mp hS
    exact ⟨c, e, t, r.before, r.program, r.memory, r.after, hc ▸ hexec, eq_ok_of_toOption ht,
      hhit ▸ loading?_eq_some_iff.mp hr, of_decide_eq_true hT⟩

end Engine

end VectorMachine
