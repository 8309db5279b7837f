import VectorMachine.Proofs.Engine.Partners

/-!
# Partners run alike

Partners load the same program for a source, one with a new memory and the other with a new one or
with the one that it has kept.  The program runs alike on both if the memory that was kept is spare and
the run assigns what it holds before it looks at it.
-/

namespace VectorMachine
set_option autoImplicit false

open Store (Pairing Matches)

namespace Engine

variable {base : Nat} {R : Pairing} {x y x' y' x₀ y₀ e e' : Engine} {p : Program} {m m' : Memory}
  {src : String} {patience : Patience}

/-- Partners with memories on which one program runs alike. -/
structure Primed (base : Nat) (patience : Patience) (p : Program) (m m' : Memory) (x y : Engine) :
    Prop extends Partners base nowhere x y where
  poised : Poised base x p m
  poised' : Poised base y p m'
  tunable : Tunable base x p m
  tunable' : Tunable base y p m'
  suits : x.processor.Suits x.options
  suits' : y.processor.Suits y.options
  plain : y.options.accelerate = true → p.Plain y.options.scalarCache y.table.globals.size
  kept : ∀ k, y.kept = some k → k.program = p
  alike : ∃ (k : Ledger) (R : Pairing), (∀ c < base, R c c) ∧ k.Working ∧
    Machine.Dusty k R (machineOf x m) (machineOf y m') ∧
      (machineOf y m').assignsFirst ⟨p, some y.table.link⟩ p.result
        (pollInterval * patience.polls) k 0 = true

theorem Poised.congr (h : Poised base e p m) (hw : e'.world = e.world)
    (hp : e'.processor = e.processor) (ht : e'.table = e.table) : Poised base e' p m :=
  ⟨h.loaded.congr hw hp, hw ▸ h.base_le, ht ▸ h.globals, ht ▸ h.bound, h.stack,
    hw ▸ h.isolated⟩

theorem Tunable.congr (h : Tunable base e p m) (hw : e'.world = e.world)
    (hp : e'.processor = e.processor) (ho : e'.options = e.options) : Tunable base e' p m := by
  rcases h with h | h
  · exact .inl (h.congr hw hp ho)
  · refine .inr fun haccelerate => ?_
    rw [ho] at haccelerate
    obtain ⟨l, width, hf, hproc, hm, hs⟩ := h haccelerate
    exact ⟨l, width, hf.congr hw ho, by rw [hp, ho, hproc], hm, by rw [hw, hs]⟩

theorem Primed.traced (h : Primed base patience p m m' x y) (stats stats' : RunStats)
    (trace trace' : Log.Trace) :
    Primed base patience p m m' { x with stats := stats, trace := trace }
      { y with stats := stats', trace := trace' } :=
  ⟨⟨h.options, h.table, h.sinks, h.sinks', h.fair, h.worlds⟩, h.poised.congr rfl rfl rfl,
    h.poised'.congr rfl rfl rfl, h.tunable.congr rfl rfl rfl, h.tunable'.congr rfl rfl rfl, h.suits,
    h.suits', h.plain, h.kept, h.alike⟩

theorem Attuned.traced (h : Attuned base R x y) (stats stats' : RunStats)
    (trace trace' : Log.Trace) :
    Attuned base R { x with stats := stats, trace := trace }
      { y with stats := stats', trace := trace' } :=
  ⟨⟨h.options, h.table, h.sinks, h.sinks', h.fair, h.worlds⟩,
    fun k hk => (h.tuned k hk).congr rfl rfl rfl⟩

/-! ### Processing -/

theorem rel_comp {R R' : Pairing} {a b c : Option CellId} (h : Option.Rel R a b)
    (h' : Option.Rel R' b c) : Option.Rel (fun c c' => ∃ b, R c b ∧ R' b c') a c := by
  cases h with
  | none =>
    cases h'
    exact .none
  | some h =>
    cases h' with
    | some h' => exact .some ⟨_, h, h'⟩

/-- Memories after runs that came to the same end: they are of the same sizes, and both have what the
program gives, which shows the same, or both do not. -/
structure Agreed (R : Pairing) (p : Program) (m m' : Memory) : Prop where
  sizes : ∀ {part : Partition}, part ≠ .stack →
    (m.cells? part).map Array.size = (m'.cells? part).map Array.size
  result : p.result.part = .absent ∨
    p.result.part ≠ .stack ∧ Option.Rel R (m.cell? p.result) (m'.cell? p.result)

/-- Runs that echo runs of the machine that come to the same end come to the same end. -/
theorem exists_mates {i r i' r' : RunResult} {k : Ledger} (h : i.Echoes base r)
    (h' : i'.Echoes base r') (hR : ∀ c < base, R c c)
    (ht : Machine.Tied False (Machine.Known k) R i.machine i'.machine)
    (hknows : p.Knows p.result) (hresult : i'.outcome = .ok () → k p.result = .data) :
    ∃ R', World.Mates base R' r.world r'.world ∧
      (i'.outcome = .ok () → Agreed R' p r.memory r'.memory) := by
  obtain ⟨-, hsizes, R₁, hw₁, hcells⟩ := h
  obtain ⟨-, hsizes', R₂, hw₂, hcells'⟩ := h'
  have hw := (hw₁.store.symm.trans ht.store).trans hw₂.store
  refine ⟨_, ⟨hw, hw₁.journal.symm.trans (ht.journal.trans hw₂.journal), fun c hc =>
    ⟨c, ⟨c, hw₁.host c hc, hR c hc⟩, hw₂.host c hc⟩⟩, fun hok => ⟨fun hpart =>
      (hsizes hpart).symm.trans ((ht.sizes hpart).trans (hsizes' hpart)), ?_⟩⟩
  rcases Machine.known_of_knows hknows (hresult hok) with habs | hknown
  · exact .inl habs
  · have hplaced : Launch.Placed p.result := hknown.1
    refine .inr ⟨ht.off_stack hknown, ?_⟩
    exact rel_comp (rel_comp (Store.rel_symm (hcells hplaced)) (ht.cells hknown)) (hcells' hplaced)

theorem Primed.process (h : Primed base patience p m m' x y) :
    Jointly (fun n n' x' y' => ∃ R, Attuned base R x' y' ∧ Agreed R p n n') (Partners base nowhere)
      (process p m patience x) (process p m' patience y) := by
  obtain ⟨k, R, hR, hw, hdusty, hfirst⟩ := h.alike
  have hfair : x.table.Fair base := h.table ▸ h.fair
  have hplain : x.options.accelerate = true → p.Plain x.options.scalarCache m.globals.size := by
    rw [h.options, h.poised.globals, h.table]
    exact h.plain
  have hplain' : y.options.accelerate = true → p.Plain y.options.scalarCache m'.globals.size := by
    rw [h.poised'.globals]
    exact h.plain
  obtain ⟨hecho, -⟩ := h.poised.echoes h.suits h.tunable hfair hplain patience {}
  obtain ⟨hecho', htuned⟩ := h.poised'.echoes h.suits' h.tunable' h.fair hplain' patience {}
  have hconf : ∀ link, some y.table.link = some link → link.Confined := by
    rintro _ ⟨⟩
    exact h.fair.confined
  have hresp : ∀ link, some y.table.link = some link → link.Respects False := by
    rintro _ ⟨⟩
    exact h.fair.respects False
  obtain ⟨houtcome, k', R', hle, ht, hresult⟩ :=
    @Machine.Dusty.interpret _ _ _ _ _ k ⟨p, some y.table.link⟩ _ patience hdusty hw
      h.poised.loaded.wellFormed hconf hresp hfirst {} {}
  rw [h.table] at hecho
  obtain ⟨R'', hmates, hagreed⟩ := exists_mates hecho hecho' (fun c hc => hle c c (hR c hc)) ht
    h.poised.loaded.wellFormed.knows_result hresult
  have hout := hecho.outcome.symm.trans (houtcome.trans hecho'.outcome)
  have hout' := hecho'.outcome
  unfold Engine.process
  simp only [h.table]
  generalize x.processor.process ⟨p, some y.table.link⟩ patience x.world m x.trace = r at *
  generalize y.processor.process ⟨p, some y.table.link⟩ patience y.world m' y.trace = r' at *
  have hpartners : ∀ {R : Pairing} {a b : Engine}, World.Mated base R a.world b.world →
      a.options = x.options → a.table = y.table → a.sinks = x.sinks →
      b.options = y.options → b.table = y.table → b.sinks = y.sinks → Partners base R a b := by
    intro R a b hw ho ht hs ho' ht' hs'
    refine ⟨by rw [ho, ho', h.options], ht.trans ht'.symm, ?_, ?_, ?_, hw⟩
    · rw [hs]
      exact h.sinks
    · rw [hs']
      exact h.sinks'
    · rw [ht']
      exact h.fair
  rw [hout]
  cases hr : r'.1.outcome with
  | ok u =>
    refine ⟨R'', ⟨hpartners hmates.mated rfl rfl rfl rfl rfl rfl, fun k hk => ?_⟩,
      hagreed (hout'.trans hr)⟩
    obtain ⟨k₀, hk₀, rfl⟩ := Option.map_eq_some_iff.mp hk
    obtain rfl := h.kept k₀ hk₀
    exact htuned _ rfl rfl rfl
  | error s =>
    exact ⟨rfl, hpartners (hmates.mated.mono fun _ _ => False.elim) rfl rfl rfl rfl rfl rfl⟩

/-! ### Results -/

theorem cellAt_agreed {n n' : Memory} (h : Agreed R p n n') (hp : p.result.isAbsent = false)
    (hxy : Attuned base R x y) :
    Jointly (fun c c' x' y' => R c c' ∧ Attuned base R x' y') (Partners base R)
      (cellAt n p.result x) (cellAt n' p.result y) := by
  have habs : p.result.part ≠ .absent := by
    intro habs
    rw [Operand.isAbsent, habs] at hp
    cases hp
  obtain ⟨hstack, hrel⟩ := h.result.resolve_left habs
  unfold cellAt
  have hfetch := @Machine.fetch_cases (machineOf x n) (machineOf y n') _ (h.sizes hstack) habs
  rcases hfetch with ⟨c, c', hc, hc'⟩ | ⟨a, ha, ha'⟩
  · rw [(Memory.get_eq_ok_iff habs).mpr ⟨hc, rfl⟩, (Memory.get_eq_ok_iff habs).mpr ⟨hc', rfl⟩]
    change n.cell? p.result = some c at hc
    change n'.cell? p.result = some c' at hc'
    rw [hc, hc'] at hrel
    cases hrel with
    | some hR => exact ⟨hR, hxy⟩
  · have hget : ∀ {n : Machine}, Machine.fetch p.result n = .error a n →
        n.memory.get n.world.store p.result = .error a := by
      intro n hf
      rw [Machine.fetch_eq_get habs] at hf
      cases hg : n.memory.get n.world.store p.result with
      | ok c =>
        rw [hg] at hf
        cases hf
      | error b =>
        rw [hg] at hf
        cases hf
        rfl
    rw [show n.get x.world.store p.result = .error a from hget ha,
      show n'.get y.world.store p.result = .error a from hget ha']
    exact ⟨rfl, hxy.toPartners⟩

/-- What a run does once its program has been processed. -/
def conclude (p : Program) (m : Memory) : Action (Option CellId) := do
  note ("ran " ++ toString (← get).stats.counts.steps ++ " steps")
  onWorld (← get).table.writeBack
  if p.result.isAbsent then return none
  else return some (← cellAt m p.result)

theorem conclude_eq (p : Program) (m : Memory) (e : Engine) : conclude p m e =
    ((do onWorld (← get).table.writeBack : Action Unit) >>= fun _ =>
      if p.result.isAbsent then return none else return some (← cellAt m p.result)) { e with
        trace := (e.trace.add 0 "#" ("ran " ++ toString e.stats.counts.steps ++ " steps")).2 } :=
  rfl

theorem finish_eq (p : Program) (m : Memory) (hit : Bool) (patience : Patience) (e : Engine) :
    finish p m hit patience e = (process p m patience >>= conclude p) { e with
      stats := { cacheHit := hit, runs := e.stats.runs + 1 }
      trace := (e.trace.add 0 "#" ("run " ++ toString (e.stats.runs + 1) ++ " cache hit:" ++
        toString hit)).2 } := rfl

theorem conclude_agreed {n n' : Memory} (h : Agreed R p n n') (hxy : Attuned base R x y) :
    Jointly (fun a a' x' y' => Option.Rel R a a' ∧ Attuned base R x' y') (Partners base R)
      (conclude p n x) (conclude p n' y) := by
  rw [conclude_eq, conclude_eq]
  have hback := couples_writeBack_attuned _ _ (hxy.traced x.stats y.stats
    (x.trace.add 0 "#" ("ran " ++ toString x.stats.counts.steps ++ " steps")).2
    (y.trace.add 0 "#" ("ran " ++ toString y.stats.counts.steps ++ " steps")).2)
  refine hback.jointly.bind fun u u' x y hxy => ?_
  obtain ⟨-, hxy⟩ := hxy
  split
  · exact ⟨.none, hxy⟩
  · rename_i hp
    refine (cellAt_agreed h (by simpa using hp) hxy).bind fun c c' x' y' hc => ?_
    exact ⟨.some hc.1, hc.2⟩

/-- Partners that are primed give results that show the same, or fail alike. -/
theorem Primed.finish (h : Primed base patience p m m' x y) (hit hit' : Bool) :
    Jointly (Shows base) (Partners base nowhere) (finish p m hit patience x)
      (finish p m' hit' patience y) := by
  rw [finish_eq, finish_eq]
  refine (h.traced _ _ _ _).process.bind fun n n' x' y' hn => ?_
  obtain ⟨R, hxy, hagreed⟩ := hn
  exact (conclude_agreed hagreed hxy).imp (fun _ _ _ _ h => ⟨R, h⟩)
    fun _ _ h => h.mono fun _ _ => False.elim

/-! ### Loading -/

theorem Loaded.below {known : CellId → Prop} (h : Loaded known e p m) (hk : ∀ c < base, known c) :
    Loaded (· < base) e p m :=
  ⟨h.pools, h.wellFormed, h.furnished, h.fits, fun c hc => h.unknown c (hk c hc)⟩

/-- The engine once it has rewound the memory that it keeps. -/
abbrev reused (k : Kept) (e : Engine) : Engine :=
  { e with world.store := (k.memory.rewind e.world.store).2 }

/-- The memory that an engine keeps, for another run. -/
abbrev memoryOf (k : Kept) (e : Engine) : Memory :=
  (k.memory.rewind e.world.store).1.bindGlobals e.table.globals

/-- A memory the own containers of which are void as far as the ledger knows them, and spare. -/
structure Clean (base : Nat) (k : Ledger) (p : Program) (m : Memory) (e : Engine) : Prop where
  poised : Poised base e p m
  tunable : Tunable base e p m
  suits : e.processor.Suits e.options
  spare : ∀ {z c}, k z ≠ .data → m.cell? z = some c → e.world.store.Spare c
  void : ∀ {z c}, z.part = .locals ∨ z.part = .registers → k z = .data → m.cell? z = some c →
    e.world.store.Holds c none

/-- What makes a run on a kept memory as good as one on a new memory: nothing else has to do with its
locals and registers, and the run assigns them before it looks at them.  An accelerator has a plan only
for programs that are plain. -/
structure Favourable (patience : Patience) (p : Program) (m : Memory) (hit : Bool) (e : Engine) :
    Prop where
  plain : e.options.accelerate = true → p.Plain e.options.scalarCache e.table.globals.size
  spare : hit = true → ∀ c ∈ m.locals ++ m.registers, e.world.store.Spare c
  assigns : hit = true → (machineOf e m).assignsFirst ⟨p, some e.table.link⟩ p.result
    (pollInterval * patience.polls) .start 0 = true

theorem favourable_iff {hit : Bool} : Favourable patience p m hit e ↔
    (e.options.accelerate = true → p.Plain e.options.scalarCache e.table.globals.size) ∧
      (hit = true → (∀ c ∈ m.locals ++ m.registers, e.world.store.Spare c) ∧
        (machineOf e m).assignsFirst ⟨p, some e.table.link⟩ p.result
          (pollInterval * patience.polls) .start 0 = true) :=
  ⟨fun h => ⟨h.plain, fun hit => ⟨h.spare hit, h.assigns hit⟩⟩,
    fun h => ⟨h.1, fun hit => (h.2 hit).1, fun hit => (h.2 hit).2⟩⟩

instance (hit : Bool) : Decidable (Favourable patience p m hit e) :=
  decidable_of_iff _ favourable_iff.symm

theorem mem_of_part {z : Operand} {c : CellId} (hz : z.part = .locals ∨ z.part = .registers)
    (hc : m.cell? z = some c) : c ∈ m.locals ++ m.registers := by
  rcases hz with hp | hp
  · exact Array.mem_append_left _ (Memory.mem_of_cell? (by rw [hp]; rfl) hc)
  · exact Array.mem_append_right _ (Memory.mem_of_cell? (by rw [hp]; rfl) hc)

theorem spare_of_holds {s : Store} {c : CellId} (h : s.Isolated c) (ho : s.Holds c none) :
    s.Spare c := by
  refine ⟨h, fun {xs} hx => ?_⟩
  rw [show s.cell c = {} from ho] at hx
  cases hx

/-- A new memory is clean, whatever is known of it. -/
theorem Before.clean_built {s : Store} {sinks : List Sink} {k : Ledger} (h : Before x₀ e)
    (hk : ∀ c < base, x₀.Known c) (hbase : base ≤ e.world.store.cells.size)
    (hbound : ∀ c ∈ e.table.globals, c < base) (hw : k.Working)
    (hp : Assembler.assemble src e.table.symbols = .ok p)
    (hplain : e.options.accelerate = true → p.Plain e.options.scalarCache e.table.globals.size)
    (ha : Memory.allocate e.world.store p.layout e.table.globals = .ok (m, s)) :
    Clean base k p m (built src p m s sinks e) := by
  have halloc := Memory.allocated h.steady.sound ha
  have hvoid : ∀ c ∈ m.locals ++ m.registers, s.Isolated c ∧ s.Holds c none :=
    fun c hc => halloc.void_of_mem hc
  obtain ⟨hloaded, hsteady⟩ := h.loaded_miss hp ha sinks
    (if e.options.reexecute then some ⟨e.key src, p, m⟩ else e.kept)
  refine ⟨⟨hloaded.below hk, Nat.le_trans hbase halloc.adds.size_le, halloc.globals_eq, hbound,
    halloc.stack_eq, fun c hc => (hvoid c hc).1⟩, ?_, hsteady.suits, fun hz hc => ?_,
    fun hz _ hc => (hvoid _ (mem_of_part hz hc)).2⟩
  · exact tunable_of_allocate h.steady.sound hbase hbound hp hplain ha h.steady.suits rfl rfl rfl
  · obtain ⟨hi, ho⟩ := hvoid _ (mem_of_part (hw hz) hc)
    exact spare_of_holds hi ho

theorem world_reused (k : Kept) (e : Engine) : (reused k e).world = { e.world with
    store := (k.memory.locals ++ k.memory.registers).toList.foldl Store.unlink e.world.store } := by
  simp only [Memory.rewind, Array.foldl_toList]

/-- A kept memory is clean once it has been rewound, if nothing else has to do with its locals and
registers.  Nothing is known of what these hold. -/
theorem Before.clean_reused {k : Kept} (h : Before y₀ e) (hk : ∀ c < base, y₀.Known c)
    (hbase : base ≤ e.world.store.cells.size) (hbound : ∀ c ∈ e.table.globals, c < base)
    (hlookup : e.lookup src = some k) (ht : Tuned base e k.program k.memory)
    (hspare : ∀ c ∈ k.memory.locals ++ k.memory.registers, (reused k e).world.store.Spare c) :
    Clean base .start k.program (memoryOf k e) (reused k e) := by
  have hsize : e.world.store.cells.size ≤ (reused k e).world.store.cells.size := by
    rw [world_reused, Store.size_unlinkAll]
  obtain ⟨hloaded, hsteady⟩ := h.loaded_hit hlookup
  refine ⟨⟨hloaded.below hk, Nat.le_trans hbase hsize, rfl, hbound, rfl,
    fun c hc => (hspare c hc).isolated⟩, .inl (ht.rewound hbound), hsteady.suits, fun hz hc => ?_,
    fun hz hstart => ?_⟩
  · have hmem : _ ∈ (memoryOf k e).locals ++ (memoryOf k e).registers :=
      mem_of_part (Ledger.working_start hz) hc
    exact hspare _ hmem
  · rw [Ledger.start, if_pos hz] at hstart
    cases hstart

/-- Partners with clean memories for one program are primed if the run assigns what is not known before
it looks at it. -/
theorem Clean.primed {k : Ledger} (hx : Clean base k p m x) (hy : Clean base k p m' y)
    (h : Partners base nowhere x y) (hw : k.Working) (hk : ∀ z, k z ≠ .shape)
    (hplain : y.options.accelerate = true → p.Plain y.options.scalarCache y.table.globals.size)
    (hkept : ∀ k, y.kept = some k → k.program = p)
    (hassigns : (machineOf y m').assignsFirst ⟨p, some y.table.link⟩ p.result
      (pollInterval * patience.polls) k 0 = true) : Primed base patience p m m' x y := by
  obtain ⟨R, -, hmates⟩ := h.worlds
  have hglobals : x.table.globals = y.table.globals := by rw [h.table]
  obtain ⟨R', hhost, hdusty⟩ := hx.poised.dusty hy.poised hglobals hmates hw hk hx.spare hy.spare
    fun hz hzk hc hc' => Store.Holds.sameData (hx.void hz hzk hc) (hy.void hz hzk hc')
  exact ⟨h, hx.poised, hy.poised, hx.tunable, hy.tunable, hx.suits, hy.suits, hplain, hkept,
    k, R', hhost, hw, hdusty, hassigns⟩

/-! ### Loading -/

theorem mated_built {w w' : World} {s : Store} (h : World.Mated base nowhere w w')
    (ha : w.store.Adds s) : World.Mated base nowhere { w with store := s } w' := by
  obtain ⟨R, hle, hmates⟩ := h
  exact ⟨R, hle, hmates.store.adds ha, hmates.journal, hmates.host⟩

theorem mated_symm {w w' : World} (h : World.Mated base nowhere w w') :
    World.Mated base nowhere w' w := by
  obtain ⟨R, -, hmates⟩ := h
  exact ⟨fun c c' => R c' c, fun _ _ => False.elim, hmates.store.symm, hmates.journal.symm,
    hmates.host⟩

/-- The host does not see that the links of a memory which it does not know are cut. -/
theorem mated_reused {w : World} {k : Kept} (h : World.Mated base nowhere w y.world)
    (hs : (reused k y).world.store.Sound) (hk : ∀ c < base, c ∉ k.memory.own)
    (hspare : ∀ c ∈ k.memory.locals ++ k.memory.registers, (reused k y).world.store.Spare c) :
    World.Mated base nowhere w (reused k y).world := by
  obtain ⟨R, -, hmates⟩ := h
  have hfree : ∀ d ∈ (k.memory.locals ++ k.memory.registers).toList, ∀ c,
      ((reused k y).world.store.cell c).target ≠ some d := fun d hd c hc =>
    (hspare d (by simpa using hd)).isolated.unlinked c hc
  rw [world_reused] at hs hfree ⊢
  refine ⟨_, fun _ _ => False.elim, hmates.store.unlinked hs hfree, hmates.journal, fun c hc =>
    ⟨hmates.host c hc, fun hmem => hk c hc ?_⟩⟩
  rw [Array.mem_toList_iff] at hmem
  exact Array.mem_append_left _ hmem

/-- Partners in the course of runs that have not loaded anything yet.  The own containers of kept
memories are none of the host's. -/
structure Waiting (base : Nat) (x₀ y₀ x y : Engine) : Prop extends Attuned base nowhere x y where
  before : Before x₀ x
  before' : Before y₀ y
  known : ∀ c < base, x₀.Known c
  known' : ∀ c < base, y₀.Known c
  kept : x.kept = none
  reexecute : ∀ k, y.kept = some k → y.options.reexecute = true

/-- One program is loaded on partners, which are primed for it. -/
abbrev LoadsBoth (base : Nat) (patience : Patience) (r r' : Program × Memory × Bool)
    (x y : Engine) : Prop :=
  r.1 = r'.1 ∧ Primed base patience r.1 r.2.1 r'.2.1 x y

/-- A new memory on the partner that keeps nothing. -/
theorem Waiting.clean_built {s : Store} {sinks : List Sink} {k : Ledger}
    (h : Waiting base x₀ y₀ x y) (hw : k.Working)
    (hp : Assembler.assemble src x.table.symbols = .ok p)
    (hplain : y.options.accelerate = true → p.Plain y.options.scalarCache y.table.globals.size)
    (ha : Memory.allocate x.world.store p.layout x.table.globals = .ok (m, s)) :
    Clean base k p m (built src p m s sinks x) := by
  have hbound : ∀ c ∈ x.table.globals, c < base := h.table ▸ h.fair.bound
  refine h.before.clean_built h.known h.base_le.1 hbound hw hp ?_ ha
  rw [h.options, h.table]
  exact hplain

/-- One partner has a new memory for the program that the other has kept. -/
theorem Waiting.load_reused {k : Kept} (h : Waiting base x₀ y₀ x y) (hk : y.lookup src = some k)
    (hp : Assembler.assemble src x.table.symbols = .ok k.program)
    (hok : Favourable patience k.program (memoryOf k y) true (reused k y)) :
    Jointly (LoadsBoth base patience) (Partners base nowhere) (build src x) (load src y) := by
  obtain ⟨hplain, hspare, hassigns⟩ := hok
  obtain ⟨hloaded, hsteady⟩ := h.before'.loaded_hit hk
  have hkept : y.kept = some k := (Option.filter_eq_some_iff.mp hk).1
  obtain ⟨_, _, _, hagain⟩ := hloaded.furnished.allocatable
  obtain ⟨m, s, ha⟩ := Memory.allocate_again hagain x.world.store x.table.globals
  obtain ⟨sinks, hsinks, hbuild⟩ := build_of_allocate h.sinks hp ha
  rw [hbuild, load_of_some hk]
  have hbuilt : Clean base .start k.program m (built src k.program m s sinks x) :=
    h.clean_built Ledger.working_start hp hplain ha
  have hreused : Clean base .start k.program (memoryOf k y) (reused k y) :=
    h.before'.clean_reused h.known' h.base_le.2 h.fair.bound hk (h.tuned k hkept) (hspare rfl)
  have hadds := (Memory.allocated h.before.steady.sound ha).adds
  have hworlds := mated_reused (mated_built h.worlds hadds) hsteady.sound
    (fun c hc => hloaded.unknown c (h.known' c hc)) (hspare rfl)
  refine ⟨rfl, hbuilt.primed hreused ⟨h.options, h.table, hsinks, h.sinks', h.fair, hworlds⟩
    Ledger.working_start (fun z => ?_) hplain (fun k' hk' => ?_)
    (hassigns rfl)⟩
  · unfold Ledger.start
    split <;> simp
  · obtain rfl : k = k' := Option.some.inj (hkept.symm.trans hk')
    rfl

/-- Both partners have a new memory. -/
theorem Waiting.load_built {m' : Memory} {s s' : Store} (h : Waiting base x₀ y₀ x y)
    (hp : Assembler.assemble src x.table.symbols = .ok p)
    (hp' : Assembler.assemble src y.table.symbols = .ok p)
    (ha : Memory.allocate x.world.store p.layout x.table.globals = .ok (m, s))
    (ha' : Memory.allocate y.world.store p.layout y.table.globals = .ok (m', s'))
    (hplain : y.options.accelerate = true → p.Plain y.options.scalarCache y.table.globals.size) :
    Jointly (LoadsBoth base patience) (Partners base nowhere) (build src x) (build src y) := by
  obtain ⟨sinks, hsinks, hbuild⟩ := build_of_allocate h.sinks hp ha
  obtain ⟨sinks', hsinks', hbuild'⟩ := build_of_allocate h.sinks' hp' ha'
  rw [hbuild, hbuild']
  have hknown : Ledger.Working fun _ => .data := fun hne => absurd rfl hne
  have hbuilt : Clean base (fun _ => .data) p m (built src p m s sinks x) :=
    h.clean_built hknown hp hplain ha
  have hbuilt' : Clean base (fun _ => .data) p m' (built src p m' s' sinks' y) :=
    h.before'.clean_built h.known' h.base_le.2 h.fair.bound hknown hp' hplain ha'
  have hadds := (Memory.allocated h.before.steady.sound ha).adds
  have hadds' := (Memory.allocated h.before'.steady.sound ha').adds
  have hworlds := mated_symm (mated_built (mated_symm (mated_built h.worlds hadds)) hadds')
  refine ⟨rfl, hbuilt.primed hbuilt' ⟨h.options, h.table, hsinks, hsinks', h.fair, hworlds⟩ hknown
    (by simp) hplain (fun k hk => ?_)
    (Machine.assignsFirst_of_known (fun _ => rfl) _ _)⟩
  simp only at hk
  split at hk
  · cases hk
    rfl
  · exact absurd (h.reexecute k hk) ‹_›

/-- Partners load one program and are primed for it, or fail alike. -/
theorem Waiting.load (h : Waiting base x₀ y₀ x y)
    (hasm : ∀ k, y.lookup src = some k →
      Assembler.assemble src y.table.symbols = .ok k.program)
    (hok : ∀ p m hit y', load src y = .ok (p, m, hit) y' → Favourable patience p m hit y') :
    Jointly (LoadsBoth base patience) (Partners base nowhere) (load src x) (load src y) := by
  have hsymbols : x.table.symbols = y.table.symbols := by rw [h.table]
  have hlookup : x.lookup src = none := by rw [lookup, h.kept]; rfl
  rw [load_of_none hlookup]
  cases hk : y.lookup src with
  | some k =>
    exact h.load_reused hk (hsymbols ▸ hasm k hk) (hok _ _ _ _ (load_of_some hk))
  | none =>
    rw [load_of_none hk] at hok ⊢
    cases hp : Assembler.assemble src y.table.symbols with
    | error a =>
      rw [build_of_assemble (hsymbols ▸ hp), build_of_assemble hp]
      exact ⟨rfl, h.toPartners⟩
    | ok p =>
      have hp₀ : Assembler.assemble src x.table.symbols = .ok p := hsymbols ▸ hp
      have hagrees := Memory.allocate_agrees x.world.store y.world.store p.layout x.table.globals
        y.table.globals
      cases ha : Memory.allocate x.world.store p.layout x.table.globals <;>
        cases ha' : Memory.allocate y.world.store p.layout y.table.globals <;>
        rw [ha, ha'] at hagrees
      · obtain rfl := hagrees
        obtain ⟨sinks, hsinks, hbuild⟩ := build_of_refused h.sinks hp₀ ha
        obtain ⟨sinks', hsinks', hbuild'⟩ := build_of_refused h.sinks' hp ha'
        rw [hbuild, hbuild']
        exact ⟨rfl, h.options, h.table, hsinks, hsinks', h.fair, h.worlds⟩
      · exact hagrees.elim
      · exact hagrees.elim
      · obtain ⟨sinks', -, hbuild'⟩ := build_of_allocate h.sinks' hp ha'
        exact h.load_built hp₀ hp ha ha' (hok _ _ _ _ hbuild').plain

end Engine

end VectorMachine
