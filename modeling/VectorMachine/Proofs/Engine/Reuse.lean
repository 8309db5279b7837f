import VectorMachine.Proofs.Engine.Impartial
import VectorMachine.Proofs.Engine.Runs
import VectorMachine.Proofs.Machine.Reruns

/-!
# Memories that are used again

A memory that an engine keeps is rewound before it is used again, which cuts the links of its locals
and registers.  If these are spare then, it differs from a new memory in what they hold only.
-/

namespace VectorMachine
set_option autoImplicit false

open Store (Pairing Matches)

variable {base : Nat} {R : Pairing} {e e' : Engine} {p : Program}
  {m m' : Memory} {s s' t : Store} {y z : Operand} {c c' d : CellId} {cs : Array CellId}

/-! ### Own cells -/

namespace Memory

theorem getElem?_of_cell? (hcs : m.cells? y.part = some cs) (hc : m.cell? y = some c) :
    0 ≤ y.addr ∧ cs[y.addr.toNat]? = some c := by
  simp only [cell?, hcs, Option.bind_some] at hc
  split at hc
  · cases hc
  · exact ⟨by omega, hc⟩

theorem mem_of_cell? (hcs : m.cells? y.part = some cs) (hc : m.cell? y = some c) : c ∈ cs :=
  Array.mem_of_getElem? (getElem?_of_cell? hcs hc).2

theorem eq_of_cell? (hd : cs.toList.Nodup) (hcs : m.cells? y.part = some cs)
    (hpart : z.part = y.part) (hy : m.cell? y = some c) (hz : m.cell? z = some c) : y = z := by
  obtain ⟨hy₀, hyc⟩ := getElem?_of_cell? hcs hy
  obtain ⟨hz₀, hzc⟩ := getElem?_of_cell? (hpart ▸ hcs) hz
  rw [← Array.getElem?_toList] at hyc hzc
  have hlt : y.addr.toNat < cs.toList.length := (List.getElem?_eq_some_iff.mp hyc).1
  have haddr : y.addr.toNat = z.addr.toNat := (List.getElem?_inj hlt hd).mp (hyc.trans hzc.symm)
  cases y
  cases z
  simp only [Operand.mk.injEq]
  exact ⟨hpart.symm, by simp only at *; omega⟩

theorem mem_own_of_cell? (hy : y.IsOwn) (hc : m.cell? y = some c) : c ∈ m.own := by
  rcases hy with hp | hp | hp
  all_goals
    have hc := mem_of_cell? (by rw [hp]; rfl) hc
    simp [own, hc]

theorem Furnished.own_inj (h : m.Furnished p) (hy : y.IsOwn) (hz : z.IsOwn)
    (hyc : m.cell? y = some c) (hzc : m.cell? z = some c) : y = z := by
  have hd := h.distinct
  rw [own, Array.toList_append, Array.toList_append, List.nodup_append, List.nodup_append] at hd
  obtain ⟨⟨hl, hr, hlr⟩, hk, hlrk⟩ := hd
  have hmem : ∀ {y : Operand} {cs : Array CellId}, m.cells? y.part = some cs → m.cell? y = some c →
      c ∈ cs.toList := fun hcs hc => by simpa using mem_of_cell? hcs hc
  rcases hy with hy | hy | hy <;> rcases hz with hz | hz | hz
  all_goals
    have hcy := hmem (by rw [hy]; rfl) hyc
    have hcz := hmem (by rw [hz]; rfl) hzc
  · exact eq_of_cell? hl (by rw [hy]; rfl) (hz.trans hy.symm) hyc hzc
  · exact absurd rfl (hlr c hcy c hcz)
  · exact absurd rfl (hlrk c (by simp [hcy]) c hcz)
  · exact absurd rfl (hlr c hcz c hcy)
  · exact eq_of_cell? hr (by rw [hy]; rfl) (hz.trans hy.symm) hyc hzc
  · exact absurd rfl (hlrk c (by simp [hcy]) c hcz)
  · exact absurd rfl (hlrk c (by simp [hcz]) c hcy)
  · exact absurd rfl (hlrk c (by simp [hcz]) c hcy)
  · exact eq_of_cell? hk (by rw [hy]; rfl) (hz.trans hy.symm) hyc hzc

theorem voidCells_agrees (greatest : Int) (s t : Store) :
    Store.Agrees (fun _ _ => True) (voidCells s greatest) (voidCells t greatest) := by
  unfold voidCells
  dsimp only
  split
  · trivial
  · split
    · rfl
    · trivial

theorem constantCells_agrees (texts : List String) (s t : Store) :
    Store.Agrees (fun _ _ => True) (constantCells s texts) (constantCells t texts) := by
  rw [constantCells_eq, constantCells_eq]
  generalize (#[], s) = a, (#[], t) = b
  induction texts generalizing a b with
  | nil => trivial
  | cons text texts ih =>
    rw [List.foldlM_cons, List.foldlM_cons]
    refine Store.Agrees.bind (V := fun _ _ => True) ?_ fun a' b' _ => ih a' b'
    unfold addConstant
    cases Literal.decodeImmediate text with
    | error e => rfl
    | ok v => trivial

/-- Allocations for one layout succeed both, or fail alike. -/
theorem allocate_agrees (s t : Store) (layout : Layout) (globals globals' : Array CellId) :
    Store.Agrees (fun _ _ => True) (allocate s layout globals) (allocate t layout globals') := by
  unfold allocate
  refine (voidCells_agrees layout.greatestLocal s t).mapError.bind fun a b _ => ?_
  refine (voidCells_agrees layout.greatestRegister a.2 b.2).mapError.bind fun c d _ => ?_
  exact (constantCells_agrees layout.immediates c.2 d.2).mapError.bind fun _ _ _ => trivial

/-- The locals and registers of a new memory are void, and nothing else has to do with them. -/
theorem Allocated.void_of_mem {layout : Layout} {globals : Array CellId} {c : Nat}
    (h : Allocated s layout globals m t) (hc : c ∈ m.locals ++ m.registers) :
    t.Isolated c ∧ t.Holds c none := by
  have hsize := h.size_eq
  have hl : m.locals.size = extentSize layout.greatestLocal := by rw [h.locals_eq, size_consecutive]
  have hr : m.registers.size = extentSize layout.greatestRegister := by
    rw [h.registers_eq, size_consecutive]
  obtain ⟨hle, hlt⟩ : s.cells.size ≤ c ∧
      c < s.cells.size + m.locals.size + m.registers.size := by
    rcases Array.mem_append.mp hc with hc | hc
    · obtain ⟨i, hi⟩ := Array.getElem?_of_mem hc
      rw [h.locals_eq, getElem?_consecutive] at hi
      split at hi <;> cases hi
      omega
    · obtain ⟨i, hi⟩ := Array.getElem?_of_mem hc
      rw [h.registers_eq, getElem?_consecutive] at hi
      split at hi <;> cases hi
      omega
  exact ⟨h.adds.isolated c hle (by omega), h.void c hle hlt⟩

end Memory

/-! ### Worlds before and after loading -/

namespace Store

/-- Containers to which nothing is linked any more can be left out once their links are cut. -/
theorem Matches.unlinked {deep : Prop} {cs : List CellId} (h : Matches deep R s s')
    (hs : (cs.foldl Store.unlink s').Sound)
    (hfree : ∀ d ∈ cs, ∀ c, ((cs.foldl Store.unlink s').cell c).target ≠ some d) :
    Matches deep (fun c c' => R c c' ∧ c' ∉ cs) s (cs.foldl Store.unlink s') := by
  have h₁ : Matches deep (fun c c' => R c c' ∧ c' ∉ cs) s s' := by
    refine h.restrict And.left fun {c c' d d'} hc _ hd hR => ⟨hR, fun hmem => ?_⟩
    rw [← cell_unlinkAll hc.2] at hd
    exact hfree d' hmem c' hd
  refine h₁.frame' hs (Nat.le_of_eq (size_unlinkAll cs).symm) (fun hc => cell_unlinkAll hc.2)
    fun {c c'} _ => ?_
  rw [lanes?, lanes?, buffers_unlinkAll]

/-- New containers do not matter. -/
theorem Matches.adds {deep : Prop} (h : Matches deep R s s') (ha : s.Adds t) :
    Matches deep R t s' := by
  refine h.touches ha.touches (fun hc => Nat.not_le.mpr (h.lt hc).1) fun {_ _ d _} _ hd _ hb => ?_
  rw [cell_of_le hd] at hb
  cases hb

end Store

/-! ### Loaded memories -/

namespace Engine

/-- A memory for a program, ready for a run: its own cells are none of the host's, and nothing else
has to do with its locals and registers. -/
structure Poised (base : Nat) (e : Engine) (p : Program) (m : Memory) : Prop where
  loaded : Loaded (· < base) e p m
  base_le : base ≤ e.world.store.cells.size
  globals : m.globals = e.table.globals
  bound : ∀ c ∈ e.table.globals, c < base
  stack : m.stack = #[]
  isolated : ∀ c ∈ m.locals ++ m.registers, e.world.store.Isolated c

/-- The machine with the containers of an engine and a memory. -/
abbrev machineOf (e : Engine) (m : Memory) : Machine := { world := e.world, memory := m }

theorem Poised.guarded (h : Poised base e p m) : (machineOf e m).Guarded base Operand.IsOwn where
  sound := h.loaded.pools.sound
  base_le := h.base_le
  addressable := h.loaded.pools.addressable
  apart := by
    refine ⟨fun hy hc => ?_, h.loaded.furnished.own_inj, fun {y c} hy hc => ?_⟩
    · by_contra hlt
      exact h.loaded.unknown _ (Nat.lt_of_not_le hlt) (Memory.mem_own_of_cell? hy hc)
    · have hc : c ∈ m.globals := Memory.mem_of_cell? (by rw [hy]; rfl) hc
      exact h.bound c (h.globals ▸ hc)
  isOwn := id
  isolated := by
    rintro c ⟨y, hy | hy | hy, hc⟩
    · exact h.isolated c (Array.mem_append_left _ (Memory.mem_of_cell? (by rw [hy]; rfl) hc))
    · exact h.isolated c (Array.mem_append_right _ (Memory.mem_of_cell? (by rw [hy]; rfl) hc))
    · exact h.loaded.pools.isolated c (Memory.mem_of_cell? (by rw [hy]; rfl) hc)
  off_stack := by simp [h.stack]

/-- The constants of two memories for one program hold the same. -/
theorem Poised.sameConstants (h : Poised base e p m) (h' : Poised base e' p m')
    (hy : y.part = .constants) (hc : m.cell? y = some c) (hc' : m'.cell? y = some c') :
    Store.SameData e.world.store (e.world.store.cell c) e'.world.store (e'.world.store.cell c') := by
  have hcs : m.cells? y.part = some m.constants := by rw [hy]; rfl
  have hcs' : m'.cells? y.part = some m'.constants := by rw [hy]; rfl
  obtain ⟨-, hi⟩ := Memory.getElem?_of_cell? hcs hc
  obtain ⟨-, hi'⟩ := Memory.getElem?_of_cell? hcs' hc'
  obtain ⟨hlt, rfl⟩ := Array.getElem?_eq_some_iff.mp hi
  obtain ⟨hlt', rfl⟩ := Array.getElem?_eq_some_iff.mp hi'
  have hlen := h.loaded.pools.values.length_eq
  have hlt'' : y.addr.toNat < p.immediates.length := by simpa using hlen ▸ hlt
  obtain ⟨v, hv, hold⟩ := h.loaded.pools.values.get (i := y.addr.toNat) (by simpa using hlt) hlt''
  obtain ⟨v', hv', hold'⟩ :=
    h'.loaded.pools.values.get (i := y.addr.toNat) (by simpa using hlt') hlt''
  obtain rfl : v = v' := Except.ok.inj (hv.symm.trans hv')
  exact Store.Holds.sameData (by simpa using hold) (by simpa using hold')

theorem Poised.sizes (h : Poised base e p m) (h' : Poised base e' p m')
    (hglobals : e.table.globals = e'.table.globals) {part : Partition} (hpart : part ≠ .stack) :
    (m.cells? part).map Array.size = (m'.cells? part).map Array.size := by
  have hk : m.constants.size = m'.constants.size := by
    have hlen := h.loaded.pools.values.length_eq
    have hlen' := h'.loaded.pools.values.length_eq
    simpa using hlen.trans hlen'.symm
  cases part with
  | globals => simp [Memory.cells?, h.globals, h'.globals, hglobals]
  | locals => simp [Memory.cells?, h.loaded.furnished.locals, h'.loaded.furnished.locals]
  | registers => simp [Memory.cells?, h.loaded.furnished.registers, h'.loaded.furnished.registers]
  | constants => simp [Memory.cells?, hk]
  | stack => exact absurd rfl hpart
  | absent | unknown => rfl

/-- Two memories for one program, in worlds in which the containers of the host show the same, differ
in what their unknown locals and registers hold only. -/
theorem Poised.dusty {k : Ledger} (h : Poised base e p m) (h' : Poised base e' p m')
    (hglobals : e.table.globals = e'.table.globals)
    (hworlds : World.Mates base R e.world e'.world) (hw : k.Working) (hk : ∀ y, k y ≠ .shape)
    (hspare : ∀ {y c}, k y ≠ .data → m.cell? y = some c → e.world.store.Spare c)
    (hspare' : ∀ {y c}, k y ≠ .data → m'.cell? y = some c → e'.world.store.Spare c)
    (hsame : ∀ {y c c'}, y.part = .locals ∨ y.part = .registers → k y = .data →
      m.cell? y = some c → m'.cell? y = some c' → Store.SameData e.world.store
        (e.world.store.cell c) e'.world.store (e'.world.store.cell c')) :
    ∃ R' : Pairing, (∀ c < base, R' c c) ∧ Machine.Dusty k R' (machineOf e m) (machineOf e' m') := by
  obtain ⟨hhost, hdusty⟩ := Machine.dusty_of_guarded h.guarded h'.guarded hworlds.store
    hworlds.host hworlds.journal rfl h.stack h'.stack
    (h.globals.trans (hglobals.trans h'.globals.symm)) (h.sizes h' hglobals) hw hk hspare hspare'
    fun {y c c'} hy hyk hc hc' => by
      rcases hy with hy | hy | hy
      · exact hsame (.inl hy) hyk hc hc'
      · exact hsame (.inr hy) hyk hc hc'
      · exact h.sameConstants h' hy hc hc'
  exact ⟨_, hhost, hdusty⟩

end Engine

/-! ### Runs on the machine -/

/-- The machine that a run leaves. -/
abbrev RunResult.machine (r : RunResult) : Machine := { world := r.world, memory := r.memory }

/-- Runs on two memories that differ in unknown containers only, of which the second one assigns
before it looks. -/
theorem Machine.Dusty.interpret {k : Ledger} {env : Environment} {result : Operand}
    {patience : Patience} (h : Machine.Dusty k R (Engine.machineOf e m) (Engine.machineOf e' m'))
    (hw : k.Working) (hwf : env.program.WellFormed)
    (hconf : ∀ link, env.linker = some link → link.Confined)
    (hlink : ∀ link, env.linker = some link → link.Respects False)
    (hfirst : (Engine.machineOf e' m').assignsFirst env result (pollInterval * patience.polls) k 0 =
      true) (trace trace' : Log.Trace) :
    (VectorMachine.interpret env patience e.world m trace).outcome =
        (VectorMachine.interpret env patience e'.world m' trace').outcome ∧
      ∃ (k : Ledger) (R' : Pairing), R.Below R' ∧
        Machine.Tied False (Machine.Known k) R'
          (VectorMachine.interpret env patience e.world m trace).machine
          (VectorMachine.interpret env patience e'.world m' trace').machine ∧
        ((VectorMachine.interpret env patience e'.world m' trace').outcome = .ok () →
          k result = .data) := by
  let z : Traced := { machine := Engine.machineOf e m, trace := trace }
  let z' : Traced := { machine := Engine.machineOf e' m', trace := trace' }
  have hdrive : Machine.Reruns R result
      (VectorMachine.drive env.program.code.size (Traced.step env) patience.stop
        (pollInterval * patience.polls) 0 0 z)
      (VectorMachine.drive env.program.code.size (Traced.step env) patience.stop
        (pollInterval * patience.polls) 0 0 z') :=
    h.drive hw hwf hconf hlink hfirst
  rw [← driveAll_eq, ← driveAll_eq] at hdrive
  obtain ⟨houtcome, -, k', R', hle, ht, hresult⟩ := hdrive
  exact ⟨houtcome, k', R', hle, ⟨ht.store, ht.journal, rfl, ht.stack, ht.off_stack, ht.cells,
    ht.sizes⟩, hresult⟩

end VectorMachine
