import VectorMachine.Proofs.Accelerator.Typing
import VectorMachine.Proofs.Machine.Guarded
import VectorMachine.Proofs.Store.Formed

/-!
# The constant pool

The constants of a memory hold the scalars that the immediates of its program stand for.  No other
address stands for the cell of a constant, nothing links to it or shares its buffer, and it is never
on the stack.  A step of an assembled program keeps all this, if host code leaves the constants
alone.
-/

namespace VectorMachine
set_option autoImplicit false

theorem Program.WellFormed.admissible {p : Program} {z : Instruction} {pc : Int}
    (h : p.WellFormed) (hz : Machine.instructionAt? p pc = some z) : z.Admissible p := by
  unfold Machine.instructionAt? at hz
  split at hz
  · cases hz
  · exact h.code z (Array.mem_of_getElem? hz)

namespace Machine

variable {p : Program} {m m' : Machine} {y : Operand} {c : CellId} {z : Instruction} {pc : Int}

/-- The cells that are no constants of the memory. -/
def Unpooled (m : Machine) (c : CellId) : Prop := c ∉ m.memory.constants

/-- The memory has the constants of the program, apart from everything else. -/
structure Pools (p : Program) (m : Machine) : Prop where
  sound : m.store.Sound
  addressable : m.Addressable
  isolated : ∀ c ∈ m.memory.constants, m.store.Isolated c
  apart : ∀ {y c}, y.part ≠ .constants → m.memory.cell? y = some c → m.Unpooled c
  values : List.Forall₂ (fun c text => ∃ v, Literal.decodeImmediate text = .ok v ∧
    m.store.Holds c (some v)) m.memory.constants.toList p.immediates

theorem cell?_of_stack {i : Nat} (h : m.memory.stack[i]? = some c) :
    m.memory.cell? ⟨.stack, (i : Int)⟩ = some c := by
  simp [Memory.cell?, Memory.cells?, Int.not_lt.mpr (Int.natCast_nonneg i), h]

theorem mem_constants_of_cell? (hy : y.part = .constants) (hc : m.memory.cell? y = some c) :
    c ∈ m.memory.constants := by
  simp only [Memory.cell?, hy, Memory.cells?, Option.bind_some] at hc
  split at hc
  · cases hc
  · exact Array.mem_of_getElem? hc

theorem Pools.within (h : m.Pools p) : m.Within m.Unpooled := by
  refine ⟨Store.region_of_isolated h.isolated, fun c hc => ?_⟩
  obtain ⟨i, hi⟩ := Array.getElem?_of_mem hc
  have hcell := cell?_of_stack hi
  exact ⟨h.apart (by simp) hcell, h.addressable _ _ hcell⟩

theorem Pools.moves (h : m.Pools p) (hm : Moves m.Unpooled m m') : m'.Pools p := by
  have hout : ∀ {c}, c ∈ m.memory.constants → ¬ m.Unpooled c := fun hc hn => hn hc
  refine ⟨hm.touches.sound h.sound, hm.addressable h.addressable, fun c hc => ?_,
    fun {y c} hy hc => ?_, ?_⟩
  · rw [hm.constants] at hc
    exact (h.isolated c hc).of_touches hm.touches h.sound (hout hc)
  · rw [Unpooled, hm.constants]
    by_cases hs : y.part = .stack
    · exact (hm.stack c (Memory.mem_stack_of_cell? hs hc)).1
    · rw [hm.cell? hs] at hc
      exact h.apart hy hc
  · rw [hm.constants]
    have hmem : ∀ c ∈ m.memory.constants.toList, c ∈ m.memory.constants := by simp
    refine ((List.forall₂_and_left _ _).mpr ⟨hmem, h.values⟩).imp ?_
    rintro c text ⟨hc, v, hv, hold⟩
    exact ⟨v, hv, hold.of_touches (h.isolated c hc) hm.touches h.sound (hout hc)⟩

theorem Pools.holds (h : m.Pools p) (hy : y.part = .constants) (hc : m.memory.cell? y = some c) :
    ∃ v, m.store.Holds c (some v) := by
  have hmem := mem_constants_of_cell? hy hc
  rw [← Array.mem_toList_iff] at hmem
  obtain ⟨i, hi⟩ := List.getElem?_of_mem hmem
  obtain ⟨text, -, v, -, hv⟩ := exists_of_forall₂ h.values.flip hi
  exact ⟨v, hv⟩

theorem Pools.exists_cell (h : m.Pools p) (hy : y.part = .constants) (hk : p.Knows y) :
    ∃ c, m.memory.cell? y = some c := by
  have hlen := h.values.length_eq
  simp only [Program.Knows, hy] at hk
  simp only [Program.immediates, List.length_map, List.length_range, Array.length_toList] at hlen
  have hi : y.addr.toNat < m.memory.constants.size := by omega
  refine ⟨m.memory.constants[y.addr.toNat], ?_⟩
  simp [Memory.cell?, hy, Memory.cells?, Int.not_lt.mpr hk.1, hi]

/-- The note on an instruction can be read if it is the address of a constant. -/
theorem exists_noteText (hs : m.store.Sound) (hn : p.Notes z.note)
    (hnote : z.note.part = .constants → ∃ c v, m.memory.cell? z.note = some c ∧
      m.store.Holds c (some v)) : ∃ text, noteText z m = .ok text := by
  unfold noteText
  split
  · exact ⟨"", rfl⟩
  · rename_i habs
    have hp : z.note.part = .constants := by
      rcases hn.2 with hp | hp
      · simp [Operand.isAbsent, hp] at habs
      · exact hp
    obtain ⟨c, v, hc, hv⟩ := hnote hp
    have hget := (Memory.get_eq_ok_iff (s := m.world.store) (by simp [hp])).mpr ⟨hc, rfl⟩
    simp only [hget, Store.ok_bind]
    split
    · rename_i ht
      exact hs.exists_string ht (by rw [hv.size_eq])
    · exact ⟨"", rfl⟩

theorem Pools.exists_note (h : m.Pools p) (hn : p.Notes z.note) :
    ∃ text, noteText z m = .ok text := by
  refine exists_noteText h.sound hn fun hp => ?_
  obtain ⟨c, hc⟩ := h.exists_cell hp hn.1
  obtain ⟨v, hv⟩ := h.holds hp hc
  exact ⟨c, v, hc, hv⟩

/-- A step of an assembled program leaves the constants. -/
theorem Pools.moves_step {env : Environment} (h : m.Pools p)
    (hz : ∀ z, instructionAt? env.program pc = some z → z.Admissible p)
    (hlink : ∀ link, env.linker = some link → link.StaysIn m.Unpooled) :
    Moves m.Unpooled m (finalState (step env pc m)) := by
  refine Machine.moves_step h.within h.addressable hlink fun z hi i y c he hy hc => ?_
  refine h.apart (fun hp => ?_) hc
  rw [Accelerator.not_exposes_constant (hz z hi) hy hp] at he
  cases he

/-! ### Between two runs -/

theorem Pools.restart (h : m.Pools p) : ({ m with running := [] } : Machine).Pools p :=
  h.moves ⟨.refl h.within.region, rfl, rfl, rfl, rfl, h.within.stack⟩

theorem moves_unlinkAll {C : CellId → Prop} (cs : List CellId) (hm : m.Within C)
    (hcs : ∀ c ∈ cs, C c) :
    Moves C m { m with world.store := cs.foldl Store.unlink m.store } := by
  induction cs generalizing m with
  | nil => exact .refl hm
  | cons c cs ih =>
    have h₁ : Moves C m { m with world.store := m.store.unlink c } :=
      .of_touches hm (.unlink hm.region (hcs c (by simp)))
    exact h₁.trans (ih (h₁.within hm) fun d hd => hcs d (by simp [hd]))

/-- Rewinding keeps the pool, whatever containers are bound as globals, if these are there and no
constants. -/
theorem Pools.rewound {globals : Array CellId} (h : m.Pools p)
    (hg : ∀ c ∈ globals, c < m.store.cells.size ∧ m.Unpooled c) : (m.rewound globals).Pools p := by
  have hown : ∀ c ∈ (m.memory.locals ++ m.memory.registers).toList, m.Unpooled c := by
    intro c hc
    simp only [Array.toList_append, List.mem_append, Array.mem_toList_iff] at hc
    rcases hc with hc | hc
    · obtain ⟨i, hi⟩ := Array.getElem?_of_mem hc
      refine h.apart (y := ⟨.locals, (i : Int)⟩) (by simp) ?_
      simp [Memory.cell?, Memory.cells?, Int.not_lt.mpr (Int.natCast_nonneg i), hi]
    · obtain ⟨i, hi⟩ := Array.getElem?_of_mem hc
      refine h.apart (y := ⟨.registers, (i : Int)⟩) (by simp) ?_
      simp [Memory.cell?, Memory.cells?, Int.not_lt.mpr (Int.natCast_nonneg i), hi]
  have hm := moves_unlinkAll _ h.within hown
  have h₁ := h.moves hm
  rw [← rewound_store globals] at h₁
  have hsize : m.store.cells.size ≤ (m.rewound globals).store.cells.size := by
    rw [rewound_store]
    exact hm.touches.cells_le
  -- the stack is empty, the globals are new, and all other addresses are as before
  have hcell : ∀ {y c}, (m.rewound globals).memory.cell? y = some c →
      (y.part = .globals ∧ c ∈ globals) ∨ m.memory.cell? y = some c := by
    intro y c hc
    by_cases hy : y.part = .globals
    · refine .inl ⟨hy, ?_⟩
      simp only [Machine.rewound, Memory.cell?, hy, Memory.cells?, Memory.bindGlobals,
        Option.bind_some] at hc
      split at hc
      · cases hc
      · exact Array.mem_of_getElem? hc
    · by_cases hs : y.part = .stack
      · have := Memory.mem_stack_of_cell? hs hc
        simp [Machine.rewound, Memory.rewind, Memory.bindGlobals] at this
      · refine .inr (.trans ?_ hc)
        obtain ⟨part, addr⟩ := y
        cases part <;> first | rfl | exact absurd rfl hy | exact absurd rfl hs
  refine ⟨h₁.sound, fun y c hc => ?_, h₁.isolated, fun {y c} hy hc => ?_, h₁.values⟩
  · refine Nat.lt_of_lt_of_le ?_ hsize
    rcases hcell hc with ⟨-, hc⟩ | hc
    · exact (hg c hc).1
    · exact h.addressable y c hc
  · rcases hcell hc with ⟨-, hc⟩ | hc
    · exact (hg c hc).2
    · exact h.apart hy hc

theorem pools_of_allocated {s t : Store} {globals : Array CellId} {mem : Memory}
    {journal : Array String} (hs : s.Sound) (h : Memory.Allocated s p.layout globals mem t)
    (hg : ∀ c ∈ globals, c < s.cells.size) :
    ({ world := ⟨t, journal⟩, memory := mem } : Machine).Pools p := by
  have hguard : Guarded s.cells.size (fun y => y.part = .constants)
      { world := ⟨t, journal⟩, memory := mem } :=
    guarded_of_allocated h hs hg fun hy => .inr (.inr hy)
  refine ⟨hguard.sound, hguard.addressable,
    fun c hc => hguard.isolated (Memory.exists_cell?_of_constant hc),
    fun {y c} hy hc hmem => ?_, ?_⟩
  · obtain ⟨y', hy', hc'⟩ := Memory.exists_cell?_of_constant hmem
    have hown' : y'.IsOwn := .inr (.inr hy')
    by_cases hown : y.IsOwn
    · exact hy (hguard.apart.own_inj hown hown' hc hc' ▸ hy')
    · by_cases hglobal : y.part = .globals
      · exact Nat.not_lt.mpr (hguard.apart.own_ge hown' hc') (hguard.apart.globals_lt hglobal hc)
      · -- no operand outside these partitions has a cell
        cases hp : y.part with
        | absent | unknown => simp [Memory.cell?, Memory.cells?, hp] at hc
        | stack => simp [Memory.cell?, Memory.cells?, hp, h.stack_eq] at hc
        | globals => exact hglobal hp
        | locals => exact hown (.inl hp)
        | registers => exact hown (.inr (.inl hp))
        | constants => exact hy hp
  · obtain ⟨vs, hvs, hholds⟩ := h.values
    have hlen := hvs.length_eq
    rw [List.forall₂_iff_get]
    refine ⟨by simp [h.constants_eq, Program.layout], fun i hi hi' => ?_⟩
    have hi₁ : i < p.layout.immediates.length := hi'
    have hv : i < vs.length := hlen ▸ hi₁
    refine ⟨vs[i], hvs.get hi₁ hv, ?_⟩
    have hc : mem.constants.toList.get ⟨i, hi⟩ =
        s.cells.size + mem.locals.size + mem.registers.size + i := by
      have := Memory.getElem?_consecutive
        (s.cells.size + mem.locals.size + mem.registers.size) p.layout.immediates.length i
      rw [← h.constants_eq, if_pos hi₁] at this
      simpa using (Array.getElem?_eq_some_iff.mp this).2
    rw [hc]
    exact hholds i vs[i] (by simp [hv])

end Machine

end VectorMachine
