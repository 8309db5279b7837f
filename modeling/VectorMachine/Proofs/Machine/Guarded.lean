import VectorMachine.Proofs.Machine.Reach
import VectorMachine.Proofs.Machine.Allocation
import VectorMachine.Proofs.Program.Assembled

/-!
# Guarded addresses

Locals, registers and constants have cells of their own, apart from each other and from the
globals.  Some of these addresses are guarded: their cells are isolated and never on the stack.
A step that exposes no guarded address leaves the cells of all guarded addresses as they are.
-/

namespace VectorMachine
set_option autoImplicit false

/-- The partitions whose cells a memory makes itself. -/
def Operand.IsOwn (y : Operand) : Prop :=
  y.part = .locals ∨ y.part = .registers ∨ y.part = .constants

namespace Memory

/-- The cells that a memory has made itself, from `base` on, differ from each other and from the
globals. -/
structure Apart (m : Memory) (base : Nat) : Prop where
  own_ge : ∀ {y c}, y.IsOwn → m.cell? y = some c → base ≤ c
  own_inj : ∀ {y z c}, y.IsOwn → z.IsOwn → m.cell? y = some c → m.cell? z = some c → y = z
  globals_lt : ∀ {y c}, y.part = .globals → m.cell? y = some c → c < base

theorem cell?_of_stack_ne {m m' : Memory} {y : Operand} (hg : m'.globals = m.globals)
    (hl : m'.locals = m.locals) (hc : m'.constants = m.constants)
    (hr : m'.registers = m.registers) (hy : y.part ≠ .stack) : m'.cell? y = m.cell? y := by
  unfold cell?
  congr 1
  cases hp : y.part <;> simp_all [cells?]

theorem mem_stack_of_cell? {m : Memory} {y : Operand} {c : CellId} (hy : y.part = .stack)
    (h : m.cell? y = some c) : c ∈ m.stack := by
  simp only [cell?, hy, cells?, Option.bind_some] at h
  split at h
  · cases h
  · exact Array.mem_of_getElem? h

theorem stack_ne_of_own {y : Operand} (h : y.IsOwn) : y.part ≠ .stack := by
  rcases h with h | h | h <;> simp [h]

theorem exists_cell?_of_constant {m : Memory} {c : CellId} (h : c ∈ m.constants) :
    ∃ y : Operand, y.part = .constants ∧ m.cell? y = some c := by
  obtain ⟨i, hi⟩ := Array.getElem?_of_mem h
  refine ⟨⟨.constants, (i : Int)⟩, rfl, ?_⟩
  simp [cell?, cells?, Int.not_lt.mpr (Int.natCast_nonneg i), hi]

end Memory

namespace Machine

variable {m m' : Machine} {Q : Operand → Prop} {base : Nat} {o : Option Scalar}

/-- Whether a cell belongs to a guarded address. -/
def IsGuard (Q : Operand → Prop) (m : Machine) (c : CellId) : Prop :=
  ∃ y, Q y ∧ m.memory.cell? y = some c

structure Guarded (base : Nat) (Q : Operand → Prop) (m : Machine) : Prop where
  sound : m.store.Sound
  base_le : base ≤ m.store.cells.size
  addressable : m.Addressable
  apart : m.memory.Apart base
  isOwn : ∀ {y}, Q y → y.IsOwn
  isolated : ∀ {c}, m.IsGuard Q c → m.store.Isolated c
  off_stack : ∀ c ∈ m.memory.stack, ¬ m.IsGuard Q c

theorem Guarded.mono {Q' : Operand → Prop} (h : m.Guarded base Q) (hQ : ∀ {y}, Q' y → Q y) :
    m.Guarded base Q' :=
  ⟨h.sound, h.base_le, h.addressable, h.apart, fun hy => h.isOwn (hQ hy),
    fun ⟨y, hy, hc⟩ => h.isolated ⟨y, hQ hy, hc⟩,
    fun c hc ⟨y, hy, hyc⟩ => h.off_stack c hc ⟨y, hQ hy, hyc⟩⟩

theorem Guarded.within (h : m.Guarded base Q) : m.Within fun c => ¬ m.IsGuard Q c := by
  refine ⟨Store.region_of_isolated fun c => h.isolated, fun c hc => ⟨h.off_stack c hc, ?_⟩⟩
  obtain ⟨i, hi, rfl⟩ := Array.mem_iff_getElem.mp hc
  refine h.addressable ⟨.stack, (i : Int)⟩ _ ?_
  simp [Memory.cell?, Memory.cells?, Int.not_lt.mpr (Int.natCast_nonneg i), hi]

theorem Moves.cell? {C : CellId → Prop} {y : Operand} (h : Moves C m m') (hy : y.part ≠ .stack) :
    m'.memory.cell? y = m.memory.cell? y :=
  Memory.cell?_of_stack_ne h.globals h.locals h.constants h.registers hy

theorem Moves.addressable {C : CellId → Prop} (h : Moves C m m') (ha : m.Addressable) :
    m'.Addressable := by
  intro y c hc
  by_cases hy : y.part = .stack
  · exact (h.stack c (Memory.mem_stack_of_cell? hy hc)).2
  · rw [h.cell? hy] at hc
    exact h.lt (ha y c hc)

theorem Moves.apart {C : CellId → Prop} (h : Moves C m m') (ha : m.memory.Apart base) :
    m'.memory.Apart base := by
  have hown : ∀ {y : Operand}, y.IsOwn → m'.memory.cell? y = m.memory.cell? y :=
    fun hy => h.cell? (Memory.stack_ne_of_own hy)
  refine ⟨fun hy hc => ha.own_ge hy (hown hy ▸ hc),
    fun hy hz hc hd => ha.own_inj hy hz (hown hy ▸ hc) (hown hz ▸ hd), fun {y c} hy hc => ?_⟩
  rw [h.cell? (by simp [hy])] at hc
  exact ha.globals_lt hy hc

theorem Moves.isGuard_iff {C : CellId → Prop} (h : Moves C m m') (hown : ∀ {y}, Q y → y.IsOwn)
    (c : CellId) : m'.IsGuard Q c ↔ m.IsGuard Q c := by
  have hcell : ∀ y, Q y → m'.memory.cell? y = m.memory.cell? y :=
    fun y hy => h.cell? (Memory.stack_ne_of_own (hown hy))
  exact ⟨fun ⟨y, hy, hc⟩ => ⟨y, hy, hcell y hy ▸ hc⟩,
    fun ⟨y, hy, hc⟩ => ⟨y, hy, (hcell y hy).trans hc⟩⟩

theorem Guarded.moves (h : m.Guarded base Q) (hm : Moves (fun c => ¬ m.IsGuard Q c) m m') :
    m'.Guarded base Q := by
  have hiff := hm.isGuard_iff (Q := Q) h.isOwn
  refine ⟨hm.touches.sound h.sound, Nat.le_trans h.base_le hm.touches.cells_le,
    hm.addressable h.addressable, hm.apart h.apart, h.isOwn, fun {c} hc => ?_, fun c hc => ?_⟩
  · have hc' := (hiff c).mp hc
    exact (h.isolated hc').of_touches hm.touches h.sound fun hn => hn hc'
  · rw [hiff]
    exact (hm.stack c hc).1

theorem Guarded.holds {c : CellId} (h : m.Guarded base Q)
    (hm : Moves (fun c => ¬ m.IsGuard Q c) m m') (hc : m.IsGuard Q c) (ho : m.store.Holds c o) :
    m'.store.Holds c o :=
  ho.of_touches (h.isolated hc) hm.touches h.sound fun hn => hn hc

theorem Guarded.rewrites {c : CellId} {s : Store} (h : m.Guarded base Q)
    (hs : m.store.Rewrites c s) : ({ m with world.store := s } : Machine).Guarded base Q := by
  have hsize : s.cells.size = m.store.cells.size := hs.size_eq
  refine ⟨hs.touches.sound h.sound, hsize ▸ h.base_le, fun y d hd => ?_, h.apart, h.isOwn,
    fun {d} hd => ?_, h.off_stack⟩
  · exact hsize ▸ h.addressable y d hd
  · by_cases hdc : d = c
    · exact hdc ▸ hs.isolated
    · have hd' := h.isolated hd
      refine hd'.of_touches hs.touches h.sound fun hn => ?_
      rcases hn with hn | hn
      · exact hdc hn
      · exact absurd hd'.lt (Nat.not_lt.mpr hn)

theorem Guarded.holds_rewrites {c d : CellId} {s : Store} (h : m.Guarded base Q)
    (hd : m.IsGuard Q d) (hs : m.store.Rewrites c s) (hne : d ≠ c) (ho : m.store.Holds d o) :
    s.Holds d o := by
  have hi := h.isolated hd
  refine ho.of_touches hi hs.touches h.sound fun hn => ?_
  rcases hn with hn | hn
  · exact hne hn
  · exact absurd hi.lt (Nat.not_lt.mpr hn)

/-- Addresses that assembled programs use have no guarded cell unless they are guarded. -/
theorem Guarded.not_isGuard {p : Program} {y : Operand} {c : CellId} (h : m.Guarded base Q)
    (hy : p.Knows y) (hq : ¬ Q y) (hc : m.memory.cell? y = some c) : ¬ m.IsGuard Q c := by
  rintro ⟨z, hz, hzc⟩
  have hown := h.isOwn hz
  by_cases hyo : y.IsOwn
  · exact hq (h.apart.own_inj hyo hown hc hzc ▸ hz)
  · have hg : y.part = .globals := by
      unfold Program.Knows at hy
      unfold Operand.IsOwn at hyo
      cases hp : y.part <;> simp_all [Memory.cell?, Memory.cells?]
    exact Nat.not_lt.mpr (h.apart.own_ge hown hzc) (h.apart.globals_lt hg hc)

/-- A step of an instruction that exposes no guarded address. -/
theorem Guarded.moves_step {env : Environment} {pc : Int} (h : m.Guarded base Q)
    (hlink : ∀ link, env.linker = some link → link.StaysIn fun c => ¬ m.IsGuard Q c)
    (hx : ∀ x, instructionAt? env.program pc = some x →
      (∀ y ∈ x.operands, env.program.Knows y) ∧
      ∀ i y, x.exposes i = true → x.operands[i]? = some y → ¬ Q y) :
    Moves (fun c => ¬ m.IsGuard Q c) m (finalState (step env pc m)) := by
  refine Machine.moves_step h.within h.addressable hlink fun x hi i y c he hy hc => ?_
  obtain ⟨hknows, hq⟩ := hx x hi
  exact h.not_isGuard (hknows y (List.mem_of_getElem? hy)) (hq i y he hy) hc

/-! ### Between two runs -/

theorem unlink_eq_self {s : Store} {c : CellId} (h : (s.cell c).target = none) :
    s.unlink c = s := by
  unfold Store.unlink Store.setCell
  congr 1
  apply Array.ext
  · simp
  · intro i h₁ h₂
    rw [Array.getElem_modify]
    split
    · rename_i hci
      subst hci
      have hcell : s.cell c = s.cells[c] := by simp [Store.cell, h₂]
      rw [hcell] at h
      cases hx : s.cells[c]
      simp_all
    · rfl

theorem Guarded.moves_unlink {c : CellId} (h : m.Guarded base Q) :
    Moves (fun c => ¬ m.IsGuard Q c) m { m with world.store := m.store.unlink c } := by
  refine .of_touches h.within ?_
  by_cases hc : m.IsGuard Q c
  · rw [unlink_eq_self (h.isolated hc).target_eq]
    exact .refl h.within.region
  · exact .unlink h.within.region hc

theorem Guarded.moves_unlinkAll (cs : List CellId) (h : m.Guarded base Q) :
    Moves (fun c => ¬ m.IsGuard Q c) m { m with world.store := cs.foldl Store.unlink m.store } := by
  induction cs generalizing m with
  | nil => exact .refl h.within
  | cons c cs ih =>
    have h₁ := h.moves_unlink (c := c)
    exact h₁.trans (ih (h.moves h₁))

/-- The machine for another run on the same memory, with other globals. -/
def rewound (m : Machine) (globals : Array CellId) : Machine :=
  { world := { m.world with store := (m.memory.rewind m.store).2 },
    memory := (m.memory.rewind m.store).1.bindGlobals globals }

theorem cell?_rewound {globals : Array CellId} {y : Operand} (hy : y.IsOwn) :
    (m.rewound globals).memory.cell? y = m.memory.cell? y := by
  rcases hy with hy | hy | hy <;>
    simp [rewound, Memory.cell?, Memory.cells?, hy, Memory.rewind, Memory.bindGlobals]

theorem rewound_store (globals : Array CellId) :
    (m.rewound globals).store =
      (m.memory.locals ++ m.memory.registers).toList.foldl Store.unlink m.store := by
  simp [rewound, store, Memory.rewind]

theorem Guarded.rewound {globals : Array CellId} (h : m.Guarded base Q)
    (hg : ∀ c ∈ globals, c < base) : (m.rewound globals).Guarded base Q := by
  have hm := h.moves_unlinkAll (m.memory.locals ++ m.memory.registers).toList
  have h₁ := h.moves hm
  rw [← rewound_store globals] at h₁
  have hown : ∀ {y : Operand}, y.IsOwn → (m.rewound globals).memory.cell? y = m.memory.cell? y :=
    cell?_rewound
  have hglobal : ∀ {y c}, y.part = .globals → (m.rewound globals).memory.cell? y = some c →
      c < base := by
    intro y c hy hc
    simp only [Machine.rewound, Memory.cell?, hy, Memory.cells?, Memory.bindGlobals,
      Option.bind_some] at hc
    split at hc
    · cases hc
    · exact hg c (Array.mem_of_getElem? hc)
  refine ⟨h₁.sound, h₁.base_le, fun y c hc => ?_, ⟨fun hy hc => ?_, fun hy hz hc hd => ?_, hglobal⟩,
    h.isOwn, fun {c} hc => ?_, by simp [Machine.rewound, Memory.rewind, Memory.bindGlobals]⟩
  · by_cases hy : y.IsOwn
    · exact h₁.addressable y c (hown hy ▸ hc)
    · unfold Operand.IsOwn at hy
      cases hp : y.part with
      | globals => exact Nat.lt_of_lt_of_le (hglobal hp hc) h₁.base_le
      | stack => simp [Memory.cell?, hp, Memory.cells?, Machine.rewound, Memory.rewind,
          Memory.bindGlobals] at hc
      | absent | unknown => simp [Memory.cell?, hp, Memory.cells?] at hc
      | locals | constants | registers => simp [hp] at hy
  · exact h.apart.own_ge hy (hown hy ▸ hc)
  · exact h.apart.own_inj hy hz (hown hy ▸ hc) (hown hz ▸ hd)
  · obtain ⟨y, hy, hc⟩ := hc
    exact h₁.isolated ⟨y, hy, hown (h.isOwn hy) ▸ hc⟩

theorem Guarded.holds_rewound {globals : Array CellId} {c : CellId} (h : m.Guarded base Q)
    (hc : m.IsGuard Q c) (ho : m.store.Holds c o) : (m.rewound globals).store.Holds c o := by
  rw [rewound_store]
  exact h.holds (h.moves_unlinkAll _) hc ho

/-! ### A new memory -/

section Allocated

variable {s t : Store} {layout : Layout} {globals : Array CellId} {mem : Memory} {y : Operand}
  {c : Nat}

/-- Where the cell of an own address is. -/
theorem cell?_of_allocated (h : Memory.Allocated s layout globals mem t) (hy : y.IsOwn)
    (hc : mem.cell? y = some c) :
    0 ≤ y.addr ∧
      (y.part = .locals ∧ y.addr.toNat < mem.locals.size ∧ c = s.cells.size + y.addr.toNat ∨
        y.part = .registers ∧ y.addr.toNat < mem.registers.size ∧
          c = s.cells.size + mem.locals.size + y.addr.toNat ∨
        y.part = .constants ∧ y.addr.toNat < layout.immediates.length ∧
          c = s.cells.size + mem.locals.size + mem.registers.size + y.addr.toNat) := by
  have hl := h.locals_eq
  have hr := h.registers_eq
  have hcs := h.constants_eq
  rcases hy with hy | hy | hy <;> simp only [Memory.cell?, hy, Memory.cells?, Option.bind_some] at hc
  all_goals
    split at hc
    · cases hc
    rename_i ha
    refine ⟨by omega, ?_⟩
  · rw [hl, Memory.getElem?_consecutive] at hc
    have hlen : mem.locals.size = Memory.extentSize layout.greatestLocal := by rw [hl]; simp
    split at hc
    · cases hc
      exact .inl ⟨hy, by omega, rfl⟩
    · cases hc
  · rw [hr, Memory.getElem?_consecutive] at hc
    have hlen : mem.registers.size = Memory.extentSize layout.greatestRegister := by rw [hr]; simp
    split at hc
    · cases hc
      exact .inr (.inl ⟨hy, by omega, rfl⟩)
    · cases hc
  · rw [hcs, Memory.getElem?_consecutive] at hc
    split at hc
    · cases hc
      exact .inr (.inr ⟨hy, by omega, rfl⟩)
    · cases hc

theorem apart_of_allocated (h : Memory.Allocated s layout globals mem t)
    (hg : ∀ c ∈ globals, c < s.cells.size) : mem.Apart s.cells.size := by
  refine ⟨fun hy hc => ?_, fun {y z c} hy hz hc hd => ?_, fun {y c} hy hc => ?_⟩
  · obtain ⟨_, h₁ | h₁ | h₁⟩ := cell?_of_allocated h hy hc <;> omega
  · obtain ⟨hy₀, h₁⟩ := cell?_of_allocated h hy hc
    obtain ⟨hz₀, h₂⟩ := cell?_of_allocated h hz hd
    obtain ⟨py, ay⟩ := y
    obtain ⟨pz, az⟩ := z
    simp only at hy₀ hz₀ h₁ h₂
    simp only [Operand.mk.injEq]
    rcases h₁ with ⟨rfl, h₁, h₁'⟩ | ⟨rfl, h₁, h₁'⟩ | ⟨rfl, h₁, h₁'⟩ <;>
      rcases h₂ with ⟨rfl, h₂, h₂'⟩ | ⟨rfl, h₂, h₂'⟩ | ⟨rfl, h₂, h₂'⟩ <;>
      first
      | exact ⟨rfl, by omega⟩
      | omega
  · simp only [Memory.cell?, hy, Memory.cells?, Option.bind_some, h.globals_eq] at hc
    split at hc
    · cases hc
    · exact hg c (Array.mem_of_getElem? hc)

theorem guarded_of_allocated {journal : Array String}
    (h : Memory.Allocated s layout globals mem t) (hs : s.Sound)
    (hg : ∀ c ∈ globals, c < s.cells.size) (hown : ∀ {y}, Q y → y.IsOwn) :
    ({ world := ⟨t, journal⟩, memory := mem } : Machine).Guarded s.cells.size Q := by
  have hapart := apart_of_allocated h hg
  have hsize := h.size_eq
  have hlt : ∀ {y} {c : Nat}, y.IsOwn → mem.cell? y = some c → c < t.cells.size := by
    intro y c hy hc
    obtain ⟨_, h₁ | h₁ | h₁⟩ := cell?_of_allocated h hy hc <;> omega
  refine ⟨h.adds.touches.sound hs, h.adds.size_le, fun y c hc => ?_, hapart, hown,
    fun {c} hc => ?_, by simp [h.stack_eq]⟩
  · by_cases hy : y.IsOwn
    · exact hlt hy hc
    · unfold Operand.IsOwn at hy
      cases hp : y.part with
      | globals => exact Nat.lt_of_lt_of_le (hapart.globals_lt hp hc) h.adds.size_le
      | stack => simp [Memory.cell?, hp, Memory.cells?, h.stack_eq] at hc
      | absent | unknown => simp [Memory.cell?, hp, Memory.cells?] at hc
      | locals | constants | registers => simp [hp] at hy
  · obtain ⟨y, hy, hc⟩ := hc
    exact h.adds.isolated c (hapart.own_ge (hown hy) hc) (hlt (hown hy) hc)

end Allocated

end Machine

end VectorMachine
