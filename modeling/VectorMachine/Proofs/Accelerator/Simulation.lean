import VectorMachine.Proofs.Accelerator.Slots
import VectorMachine.Proofs.Machine.Parallel

/-!
# Units follow the machine

An accelerated run keeps some scalars in slots while the machine keeps them in cells.  The machine
is followed by a state of the accelerator if the cells without a slot match and each slot has the
value that its cell has in the machine; what the accelerator's own cell of a slot holds does not
matter, unless the slot has no value.  Each unit does what the machine does with its instruction.
-/

namespace VectorMachine
set_option autoImplicit false

open Accelerator (Plan Slot SlotId State Typing)
open Store (Pairing Matches)

/-- Whether an operand stands for nothing or has a cell, so that fetching it cannot fail. -/
def Memory.Fetches (m : Memory) (y : Operand) : Prop :=
  y.part = .absent ∨ ∃ c, m.cell? y = some c

/-- The operands of the instruction that no unit fetches can be fetched: all operands of an instruction
without effect, and with cached scalars the first one of a jump. -/
def Machine.Heeds (cache : Bool) (m : Machine) (z : Instruction) : Prop :=
  ∀ (i : Nat) (y : Operand), z.operands[i]? = some y →
    (Accelerator.isNoOperation z.opcode = true ∨
      cache = true ∧ i = 0 ∧ ∃ on, z.opcode = .jump on) → m.memory.Fetches y

namespace Launch

variable {l : Launch} {cache : Bool} {plan : Plan} {R : Pairing} {m : Machine} {x y : State}
  {c : CellId} {i : SlotId} {slot : Slot} {o : Option Scalar}

/-- The partitions have a cell for each address that the program declares, and jumps go to
addresses that no host can change. -/
structure Regular (l : Launch) : Prop where
  valid : l.Valid
  respects : ∀ link, l.linker = some link → link.Respects True
  labels : ∀ z ∈ l.program.code, ∀ on, z.opcode = .jump on →
    ∀ y, z.operands[1]? = some y → y.part ≠ .globals
  locals_lt : l.program.greatestAddress .locals < 2 ^ 63 - 1
  registers_lt : l.program.greatestAddress .registers < 2 ^ 63 - 1

/-- What units rely on: host code does the same with paired containers, typed addresses have
cells, and the label of a jump is there when the plan is compiled and no global if the plan keeps
its value. -/
structure Steady (l : Launch) (cache : Bool) : Prop where
  valid : l.Valid
  respects : ∀ link, l.linker = some link → link.Respects True
  cells : ∀ {y t}, (l.typingOf cache).type? y = some t → ∃ c, l.memory.cell? y = some c
  labels : cache = true → ∀ z ∈ l.program.code, ∀ on, z.opcode = .jump on →
    ∀ a, z.operands[1]? = some a → l.memory.Fetches a
  fixed : ∀ z ∈ l.program.code, ∀ on, z.opcode = .jump on →
    ∀ a b, z.operands[1]? = some a → z.operands[2]? = some b →
      (l.typingOf cache).type? b = some .bool → a.part ≠ .globals

/-- What the unit of an instruction relies on in a state of the machine: host code that is called
does the same with paired containers, the label of a jump on a slot is no global, and the operands
that no unit fetches can be fetched. -/
structure Relies (l : Launch) (cache : Bool) (m : Machine) (z : Instruction) : Prop where
  respects : z.opcode = .callExternal → ∀ link, l.linker = some link → link.Respects True
  fixed : ∀ on, z.opcode = .jump on → ∀ a b, z.operands[1]? = some a → z.operands[2]? = some b →
    (l.typingOf cache).type? b = some .bool → a.part ≠ .globals
  fetches : m.Heeds cache z

/-- Addresses whose cells are not kept in slots. -/
def Open (l : Launch) (plan : Plan) (y : Operand) : Prop :=
  y.part = .globals ∨ y.IsOwn ∧ ∀ c, l.memory.cell? y = some c → ¬ plan.Caches c

/-- The cells that are there when the memory is new. -/
def Old (l : Launch) (c : CellId) : Prop := c < l.store.cells.size

theorem Open.cell (hp : l.Planned cache plan) (hm : l.Sealed (l.typingOf cache) m) {y : Operand}
    (hy : l.Open plan y) (hc : m.memory.cell? y = some c) : ¬ plan.Caches c := by
  rcases hy with hy | ⟨hown, hy⟩
  · intro hcached
    obtain ⟨z, hz, hzc⟩ := hp.isGuard hm hcached
    have hge := hm.guarded.apart.own_ge (hm.guarded.isOwn hz) hzc
    exact Nat.not_lt.mpr hge (hm.guarded.apart.globals_lt hy hc)
  · exact hy c ((hm.own hown).symm.trans hc)

/-- The machine `m` is followed by the state `x` of the accelerator. -/
structure Follows (l : Launch) (cache : Bool) (plan : Plan) (R : Pairing) (m : Machine)
    (x : State) : Prop where
  isSealed : l.Sealed (l.typingOf cache) m
  isSealed' : l.Sealed (l.typingOf cache) x.machine
  tied : Machine.Tied True (l.Open plan) R m x.machine
  apart : ∀ {c c'}, R c c' → ¬ plan.Caches c ∧ ¬ plan.Caches c'
  old : ∀ {c}, l.Old c → ¬ plan.Caches c → R c c
  globals : m.memory.globals = x.machine.memory.globals
  size_eq : x.values.size = plan.slots.size
  values : ∀ {i slot}, plan.slots[i]? = some slot → m.store.Holds slot.cell (x.value? i)
  backed : ∀ {i slot}, plan.slots[i]? = some slot → x.value? i = none →
    x.store.Holds slot.cell none

/-! ### Writing slots back -/

theorem Follows.type_eq (hp : l.Planned cache plan) (h : l.Follows cache plan R m x) {v : Scalar}
    (hi : plan.slots[i]? = some slot) (hv : x.value? i = some v) : v.type = slot.type := by
  obtain ⟨ht, hcell, -⟩ := hp.typed_slot hi
  obtain ⟨o, ho, hty⟩ := h.isSealed.suits ht hcell
  have hold := h.values hi
  rw [hv] at hold
  obtain rfl := ho.unique hold rfl
  exact hty v rfl

theorem Follows.constant (hl : l.Valid) (hp : l.Planned cache plan)
    (h : l.Follows cache plan R m x) (hi : plan.slots[i]? = some slot)
    (hc : slot.isConstant = true) : x.store.Holds slot.cell (x.value? i) := by
  obtain ⟨-, hcell, -⟩ := hp.typed_slot hi
  have hconst : slot.operand.IsConstant := beq_iff_eq.mp hc
  obtain ⟨-, v, -, -, hv⟩ := hl.holds_constant hconst hcell
  rw [← (h.isSealed.constants hconst hcell hv).unique (h.values hi) rfl]
  exact h.isSealed'.constants hconst hcell hv

theorem Follows.slotted (hl : l.Valid) (hp : l.Planned cache plan)
    (h : l.Follows cache plan R m x) : l.Slotted cache plan x := by
  refine ⟨h.isSealed', h.size_eq, fun hi hv => h.type_eq hp hi hv, fun hi hb => ?_⟩
  rcases hb with hc | hnone
  · exact h.constant hl hp hi hc
  · exact hnone ▸ h.backed hi hnone

/-- Writing slots back makes their cells hold their values, and the machine is still followed. -/
theorem Follows.flush (hl : l.Valid) (hp : l.Planned cache plan) (ids : List SlotId)
    (h : l.Follows cache plan R m x) :
    ∃ y, State.flush plan ids x = .ok () y ∧ l.Follows cache plan R m y ∧ y.values = x.values ∧
      ∀ i ∈ ids, y.Synced plan i := by
  obtain ⟨y, hy, hw, hsync⟩ := (h.slotted hl hp).flush hp ids
  have hval : ∀ i, y.value? i = x.value? i := fun i => by simp only [State.value?, hw.values]
  have hs := hw.slotted
  refine ⟨y, hy, ⟨h.isSealed, hs.isSealed, ?_, h.apart, h.old, ?_, hs.size_eq, fun hi => ?_,
    fun hi hnone => ?_⟩, hw.values, hsync⟩
  · rw [hw.machine]
    exact ⟨hw.matching (fun hc => (h.apart hc).2) h.tied.store, h.tied.journal, h.tied.running,
      h.tied.stack, h.tied.off_stack, h.tied.cells, h.tied.sizes⟩
  · rw [hw.machine]
    exact h.globals
  · rw [hval]
    exact h.values hi
  · have := hs.backed hi (.inr hnone)
    rwa [hnone] at this

theorem Sealed.globals_step {g : Typing} (hl : l.Valid) (h : l.Sealed g m) (pc : Int) :
    (finalState (Machine.step l.environment pc m)).memory.globals = m.memory.globals := by
  have hQ : m.Guarded l.base fun _ => False := h.guarded.mono fun hf => hf.elim
  exact (hQ.moves_step (hl.staysIn hQ.isOwn h.own) fun z hz =>
    ⟨(hl.admissible hz).knows, fun _ _ _ _ hf => hf⟩).globals

/-! ### Falling back to the machine -/

/-- The cells of slots that have been written back. -/
def Flushed (plan : Plan) (ids : List SlotId) (c : CellId) : Prop :=
  ∃ i ∈ ids, ∃ slot, plan.slots[i]? = some slot ∧ slot.isConstant = false ∧ slot.cell = c

theorem Flushed.caches {ids : List SlotId} (h : Flushed plan ids c) : plan.Caches c := by
  obtain ⟨i, -, slot, hi, hc, rfl⟩ := h
  exact ⟨i, slot, hi, hc, rfl⟩

/-- The pairing with the cells that have been written back. -/
def Rejoined (plan : Plan) (ids : List SlotId) (R : Pairing) : Pairing :=
  fun c c' => R c c' ∨ c = c' ∧ Flushed plan ids c

/-- The addresses whose cells are paired then. -/
def OpenWith (l : Launch) (plan : Plan) (ids : List SlotId) (y : Operand) : Prop :=
  l.Open plan y ∨ y.IsOwn ∧ ∃ c, l.memory.cell? y = some c ∧ Flushed plan ids c

theorem Follows.tied_flushed {ids : List SlotId} (hp : l.Planned cache plan)
    (h : l.Follows cache plan R m x) (hs : ∀ i ∈ ids, x.Synced plan i) :
    Machine.Tied True (l.OpenWith plan ids) (Rejoined plan ids R) m x.machine := by
  refine ⟨?_, h.tied.journal, h.tied.running, h.tied.stack.imp fun _ _ => .inl, ?_, ?_,
    h.tied.sizes⟩
  · refine h.tied.store.join (P := fun c c' => c = c' ∧ Flushed plan ids c) ?_ ?_ ?_
    · rintro p p' ⟨rfl, hf⟩
      refine ⟨hp.isolated h.isSealed hf.caches, hp.isolated h.isSealed' hf.caches, ?_⟩
      obtain ⟨i, hi, slot, hslot, -, rfl⟩ := hf
      exact (h.values hslot).sameData (hs i hi slot hslot)
    · rintro p p' q q' ⟨rfl, -⟩ ⟨rfl, -⟩
      exact Iff.rfl
    · rintro c c' p p' hc ⟨rfl, hf⟩
      exact ⟨fun he => (h.apart hc).1 (he ▸ hf.caches), fun he => (h.apart hc).2 (he ▸ hf.caches)⟩
  · rintro y (hy | ⟨hy, -⟩)
    · exact h.tied.off_stack hy
    · exact Memory.stack_ne_of_own hy
  · rintro y (hy | ⟨hy, c, hc, hf⟩)
    · exact Store.rel_mono .inl (h.tied.cells hy)
    · rw [h.isSealed.own hy, h.isSealed'.own hy, hc]
      exact .some (.inr ⟨rfl, hf⟩)

theorem Planned.slot_of_cell (hl : l.Valid) (hp : l.Planned cache plan) {y : Operand}
    (hy : y.IsOwn) (hyc : l.memory.cell? y = some c) (hc : plan.Caches c) :
    ∃ (i : Nat) (slot : Slot), plan.slots[i]? = some slot ∧ slot.isConstant = false ∧
      slot.operand = y ∧ slot.cell = c := by
  have hnew : l.Sealed (l.typingOf cache) l.machine := .allocated hl types_typingOf
  obtain ⟨i, slot, hi, hconst, rfl⟩ := hc
  obtain ⟨-, hcell, hown⟩ := hp.typed_slot hi
  exact ⟨i, slot, hi, hconst, hnew.guarded.apart.own_inj hown hy hcell hyc, rfl⟩

theorem Planned.open_of_untyped (hl : l.Valid) (hp : l.Planned cache plan) {y : Operand}
    (hk : l.program.Knows y) (habs : y.part ≠ .absent)
    (ht : (l.typingOf cache).type? y = none) : l.Open plan y := by
  by_cases hown : y.IsOwn
  · refine .inr ⟨hown, fun c hc hcached => ?_⟩
    obtain ⟨i, slot, hi, -, rfl, -⟩ := hp.slot_of_cell hl hown hc hcached
    have := (hp.typed_slot hi).1
    rw [ht] at this
    cases this
  · unfold Program.Knows at hk
    unfold Operand.IsOwn at hown
    cases hpart : y.part <;> simp_all [Open]

/-- The operands of an instruction are paired when its slots have been written back. -/
theorem pairs_operands {z : Instruction} {ids : List SlotId} (hl : l.Valid)
    (hp : l.Planned cache plan) (hz : z ∈ l.program.code)
    (hc : Accelerator.Caches (Accelerator.sourceOf l.program l.store l.memory cache) plan.slots z ids) :
    Machine.Pairs (l.OpenWith plan ids) z.operands ∧
      (z.note.part = .absent ∨ l.OpenWith plan ids z.note) := by
  have hadm := hl.wellFormed.code z hz
  have hslot := fun {y c} => hp.slot_of_cell hl (y := y) (c := c)
  refine ⟨fun y hy => ?_, ?_⟩
  · have hk := hadm.knows y hy
    by_cases hown : y.IsOwn
    · refine .inr ?_
      by_cases hcached : ∃ c, l.memory.cell? y = some c ∧ plan.Caches c
      · obtain ⟨c, hyc, hcached⟩ := hcached
        obtain ⟨i, slot, hi, hconst, rfl, rfl⟩ := hslot hown hyc hcached
        obtain ⟨j, hj, slot', hj', hop⟩ := hc.covers _ hy _ (hp.typed_slot hi).1
        obtain rfl := hp.slots.inj hj' hi hop
        exact .inr ⟨hown, _, hyc, _, hj, slot, hi, hconst, rfl⟩
      · exact .inl (.inr ⟨hown, fun c hyc hcc => hcached ⟨c, hyc, hcc⟩⟩)
    · unfold Program.Knows at hk
      unfold Operand.IsOwn at hown
      cases hpart : y.part <;> simp_all [OpenWith, Open]
  · rcases hadm.notes.2 with hn | hn
    · exact .inl hn
    · refine .inr (.inl (.inr ⟨.inr (.inr hn), fun c hyc hcached => ?_⟩))
      obtain ⟨i, slot, -, hconst, he, -⟩ := hslot (.inr (.inr hn)) hyc hcached
      simp [Slot.isConstant, he, hn] at hconst

/-- The pairing without the cells that are kept in slots. -/
def Parted (plan : Plan) (R : Pairing) : Pairing :=
  fun c c' => R c c' ∧ ¬ plan.Caches c ∧ ¬ plan.Caches c'

/-- A machine that is tied to another one is followed by every state with that machine whose slots
have the right values. -/
theorem follows_of_tied {D : Operand → Prop} (hp : l.Planned cache plan)
    (hD : ∀ {y}, l.Open plan y → D y) (ht : Machine.Tied True D R m x.machine)
    (hm : l.Sealed (l.typingOf cache) m) (hx : l.Sealed (l.typingOf cache) x.machine)
    (hold : ∀ {c}, l.Old c → ¬ plan.Caches c → R c c)
    (hglobals : m.memory.globals = x.machine.memory.globals)
    (hsize : x.values.size = plan.slots.size)
    (hvalues : ∀ {i slot}, plan.slots[i]? = some slot → m.store.Holds slot.cell (x.value? i))
    (hbacked : ∀ {i slot}, plan.slots[i]? = some slot → x.value? i = none →
      x.store.Holds slot.cell none) :
    l.Follows cache plan (Parted plan R) m x := by
  have hstack : ∀ {n : Machine}, l.Sealed (l.typingOf cache) n → ∀ c ∈ n.memory.stack,
      ¬ plan.Caches c :=
    fun hn c hc hcached => hn.guarded.off_stack c hc (hp.isGuard hn hcached)
  refine ⟨hm, hx, ⟨?_, ht.journal, ht.running, ?_, ?_, fun hy => ?_, ht.sizes⟩, fun hc => hc.2,
    fun ho hn => ⟨hold ho hn, hn, hn⟩, hglobals, hsize, hvalues, hbacked⟩
  · refine ht.store.restrict (fun hc => hc.1) fun hc hd hd' hR => ⟨hR, ?_, ?_⟩
    · exact fun hcached => (hp.isolated hm hcached).unlinked _ hd
    · exact fun hcached => (hp.isolated hx hcached).unlinked _ hd'
  · refine List.forall₂_iff_get.mpr ⟨ht.stack.length_eq, fun i hi hi' => ⟨?_, ?_, ?_⟩⟩
    · exact ht.stack.get hi hi'
    · exact hstack hm _ (by simp)
    · exact hstack hx _ (by simp)
  · rintro y (hy | ⟨hy, -⟩)
    · simp [hy]
    · exact Memory.stack_ne_of_own hy
  · have hcells := ht.cells (hD hy)
    cases h₁ : m.memory.cell? _ <;> cases h₂ : x.machine.memory.cell? _ <;>
      rw [h₁, h₂] at hcells <;> cases hcells
    · exact .none
    · exact .some ⟨‹_›, hy.cell hp hm h₁, hy.cell hp hx h₂⟩

/-- What a step of the machine and a step of the accelerator have in common. -/
def Parallel (l : Launch) (cache : Bool) (plan : Plan) :
    EStateM.Result Stop Machine Int → EStateM.Result Stop State Int → Prop
  | .ok next m, .ok next' x => next = next' ∧ ∃ R, l.Follows cache plan R m x
  | .error e m, .error e' x => e = e' ∧ ∃ R, l.Follows cache plan R m x
  | _, _ => False

/-- After a step of both machines, slots that are not among the operands keep their values. -/
theorem Follows.stepped {z : Instruction} {ids : List SlotId} {pc : Int} (hl : l.Valid)
    (hp : l.Planned cache plan) (h : l.Follows cache plan R m x)
    (hz : Machine.instructionAt? l.program pc = some z)
    (hc : Accelerator.Caches (Accelerator.sourceOf l.program l.store l.memory cache) plan.slots z ids)
    (hi : plan.slots[i]? = some slot) (hn : i ∉ ids) :
    (finalState (Machine.step l.environment pc m)).store.Holds slot.cell (x.value? i) ∧
      (x.value? i = none →
        (finalState (Machine.step l.environment pc x.machine)).store.Holds slot.cell none) := by
  obtain ⟨ht, hcell, -⟩ := hp.typed_slot hi
  have hfree := hp.not_exposes hz hc hi hn
  exact ⟨h.isSealed.holds_step hl types_typingOf ht hcell (h.values hi) hfree,
    fun hnone => h.isSealed'.holds_step hl types_typingOf ht hcell (h.backed hi hnone) hfree⟩

/-- The cells of a written back slot hold the same scalar after a step of both machines. -/
theorem Follows.holds_flushed {ids : List SlotId} {m' n' : Machine} {R' : Pairing} (hl : l.Valid)
    (hp : l.Planned cache plan) (hm : l.Sealed (l.typingOf cache) m')
    (hn : l.Sealed (l.typingOf cache) n') (hle : (Rejoined plan ids R).Below R')
    (ht : Matches True R' m'.store n'.store) (hi : plan.slots[i]? = some slot) (hid : i ∈ ids) :
    m'.store.Holds slot.cell (Accelerator.loadSlot n'.store slot) ∧
      n'.store.Holds slot.cell (Accelerator.loadSlot n'.store slot) := by
  obtain ⟨hty, hcell, hown⟩ := hp.typed_slot hi
  have hcon := hp.isConcrete hi
  obtain ⟨o, ho, -⟩ := hm.suits hty hcell
  obtain ⟨o', ho', hty'⟩ := hn.suits hty hcell
  rw [loadSlot_eq ho' hcon hty']
  have heq : o = o' := by
    cases hc : slot.isConstant with
    | true =>
      have hconst : slot.operand.IsConstant := beq_iff_eq.mp hc
      obtain ⟨-, v, -, -, hv⟩ := hl.holds_constant hconst hcell
      rw [ho.unique (hm.constants hconst hcell hv) rfl,
        ho'.unique (hn.constants hconst hcell hv) rfl]
    | false =>
      have hR : R' slot.cell slot.cell := hle _ _ (.inr ⟨rfl, i, hid, slot, hi, hc, rfl⟩)
      exact ho.unique ho' (ht.alike hR).buffer?_eq
  exact ⟨heq ▸ ho, ho'⟩

/-- After a step of both machines the first one is followed again, if the slots of the operands
have the values of their cells and the others have kept theirs. -/
theorem Follows.resumed {z : Instruction} {ids : List SlotId} {pc : Int} {R' : Pairing}
    (hl : l.Valid) (hp : l.Planned cache plan) (h : l.Follows cache plan R m x)
    (hz : Machine.instructionAt? l.program pc = some z)
    (hc : Accelerator.Caches (Accelerator.sourceOf l.program l.store l.memory cache) plan.slots z ids)
    (hle : (Rejoined plan ids R).Below R')
    (ht : Machine.Tied True (l.OpenWith plan ids) R'
      (finalState (Machine.step l.environment pc m)) y.machine)
    (hy : y.machine = finalState (Machine.step l.environment pc x.machine))
    (hsize : y.values.size = plan.slots.size)
    (hout : ∀ {i slot}, plan.slots[i]? = some slot → i ∉ ids → y.value? i = x.value? i)
    (hin : ∀ {i slot}, plan.slots[i]? = some slot → i ∈ ids →
      (finalState (Machine.step l.environment pc m)).store.Holds slot.cell (y.value? i) ∧
        y.store.Holds slot.cell (y.value? i)) :
    ∃ R, l.Follows cache plan R (finalState (Machine.step l.environment pc m)) y := by
  have hm := h.isSealed.step hl types_typingOf pc
  have hn := h.isSealed'.step hl types_typingOf pc
  have hglobals : (finalState (Machine.step l.environment pc m)).memory.globals =
      (finalState (Machine.step l.environment pc x.machine)).memory.globals := by
    rw [h.isSealed.globals_step hl pc, h.isSealed'.globals_step hl pc, h.globals]
  refine ⟨_, follows_of_tied hp (fun hy => .inl hy) ht hm (hy ▸ hn)
    (fun ho hn => hle _ _ (.inl (h.old ho hn))) (hy ▸ hglobals) hsize (fun {i slot} hi => ?_)
    fun {i slot} hi hnone => ?_⟩
  · by_cases hid : i ∈ ids
    · exact (hin hi hid).1
    · rw [hout hi hid]
      exact (h.stepped hl hp hz hc hi hid).1
  · by_cases hid : i ∈ ids
    · exact hnone ▸ (hin hi hid).2
    · have := (h.stepped hl hp hz hc hi hid).2 (hout hi hid ▸ hnone)
      rwa [← hy] at this

/-- A step of both machines, after which the slots of the operands are loaded. -/
theorem Follows.reloaded {z : Instruction} {ids : List SlotId} {pc : Int} {R' : Pairing}
    (hl : l.Valid) (hp : l.Planned cache plan) (h : l.Follows cache plan R m x)
    (hz : Machine.instructionAt? l.program pc = some z)
    (hc : Accelerator.Caches (Accelerator.sourceOf l.program l.store l.memory cache) plan.slots z ids)
    (hle : (Rejoined plan ids R).Below R')
    (ht : Machine.Tied True (l.OpenWith plan ids) R'
      (finalState (Machine.step l.environment pc m)) y.machine)
    (hy : y.machine = finalState (Machine.step l.environment pc x.machine))
    (hv : y.values = x.values) :
    ∃ R, l.Follows cache plan R (finalState (Machine.step l.environment pc m)) (y.load plan ids) := by
  have hsize : y.values.size = plan.slots.size := by rw [hv, h.size_eq]
  have hm := h.isSealed.step hl types_typingOf pc
  have hn := hy ▸ h.isSealed'.step hl types_typingOf pc
  refine h.resumed hl hp hz hc hle ht hy ((size_load ids).trans hsize) (fun hi hid => ?_)
    fun hi hid => ?_
  · rw [value?_load hsize, if_neg hid]
    simp only [State.value?, hv]
  · rw [value?_load hsize, if_pos hid, hi]
    exact Follows.holds_flushed hl hp hm hn hle ht.store hi hid

/-- A step that aborts leaves the cells of the slots, so that they need not be loaded. -/
theorem Follows.aborted {z : Instruction} {ids : List SlotId} {pc : Int} {R' : Pairing}
    {e e' : Stop} {m' n' : Machine} (hl : l.Valid) (hp : l.Planned cache plan)
    (h : l.Follows cache plan R m x) (hs : ∀ i ∈ ids, x.Synced plan i)
    (hz : Machine.instructionAt? l.program pc = some z)
    (hc : Accelerator.Caches (Accelerator.sourceOf l.program l.store l.memory cache) plan.slots z ids)
    (hle : (Rejoined plan ids R).Below R')
    (hm : Machine.step l.environment pc m = .error e m')
    (hn : Machine.step l.environment pc x.machine = .error e' n')
    (ht : Machine.Tied True (l.OpenWith plan ids) R' m' n') (hy : y.machine = n')
    (hv : y.values = x.values) : ∃ R, l.Follows cache plan R m' y := by
  have hsize : y.values.size = plan.slots.size := by rw [hv, h.size_eq]
  have hval : ∀ i, y.value? i = x.value? i := fun i => by simp only [State.value?, hv]
  have hres := h.resumed (y := y) hl hp hz hc hle (by rw [hm]; exact hy ▸ ht) (by rw [hn]; exact hy)
    hsize (fun _ _ => hval _) fun {i slot} hi hid => by
      obtain ⟨hty, hcell, -⟩ := hp.typed_slot hi
      have h₁ := h.isSealed.holds_step_error hl types_typingOf hty hcell (h.values hi) hm
      have h₂ := h.isSealed'.holds_step_error hl types_typingOf hty hcell (hs i hid slot hi) hn
      rw [hval, hm]
      refine ⟨h₁, ?_⟩
      simp only [State.store, hy]
      exact h₂
  rwa [hm] at hres

theorem Follows.fallBack {z : Instruction} {ids : List SlotId} {pc : Int} (hl : l.Valid)
    (hp : l.Planned cache plan) (h : l.Follows cache plan R m x) (hb : l.Relies cache m z)
    (hz : Machine.instructionAt? l.program pc = some z)
    (hc : Accelerator.Caches (Accelerator.sourceOf l.program l.store l.memory cache) plan.slots z ids) :
    l.Parallel cache plan (Machine.step l.environment pc m)
      (Accelerator.fallBack l.environment plan ids pc x) := by
  obtain ⟨y, hy, h₁, -, hsync⟩ := h.flush hl hp ids
  have hstep : Machine.Relates True (l.OpenWith plan ids) (Rejoined plan ids R) Machine.Same
      (Machine.step l.environment pc m) (Machine.step l.environment pc y.machine) := by
    have hat : Machine.instructionAt? l.environment.program pc = some z := hz
    refine Machine.relates_step (h₁.tied_flushed hp hsync) (fun w hw => ?_) fun w hw => ?_
    · rw [hat] at hw
      cases hw
      exact hb.respects
    · rw [hat] at hw
      cases hw
      exact pairs_operands hl hp (Valid.mem_code z hz) hc
  obtain ⟨trace, width, hmachine⟩ := Accelerator.machineStep_eq l.environment pc y
  simp only [Accelerator.fallBack, bind, EStateM.bind, hy, hmachine]
  cases hm : Machine.step l.environment pc m <;>
    cases hn : Machine.step l.environment pc y.machine <;> rw [hm, hn] at hstep
  · obtain ⟨R', hle, ht, rfl⟩ := hstep
    refine ⟨rfl, ?_⟩
    have := h₁.reloaded (y := { y with machine := _, trace := trace, machineWidth := width })
      hl hp hz hc hle (by rw [hm]; exact ht) (by rw [hn]; rfl) rfl
    rwa [hm] at this
  · exact hstep.elim
  · exact hstep.elim
  · obtain ⟨rfl, R', hle, ht⟩ := hstep
    have hload := h₁.reloaded (y := { y with machine := _, trace := trace, machineWidth := width })
      hl hp hz hc hle (by rw [hm]; exact ht) (by rw [hn]; rfl) rfl
    rw [hm] at hload
    rename_i e m' n'
    cases e with
    | abort a => exact ⟨rfl, h₁.aborted hl hp hsync hz hc hle hm hn ht rfl rfl⟩
    | data d => exact ⟨rfl, hload⟩
    | canceled => exact ⟨rfl, hload⟩
    | deadline => exact ⟨rfl, hload⟩

end Launch

end VectorMachine
