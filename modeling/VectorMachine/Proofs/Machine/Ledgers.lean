import VectorMachine.Accelerator.Plan
import VectorMachine.Proofs.Machine.Effects
import VectorMachine.Proofs.Machine.Guarded
import VectorMachine.Proofs.Machine.Parallel
import VectorMachine.Proofs.Store.Leftovers
import VectorMachine.Proofs.Traces

/-!
# Ledgers

A used memory differs from a new one in what its locals and registers hold.  A ledger tells which of
them a run has assigned so far, and which it has only shaped by an allocation.  An instruction that
overwrites a destination of which nothing is known does the same on both memories.
-/

namespace VectorMachine
set_option autoImplicit false

open Store (Pairing Matches Agrees)

/-- What is the same of a container on every memory that a run starts with. -/
inductive Knowledge where
  | nothing
  | shape
  | data
  deriving DecidableEq, Repr

/-- What a run knows of the containers at all addresses. -/
abbrev Ledger := Operand → Knowledge

namespace Ledger

variable {k k' : Ledger} {y z : Operand} {v : Knowledge}

/-- At first nothing is known of locals and registers. -/
def start : Ledger := fun y =>
  if y.part = .locals ∨ y.part = .registers then .nothing else .data

def set (k : Ledger) (y : Operand) (v : Knowledge) : Ledger := fun z => if z = y then v else k z

@[simp] theorem set_self : k.set y v y = v := if_pos rfl

theorem set_of_ne (h : z ≠ y) : k.set y v z = k z := if_neg h

theorem set_eq_self (h : k y = v) : k.set y v = k := by
  funext z
  by_cases hz : z = y
  · rw [hz, set_self, h]
  · exact set_of_ne hz

/-- An allocation tells at least the shape. -/
def shaped (k : Ledger) (y : Operand) : Ledger := if k y = .nothing then k.set y .shape else k

theorem shaped_eq_data_iff : k.shaped y z = .data ↔ k z = .data := by
  unfold shaped
  split
  · by_cases hz : z = y
    · simp_all
    · rw [set_of_ne hz]
  · rfl

theorem of_shaped_eq_shape (h : k.shaped y z = .shape) : z = y ∨ k z = .shape := by
  unfold shaped at h
  split at h
  · by_cases hz : z = y
    · exact .inl hz
    · exact .inr ((set_of_ne hz).symm.trans h)
  · exact .inr h

/-- Only locals and registers are unknown. -/
def Working (k : Ledger) : Prop :=
  ∀ {y}, k y ≠ .data → y.part = .locals ∨ y.part = .registers

theorem working_start : start.Working := by
  intro y hy
  by_contra h
  exact hy (if_neg h)

/-- More is known in `k'` than in `k`. -/
def Below (k k' : Ledger) : Prop := ∀ y, k' y ≠ .data → k y ≠ .data

theorem ne_data_of_set (h : k.set y .data z ≠ .data) : z ≠ y ∧ k z ≠ .data := by
  have hzy : z ≠ y := fun hzy => h (hzy ▸ set_self)
  rw [set_of_ne hzy] at h
  exact ⟨hzy, h⟩

theorem below_set_data : k.Below (k.set y .data) := fun _ h => (ne_data_of_set h).2

theorem Working.set_data (h : k.Working) : (k.set y .data).Working :=
  fun hz => h (ne_data_of_set hz).2

theorem Working.shaped (h : k.Working) : (k.shaped y).Working :=
  fun hz => h fun hd => hz (shaped_eq_data_iff.mpr hd)

theorem Working.isOwn (h : k.Working) (hy : k y ≠ .data) : y.IsOwn :=
  (h hy).imp_right .inl

end Ledger

/-- What is known once the instruction has been executed. -/
def Instruction.after (x : Instruction) (k : Ledger) : Ledger :=
  match x.operands with
  | [] => k
  | d :: _ =>
    if x.opcode.allocates then k.shaped d
    else if x.opcode.writes then k.set d .data else k

namespace Machine

/-- The container that a move assigns. -/
def source? (m : Machine) (x : Instruction) : Option CellId :=
  match x.opcode with
  | .move => (x.operands[1]?).bind m.memory.cell?
  | .movePop => m.memory.stack.back?
  | _ => none

/-- Whether an instruction overwrites a destination without looking at more of it than is known: a
conversion and a filling look at its shape, and so does a move unless it assigns a scalar. -/
def overwrites (m : Machine) (x : Instruction) (known : Knowledge) : Bool :=
  match x.opcode with
  | .cast | .fill => known = .shape
  | .move | .movePop => known = .shape || (m.source? x).any fun c => m.store.rank c == 0
  | .callExternal => false
  | op => op.writes

/-- Whether an instruction looks at nothing that is not known. -/
def admits (k : Ledger) (x : Instruction) (m : Machine) : Bool :=
  Accelerator.isNoOperation x.opcode ||
    match x.operands with
    | [] => true
    | d :: ys => ys.all (k · = .data) && (k d = .data || m.overwrites x (k d))

/-- Whether a run from `pc` on, of so many steps at most, looks at nothing that is not known, and
knows the container at `result` in the end.  An error of the data shows the shapes of all
operands. -/
def assignsFirst (env : Environment) (result : Operand) : Nat → Ledger → Int → Machine → Bool
  | fuel, k, pc, m =>
    if pc < 0 ∨ (env.program.code.size : Int) ≤ pc then k result = .data
    else match fuel, instructionAt? env.program pc with
      | 0, _ | _, none => true
      | fuel + 1, some x => admits k x m &&
        match step env pc m with
        | .ok next n => assignsFirst env result fuel (x.after k) next n
        | .error (.data _) _ => x.operands.all (k · ≠ .nothing)
        | .error _ _ => true


variable {k k' : Ledger} {R R' : Pairing} {m m' n n' : Machine} {c c' : CellId} {y z d : Operand}
  {x : Instruction} {env : Environment} {pc : Int} {ys : List Operand}

/-! ### Unknown containers -/

/-- A cell of an address whose data are not known. -/
def Dust (k : Ledger) (m : Machine) (c : CellId) : Prop :=
  ∃ y, k y ≠ .data ∧ m.memory.cell? y = some c

/-- The containers that are not known are spare, and all own addresses have cells of their own. -/
structure Dusted (k : Ledger) (m : Machine) : Prop where
  sound : m.store.Sound
  spare : ∀ {c}, m.Dust k c → m.store.Spare c
  addressable : m.Addressable
  off_stack : ∀ c ∈ m.memory.stack, ¬ m.Dust k c
  off_globals : ∀ {y c}, y.part = .globals → m.memory.cell? y = some c → ¬ m.Dust k c
  distinct : ∀ {y z c}, y.IsOwn → z.IsOwn → m.memory.cell? y = some c →
    m.memory.cell? z = some c → y = z

theorem Dust.mono (hk : k.Below k') (h : m.Dust k' c) : m.Dust k c := by
  obtain ⟨y, hy, hc⟩ := h
  exact ⟨y, hk y hy, hc⟩

theorem Dusted.mono (h : m.Dusted k) (hk : k.Below k') : m.Dusted k' :=
  ⟨h.sound, fun hc => h.spare (hc.mono hk), h.addressable,
    fun c hc hd => h.off_stack c hc (hd.mono hk),
    fun hy hc hd => h.off_globals hy hc (hd.mono hk), h.distinct⟩

theorem Dusted.within (h : m.Dusted k) : m.Within fun c => ¬ m.Dust k c := by
  refine ⟨Store.region_of_isolated fun c hc => (h.spare hc).isolated,
    fun c hc => ⟨h.off_stack c hc, ?_⟩⟩
  obtain ⟨i, hi, rfl⟩ := Array.mem_iff_getElem.mp hc
  refine h.addressable ⟨.stack, (i : Int)⟩ _ ?_
  simp [Memory.cell?, Memory.cells?, Int.not_lt.mpr (Int.natCast_nonneg i), hi]

/-- The addresses whose containers are known. -/
def Known (k : Ledger) (y : Operand) : Prop := (y.part = .globals ∨ y.IsOwn) ∧ k y = .data

theorem Dusted.not_dust (h : m.Dusted k) (hw : k.Working) (hy : Known k y)
    (hc : m.memory.cell? y = some c) : ¬ m.Dust k c := by
  rcases hy with ⟨hy | hy, hk⟩
  · exact h.off_globals hy hc
  · rintro ⟨z, hz, hzc⟩
    exact hz (h.distinct hy (hw.isOwn hz) hc hzc ▸ hk)

/-- An operand that a program knows stands for nothing or for a container. -/
theorem known_of_knows {p : Program} (hy : p.Knows y) (hk : k y = .data) :
    y.part = .absent ∨ Known k y := by
  unfold Program.Knows at hy
  cases hp : y.part <;> simp_all [Known, Operand.IsOwn]

theorem known_note {p : Program} (hw : k.Working) (hn : p.Notes y) :
    y.part = .absent ∨ Known k y := by
  refine hn.2.imp_right fun hp => ⟨.inr (.inr (.inr hp)), ?_⟩
  by_contra hne
  rcases hw hne with hpart | hpart <;> rw [hp] at hpart <;> cases hpart

theorem Moves.dust_iff {C : CellId → Prop} (hw : k.Working) (hm : Moves C m n) :
    n.Dust k c ↔ m.Dust k c := by
  have hcell : ∀ y, k y ≠ .data → n.memory.cell? y = m.memory.cell? y :=
    fun y hy => hm.cell? (Memory.stack_ne_of_own (hw.isOwn hy))
  exact ⟨fun ⟨y, hy, hc⟩ => ⟨y, hy, hcell y hy ▸ hc⟩,
    fun ⟨y, hy, hc⟩ => ⟨y, hy, (hcell y hy).trans hc⟩⟩

theorem Dusted.moves (h : m.Dusted k) (hw : k.Working) (hm : Moves (fun c => ¬ m.Dust k c) m n) :
    n.Dusted k := by
  have hown : ∀ {y : Operand}, y.IsOwn → n.memory.cell? y = m.memory.cell? y :=
    fun hy => hm.cell? (Memory.stack_ne_of_own hy)
  refine ⟨hm.touches.sound h.sound, fun hc => ?_, hm.addressable h.addressable, fun c hc => ?_,
    fun {y c} hy hc => ?_, fun hy hz hyc hzc => h.distinct hy hz (hown hy ▸ hyc) (hown hz ▸ hzc)⟩
  · have hc := (hm.dust_iff hw).mp hc
    exact (h.spare hc).of_touches h.sound hm.touches fun hn => hn hc
  · rw [hm.dust_iff hw]
    exact (hm.stack c hc).1
  · rw [hm.cell? (by simp [hy])] at hc
    rw [hm.dust_iff hw]
    exact h.off_globals hy hc

theorem Dusted.moves_step (h : m.Dusted k) (hw : k.Working)
    (hlink : ∀ link, env.linker = some link → link.Confined)
    (hx : ∀ x, instructionAt? env.program pc = some x → (∀ y ∈ x.operands, env.program.Knows y) ∧
      ∀ i y, x.exposes i = true → x.operands[i]? = some y → k y = .data) :
    Moves (fun c => ¬ m.Dust k c) m (finalState (step env pc m)) := by
  refine Machine.moves_step h.within h.addressable (fun link hl => hlink link hl _)
    fun x hi i y c he hy hc => ?_
  obtain ⟨hknows, hk⟩ := hx x hi
  rcases known_of_knows (hknows y (List.mem_of_getElem? hy)) (hk i y he hy) with hy | hy
  · simp [Memory.cell?, hy, Memory.cells?] at hc
  · exact h.not_dust hw hy hc

/-! ### Two machines with unknown containers -/

/-- Two machines that differ in unknown containers only. -/
structure Dusty (k : Ledger) (R : Pairing) (m m' : Machine) : Prop where
  dusted : m.Dusted k
  dusted' : m'.Dusted k
  tied : Tied False (Known k) R m m'
  apart : ∀ {c c'}, R c c' → ¬ m.Dust k c ∧ ¬ m'.Dust k c'
  shapes : ∀ {y c c'}, k y = .shape → m.memory.cell? y = some c → m'.memory.cell? y = some c' →
    m.store.shape c = m'.store.shape c'

/-- The containers of an unknown address are in no pair. -/
theorem Dusty.ne_of_pair {e e' : CellId} (h : Dusty k R m m') (hd : k d ≠ .data)
    (hc : m.memory.cell? d = some c) (hc' : m'.memory.cell? d = some c') (he : R e e') :
    e ≠ c ∧ e' ≠ c' :=
  ⟨fun hec => (h.apart he).1 ⟨d, hd, hec ▸ hc⟩, fun hec => (h.apart he).2 ⟨d, hd, hec ▸ hc'⟩⟩

theorem forall₂_with_mem {S : CellId → CellId → Prop} {P P' : CellId → Prop}
    {cs cs' : List CellId} (h : List.Forall₂ S cs cs') (hP : ∀ c ∈ cs, P c)
    (hP' : ∀ c ∈ cs', P' c) : List.Forall₂ (fun c c' => S c c' ∧ P c ∧ P' c') cs cs' := by
  induction h with
  | nil => exact .nil
  | cons hc _ ih =>
    rw [List.forall_mem_cons] at hP hP'
    exact .cons ⟨hc, hP.1, hP'.1⟩ (ih hP.2 hP'.2)

/-- Pairs with isolated cells can be left out. -/
theorem Tied.restrict {D : Operand → Prop} {P P' : CellId → Prop} (h : Tied False D R m m')
    (hP : ∀ c, P c → m.store.Isolated c) (hP' : ∀ c, P' c → m'.store.Isolated c)
    (hstack : ∀ c ∈ m.memory.stack, ¬ P c) (hstack' : ∀ c ∈ m'.memory.stack, ¬ P' c)
    (hcells : ∀ {y c}, D y → m.memory.cell? y = some c → ¬ P c)
    (hcells' : ∀ {y c}, D y → m'.memory.cell? y = some c → ¬ P' c) :
    Tied False D (fun c c' => R c c' ∧ ¬ P c ∧ ¬ P' c') m m' where
  store := h.store.restrict And.left fun _ ht ht' hR =>
    ⟨hR, fun hd => (hP _ hd).unlinked _ ht, fun hd => (hP' _ hd).unlinked _ ht'⟩
  journal := h.journal
  running := h.running
  stack := forall₂_with_mem h.stack (fun c hc => hstack c (by simpa using hc)) fun c hc =>
    hstack' c (by simpa using hc)
  off_stack := h.off_stack
  cells {y} hy := by
    have := h.cells hy
    cases hc : m.memory.cell? y <;> cases hc' : m'.memory.cell? y <;> rw [hc, hc'] at this <;>
      cases this
    · exact .none
    · exact .some ⟨‹_›, hcells hy hc, hcells' hy hc'⟩
  sizes := h.sizes

theorem Dusty.moved (h : Dusty k R m m') (hw : k.Working) (hk : k.Below k')
    (hshape : ∀ y, k' y = .shape → k y = .shape) (hm : Moves (fun c => ¬ m.Dust k' c) m n)
    (hm' : Moves (fun c => ¬ m'.Dust k' c) m' n') (ht : Tied False (Known k') R' n n')
    (hle : R.Below R') : ∃ R'' : Pairing, R.Below R'' ∧ Dusty k' R'' n n' ∧
      ∀ {c c'}, R' c c' → ¬ m.Dust k' c → ¬ m'.Dust k' c' → R'' c c' := by
  have hw' : k'.Working := fun hy => hw (hk _ hy)
  have hd := (h.dusted.mono hk).moves hw' hm
  have hd' := (h.dusted'.mono hk).moves hw' hm'
  have hbelow : R.Below fun c c' => R' c c' ∧ ¬ n.Dust k' c ∧ ¬ n'.Dust k' c' := fun c c' hc =>
    ⟨hle c c' hc, fun hn => (h.apart hc).1 (((hm.dust_iff hw').mp hn).mono hk),
      fun hn => (h.apart hc).2 (((hm'.dust_iff hw').mp hn).mono hk)⟩
  refine ⟨_, hbelow, ⟨hd, hd', ht.restrict (fun c hc => (hd.spare hc).isolated)
    (fun c hc => (hd'.spare hc).isolated) hd.off_stack hd'.off_stack (fun hy => hd.not_dust hw' hy)
    fun hy => hd'.not_dust hw' hy, fun hc => hc.2, fun {y c c'} hy hc hc' => ?_⟩, fun hc hn hn' =>
    ⟨hc, fun hd => hn ((hm.dust_iff hw').mp hd), fun hd => hn' ((hm'.dust_iff hw').mp hd)⟩⟩
  have hne : k' y ≠ .data := by simp [hy]
  have hys : y.part ≠ .stack := Memory.stack_ne_of_own (hw'.isOwn hne)
  rw [hm.cell? hys] at hc
  rw [hm'.cell? hys] at hc'
  have hold : ∀ {a b : Machine} {d : CellId}, a.Dusted k → Moves (fun c => ¬ a.Dust k' c) a b →
      a.memory.cell? y = some d → b.store.shape d = a.store.shape d := fun ha hab hd =>
    ((ha.spare ⟨y, hk y hne, hd⟩).isolated.alike ha.sound hab.touches
      fun hn => hn ⟨y, hne, hd⟩).2.2.shape_eq
  rw [hold h.dusted hm hc, hold h.dusted' hm' hc']
  exact h.shapes (hshape y hy) hc hc'

/-! ### Fetching operands -/

theorem Dusty.fetchAll (h : Dusty k R m m') (hw : k.Working)
    (hys : ∀ y ∈ ys, y.part = .absent ∨ Known k y) :
    Jointly (fun cs cs' n n' => n.memory = m.memory ∧ n'.memory = m'.memory ∧
        ∃ R' : Pairing, R.Below R' ∧ Dusty k R' n n' ∧ List.Forall₂ R' cs cs')
      (fun n n' => ∃ R' : Pairing, R.Below R' ∧ Dusty k R' n n')
      (fetchAll ys m) (fetchAll ys m') := by
  have hf := relates_fetchAll h.tied hys
  obtain ⟨j, hj, hok⟩ := fetchAll_spec ys m
  obtain ⟨j', hj', hok'⟩ := fetchAll_spec ys m'
  have hm := moves_grown h.dusted.within j
  have hm' := moves_grown h.dusted'.within j'
  -- what is fetched is new, or the cell of a known address
  have hcells : ∀ {a b : Machine} {cs : List CellId}, a.Dusted k →
      List.Forall₂ (fun y c => Fetched a y c ∧ (y.part = .absent → c < b.store.cells.size)) ys cs →
      ∀ c ∈ cs, ¬ a.Dust k c := by
    intro a b cs ha hcs c hc hd
    obtain ⟨i, hi⟩ := List.getElem?_of_mem hc
    obtain ⟨y, hy, hfy, -⟩ := exists_of_forall₂ hcs hi
    unfold Fetched at hfy
    split at hfy
    · exact Nat.not_lt.mpr hfy (ha.spare hd).isolated.lt
    · rename_i hne
      exact ha.not_dust hw ((hys y (List.mem_of_getElem? hy)).resolve_left hne) hfy hd
  cases h₁ : Machine.fetchAll ys m <;> cases h₂ : Machine.fetchAll ys m' <;> rw [h₁, h₂] at hf
  · rename_i cs n cs' n'
    rw [h₁] at hj
    rw [h₂] at hj'
    obtain rfl : n = m.grown j := hj
    obtain rfl : n' = m'.grown j' := hj'
    obtain ⟨R₁, hle, ht, hcs⟩ := hf
    obtain ⟨R₂, hle₂, hd, hrest⟩ := h.moved hw (fun _ => id) (fun _ => id) hm hm' ht hle
    refine ⟨rfl, rfl, R₂, hle₂, hd, ?_⟩
    exact (forall₂_with_mem hcs (hcells h.dusted (hok _ _ h₁)) (hcells h.dusted' (hok' _ _ h₂))).imp
      fun c c' hc => hrest hc.1 hc.2.1 hc.2.2
  · exact hf.elim
  · exact hf.elim
  · rename_i e n e' n'
    rw [h₁] at hj
    rw [h₂] at hj'
    obtain rfl : n = m.grown j := hj
    obtain rfl : n' = m'.grown j' := hj'
    obtain ⟨rfl, R₁, hle, ht⟩ := hf
    obtain ⟨R₂, hle₂, hd, -⟩ := h.moved hw (fun _ => id) (fun _ => id) hm hm' ht hle
    exact ⟨rfl, R₂, hle₂, hd⟩

/-- Which addresses have a cell depends on the sizes of the partitions alone. -/
theorem cell?_eq_none_iff {mem : Memory} : mem.cell? y = none ↔
    ∀ size, (mem.cells? y.part).map Array.size = some size → y.addr < 0 ∨ size ≤ y.addr.toNat := by
  unfold Memory.cell?
  cases mem.cells? y.part with
  | none => simp
  | some cs =>
    simp only [Option.bind_some, Option.map_some, Option.some.injEq, forall_eq']
    split
    · simp [*]
    · simp [*]

theorem cell?_eq_none_congr {mem mem' : Memory}
    (hsize : (mem.cells? y.part).map Array.size = (mem'.cells? y.part).map Array.size) :
    mem.cell? y = none ↔ mem'.cell? y = none := by
  rw [cell?_eq_none_iff, cell?_eq_none_iff, hsize]

/-- Why an address of a partition of some size cannot be fetched. -/
def missing (y : Operand) : Option Nat → Abort
  | none => .fault { operation := "get", operand := y, detail := "unknown partition" }
  | some size => Memory.outside y size

theorem fetch_of_none (habs : y.part ≠ .absent) (h : m.memory.cell? y = none) :
    fetch y m = .error (missing y ((m.memory.cells? y.part).map Array.size)) m := by
  have hget : m.memory.get m.world.store y =
      .error (missing y ((m.memory.cells? y.part).map Array.size)) := by
    unfold Memory.cell? at h
    unfold Memory.get
    split
    · contradiction
    · cases hcs : m.memory.cells? y.part with
      | none => rfl
      | some cs =>
        simp only [hcs, Option.bind_some] at h
        by_cases hneg : y.addr < 0
        · simp only [hneg, if_true]
          rfl
        · simp only [hneg, if_false] at h ⊢
          rw [h]
          rfl
  rw [fetch_eq_get habs, hget]

/-- An address of partitions of the same size has a cell in both machines, or is missing in both. -/
theorem fetch_cases
    (hsize : (m.memory.cells? y.part).map Array.size = (m'.memory.cells? y.part).map Array.size)
    (habs : y.part ≠ .absent) :
    (∃ c c', m.memory.cell? y = some c ∧ m'.memory.cell? y = some c') ∨
      ∃ a, fetch y m = .error a m ∧ fetch y m' = .error a m' := by
  have hiff := cell?_eq_none_congr hsize
  cases hc : m.memory.cell? y with
  | none =>
    refine .inr ⟨_, fetch_of_none habs hc, ?_⟩
    rw [hsize]
    exact fetch_of_none habs (hiff.mp hc)
  | some c =>
    cases hc' : m'.memory.cell? y with
    | none => simp [hiff.mpr hc'] at hc
    | some c' => exact .inl ⟨c, c', rfl, rfl⟩

/-- Whether operands off the stack can be fetched depends on the sizes of the partitions, and what
is fetched for absent ones is new. -/
theorem fetchAll_grown (ys : List Operand) (hsizes : ∀ {p}, p ≠ .stack →
      (m.memory.cells? p).map Array.size = (m'.memory.cells? p).map Array.size)
    (hys : ∀ y ∈ ys, y.part ≠ .stack) :
    ∃ j, Jointly (fun _ _ n n' => n = m.grown j ∧ n' = m'.grown j)
      (fun n n' => n = m.grown j ∧ n' = m'.grown j) (Machine.fetchAll ys m)
      (Machine.fetchAll ys m') := by
  induction ys generalizing m m' with
  | nil => exact ⟨0, grown_zero.symm, grown_zero.symm⟩
  | cons y ys ih =>
    -- the rest is fetched from memories of the same sizes
    have hgo : ∀ (c c' : CellId) (i : Nat), fetch y m = .ok c (m.grown i) →
        fetch y m' = .ok c' (m'.grown i) →
        ∃ j, Jointly (fun _ _ n n' => n = m.grown j ∧ n' = m'.grown j)
          (fun n n' => n = m.grown j ∧ n' = m'.grown j) (Machine.fetchAll (y :: ys) m)
          (Machine.fetchAll (y :: ys) m') := fun c c' i h₁ h₂ => by
      obtain ⟨j, hj⟩ := @ih (m.grown i) (m'.grown i) hsizes
        fun z hz => hys z (List.mem_cons_of_mem _ hz)
      refine ⟨i + j, ?_⟩
      simp only [Machine.fetchAll, bind, EStateM.bind, h₁, h₂]
      simp only [grown_grown] at hj
      cases h₃ : Machine.fetchAll ys (m.grown i) <;> cases h₄ : Machine.fetchAll ys (m'.grown i) <;>
        rw [h₃, h₄] at hj <;> exact hj
    by_cases habs : y.part = .absent
    · exact hgo _ _ 1 (fetch_eq_of_absent habs) (fetch_eq_of_absent habs)
    · rcases fetch_cases (hsizes (hys y (by simp))) habs with ⟨c, c', hc, hc'⟩ | ⟨a, h₁, h₂⟩
      · refine hgo c c' 0 ?_ ?_ <;> rw [grown_zero]
        · exact fetch_eq_of_cell hc
        · exact fetch_eq_of_cell hc'
      · refine ⟨0, ?_⟩
        simp only [Machine.fetchAll, bind, EStateM.bind, h₁, h₂, grown_zero]
        exact ⟨rfl, rfl, rfl⟩

/-! ### Unknown destinations -/

section

variable {s s' : Store} {cs cs' : List CellId}

/-- The change of the store by an instruction that overwrites two spare containers. -/
theorem change?_spare (h : Matches False R s s') (hc : s.Spare c) (hc' : s'.Spare c')
    (hR : ∀ {d d'}, R d d' → d ≠ c ∧ d' ≠ c') (hcs : List.Forall₂ R cs cs')
    (hallocates : x.opcode.allocates = false)
    (hshape : x.opcode = .cast ∨ x.opcode = .fill → s.shape c = s'.shape c')
    (hmove : x.opcode = .move → s.shape c = s'.shape c' ∨ ∃ a ∈ cs'[0]?, s'.rank a = 0) :
    match change? x (c :: cs), change? x (c' :: cs') with
    | some f, some f' => Agrees (Matches False (R.with c c')) (f s) (f' s')
    | none, none => True
    | _, _ => False := by
  unfold change?
  cases hop : x.opcode
  case arithmetic op =>
    rcases hcs with _ | ⟨ha, _ | ⟨hb, hrest⟩⟩ <;> try trivial
    exact h.receive_spare hc hc' hR ((h.alike ha).arithmeticResult_eq (h.alike hb) op)
      (Store.gives_arithmeticResult op)
  case compare op =>
    rcases hcs with _ | ⟨ha, _ | ⟨hb, hrest⟩⟩ <;> try trivial
    exact h.receive_spare hc hc' hR ((h.alike ha).compareResult_eq (h.alike hb) op)
      (Store.gives_compareResult op)
  case connect op =>
    rcases hcs with _ | ⟨ha, _ | ⟨hb, hrest⟩⟩ <;> try trivial
    exact h.receive_spare hc hc' hR ((h.alike ha).connectResult_eq (h.alike hb) op)
      (h.sound.gives_connectResult op)
  case negate =>
    rcases hcs with _ | ⟨ha, hrest⟩ <;> try trivial
    exact h.receive_spare hc hc' hR (h.alike ha).negateResult_eq h.sound.gives_negateResult
  case not =>
    rcases hcs with _ | ⟨ha, hrest⟩ <;> try trivial
    exact h.receive_spare hc hc' hR (h.alike ha).complementResult_eq h.sound.gives_complementResult
  case free => exact h.free_spare hc hc' hR
  case move =>
    rcases hcs with _ | ⟨ha, hrest⟩ <;> try trivial
    refine h.move_spare hc hc' hR ha ((hmove hop).imp_right fun ⟨a, ha, hrank⟩ => ?_)
    cases ha
    exact hrank
  case cast =>
    rcases hcs with _ | ⟨ha, hrest⟩ <;> try trivial
    refine h.receive_spare hc hc' hR ?_ (h.sound.gives_castResult _)
    rw [hshape (.inl hop), (h.alike ha).castResult_eq]
  case fill =>
    rcases hcs with _ | ⟨ha, hrest⟩ <;> try trivial
    refine h.receive_spare hc hc' hR ?_ (Store.gives_fillResult _)
    rw [hshape (.inr hop), (h.alike ha).fillResult_eq]
  case refer =>
    rcases hcs with _ | ⟨ha, hrest⟩ <;> try trivial
    exact h.link_spare hc hc' hR ha
  case moveElement =>
    rcases hcs with _ | ⟨ha, hrest⟩ <;> try trivial
    exact h.receive_spare hc hc' hR (h.elementResult_eq _ ha hrest) (h.sound.gives_elementResult _)
  case referElement =>
    rcases hcs with _ | ⟨ha, hrest⟩ <;> try trivial
    exact h.referElement_spare hc hc' hR ha hrest
  case alloc | allocLike | allocTop => simp [hop, Opcode.allocates] at hallocates
  all_goals trivial

end

/-- An unknown destination that has been overwritten is known. -/
theorem Tied.known {s s' : Store} (h : Tied False (Known k) R m m') (hd : d.IsOwn)
    (hc : m.memory.cell? d = some c) (hc' : m'.memory.cell? d = some c')
    (hs : Matches False (R.with c c') s s') :
    Tied False (Known (k.set d .data)) (R.with c c') { m with world.store := s }
      { m' with world.store := s' } where
  store := hs
  journal := h.journal
  running := h.running
  stack := h.stack.imp fun _ _ => .inl
  off_stack {y} hy := by
    rcases hy.1 with hp | hp
    · simp [hp]
    · exact Memory.stack_ne_of_own hp
  cells {y} hy := by
    by_cases hyd : y = d
    · subst hyd
      simp only [hc, hc']
      exact .some (.inr ⟨rfl, rfl⟩)
    · exact Store.rel_mono .inl (h.cells ⟨hy.1, (Ledger.set_of_ne hyd).symm.trans hy.2⟩)
  sizes := h.sizes

/-- How a step ends that makes the container at an address known.  An error leaves the worlds. -/
abbrev Stored (k : Ledger) (R : Pairing) (d : Operand) (w w' : World) {α : Type} :
    EStateM.Result Failure Machine α → EStateM.Result Failure Machine α → Prop :=
  Jointly (fun a a' n n' => a = a' ∧
      ∃ R' : Pairing, R.Below R' ∧ Tied False (Known (k.set d .data)) R' n n')
    fun n n' => n.world = w ∧ n'.world = w' ∧ Tied False (Known k) R n n'

section

variable {cs cs' : List CellId}

theorem stored_onStore (v : Int) (f f' : Store → Except Failure Store)
    (h : Tied False (Known k) R m m') (hd : d.IsOwn)
    (hc : m.memory.cell? d = some c) (hc' : m'.memory.cell? d = some c')
    (hf : Agrees (Matches False (R.with c c')) (f m.store) (f' m'.store)) :
    Stored k R d m.world m'.world ((onStore f >>= fun _ => pure v) m)
      ((onStore f' >>= fun _ => pure v) m') := by
  simp only [bind, EStateM.bind, onStore]
  simp only [store] at hf
  cases h₁ : f m.world.store <;> cases h₂ : f' m'.world.store <;> rw [h₁, h₂] at hf
  · exact ⟨hf, rfl, rfl, h⟩
  · exact hf.elim
  · exact hf.elim
  · exact ⟨rfl, _, fun _ _ => .inl, h.known hd hc hc' hf⟩

/-- Both stacks are empty, or have paired containers on top. -/
theorem Tied.pop_cases {D : Operand → Prop} (h : Tied False D R m m') :
    (∃ e, pop m = .error e m ∧ pop m' = .error e m') ∨
    ∃ a a' n n', pop m = .ok a n ∧ pop m' = .ok a' n' ∧ m.memory.stack.back? = some a ∧
      m'.memory.stack.back? = some a' ∧ R a a' ∧ n.world = m.world ∧ n'.world = m'.world ∧
      (∀ y : Operand, y.part ≠ .stack → n.memory.cell? y = m.memory.cell? y ∧
        n'.memory.cell? y = m'.memory.cell? y) ∧ Tied False D R n n' := by
  obtain ⟨hb, hp⟩ := forall₂_back h.stack
  unfold pop Memory.pop
  cases h₁ : m.memory.stack.back? <;> cases h₂ : m'.memory.stack.back? <;> rw [h₁, h₂] at hb <;>
    cases hb
  · exact .inl ⟨_, rfl, rfl⟩
  · refine .inr ⟨_, _, _, _, rfl, rfl, rfl, rfl, ‹_›, rfl, rfl, fun y hy => ?_,
      h.withMemory (fun {p} hp => ?_) (fun {p} hp => ?_) hp⟩
    · exact ⟨Memory.cell?_of_stack_ne rfl rfl rfl rfl hy,
        Memory.cell?_of_stack_ne rfl rfl rfl rfl hy⟩
    all_goals cases p <;> first | rfl | exact absurd rfl hp

/-- Taking the top of the stack and storing by it. -/
theorem stored_pop (v : Int) (f f' : CellId → Store → Except Failure Store)
    (h : Tied False (Known k) R m m') (hd : d.IsOwn)
    (hc : m.memory.cell? d = some c) (hc' : m'.memory.cell? d = some c')
    (hf : ∀ {a a'}, R a a' → m'.memory.stack.back? = some a' →
      Agrees (Matches False (R.with c c')) (f a m.store) (f' a' m'.store)) :
    Stored k R d m.world m'.world ((pop >>= fun a => onStore (f a) >>= fun _ => pure v) m)
      ((pop >>= fun a => onStore (f' a) >>= fun _ => pure v) m') := by
  rcases h.pop_cases with ⟨e, h₁, h₂⟩ | ⟨a, a', n, n', h₁, h₂, -, hb, ha, hn, hn', hcell, ht⟩
  · simp only [bind, EStateM.bind, h₁, h₂]
    exact ⟨rfl, rfl, rfl, h⟩
  · simp only [bind, EStateM.bind, h₁, h₂]
    obtain ⟨hcd, hcd'⟩ := hcell d (Memory.stack_ne_of_own hd)
    rw [← hn, ← hn']
    refine stored_onStore v (f a) (f' a') ht hd (hcd.trans hc) (hcd'.trans hc') ?_
    simp only [store, hn, hn']
    exact hf ha hb

theorem Dusty.execute_stores (env : Environment) (pc : Int) (h : Dusty k R m m') (hw : k.Working)
    (hd : k d ≠ .data)
    (hc : m.memory.cell? d = some c) (hc' : m'.memory.cell? d = some c')
    (hcs : List.Forall₂ R cs cs') (hwrites : x.opcode.writes = true)
    (hallocates : x.opcode.allocates = false) (hcall : x.opcode ≠ .callExternal)
    (hshape : x.opcode = .cast ∨ x.opcode = .fill → k d = .shape)
    (hmove : x.opcode = .move → k d = .shape ∨ ∃ a ∈ cs'[0]?, m'.store.rank a = 0)
    (hpop : x.opcode = .movePop → k d = .shape ∨ ∃ a ∈ m'.memory.stack.back?, m'.store.rank a = 0) :
    Stored k R d m.world m'.world (execute env pc x (c :: cs) m)
      (execute env pc x (c' :: cs') m') := by
  have hs := h.dusted.spare ⟨d, hd, hc⟩
  have hs' := h.dusted'.spare ⟨d, hd, hc'⟩
  have hR : ∀ {e e'}, R e e' → e ≠ c ∧ e' ≠ c' := fun he => h.ne_of_pair hd hc hc' he
  have hown := hw.isOwn hd
  have hsame : k d = .shape → m.store.shape c = m'.store.shape c' := fun hk => h.shapes hk hc hc'
  have hchange := change?_spare (x := x) h.tied.store hs hs' hR hcs hallocates
    (fun hop => hsame (hshape hop)) (fun hop => (hmove hop).imp_left hsame)
  unfold execute
  cases hf : change? x (c :: cs) with
  | some f =>
    cases hf' : change? x (c' :: cs') with
    | some f' =>
      rw [hf, hf'] at hchange
      exact stored_onStore (pc + 1) f f' h.tied hown hc hc' hchange
    | none =>
      rw [hf, hf'] at hchange
      exact hchange.elim
  | none =>
    cases hf' : change? x (c' :: cs') with
    | some f' =>
      rw [hf, hf'] at hchange
      exact hchange.elim
    | none =>
      have hfail : Stored k R d m.world m'.world ((throw (.abort .breakdown) : Action Int) m)
          ((throw (.abort .breakdown) : Action Int) m') := ⟨rfl, rfl, rfl, h.tied⟩
      simp only
      unfold control
      cases hop : x.opcode
      case movePop =>
        refine stored_pop (pc + 1) (fun a s => s.move x.type c a) (fun a s => s.move x.type c' a)
          h.tied hown hc hc' fun ha hb' => ?_
        refine h.tied.store.move_spare hs hs' hR ha
          ((hpop hop).imp hsame fun ⟨b, hb, hrank⟩ => ?_)
        rw [hb'] at hb
        cases hb
        exact hrank
      case referPop =>
        exact stored_pop (pc + 1) (fun a s => .ok (s.link c a)) (fun a s => .ok (s.link c' a))
          h.tied hown hc hc' fun ha _ => h.tied.store.link_spare hs hs' hR ha
      case callExternal => exact absurd hop hcall
      case allocTop => simp [hop, Opcode.allocates] at hallocates
      all_goals first
        | exact hfail
        | simp [hop, Opcode.writes] at hwrites

end

theorem dust_shaped : m.Dust (k.shaped d) c ↔ m.Dust k c := by
  simp only [Dust, ne_eq, Ledger.shaped_eq_data_iff]

/-- Two unknown destinations that have been allocated have the same shape. -/
theorem Dusty.reshaped {s s' : Store} (h : Dusty k R m m') (hw : k.Working) (hd : k d ≠ .data)
    (hc : m.memory.cell? d = some c) (hc' : m'.memory.cell? d = some c')
    (hs : Store.Reshaped R m.store m'.store c c' s s') :
    Dusty (k.shaped d) R { m with world.store := s } { m' with world.store := s' } := by
  obtain ⟨hmatch, hrew, hrew', hspare, hspare', hshape⟩ := hs
  -- all other containers stay as they are
  have hother : ∀ {a : Machine} {t : Store} {b e : CellId}, a.Dusted k → a.store.Rewrites b t →
      e ≠ b → a.Dust k e → t.Spare e ∧ t.shape e = a.store.shape e := by
    intro a t b e ha hat hne he
    have hC : ¬ (e = b ∨ a.store.cells.size ≤ e) := fun hn => hn.elim hne
      fun hn => Nat.not_lt.mpr hn (ha.spare he).isolated.lt
    exact ⟨(ha.spare he).of_touches ha.sound hat.touches hC,
      ((ha.spare he).isolated.alike ha.sound hat.touches hC).2.2.shape_eq⟩
  have hdusted : ∀ {a : Machine} {t : Store} {b : CellId}, a.Dusted k → a.store.Rewrites b t →
      t.Spare b → ({ a with world.store := t } : Machine).Dusted (k.shaped d) := by
    intro a t b ha hat hb
    refine ⟨hat.touches.sound ha.sound, fun {e} he => ?_, fun y e he => ?_, fun e he hn => ?_,
      fun hy he hn => ?_, ha.distinct⟩
    · have he : a.Dust k e := dust_shaped.mp he
      by_cases heb : e = b
      · exact heb ▸ hb
      · exact (hother ha hat heb he).1
    · have hlt := ha.addressable y e he
      rwa [← hat.size_eq] at hlt
    · exact ha.off_stack e he (dust_shaped.mp hn)
    · exact ha.off_globals hy he (dust_shaped.mp hn)
  refine ⟨hdusted h.dusted hrew hspare, hdusted h.dusted' hrew' hspare', ?_, fun he => ?_,
    fun {y e e'} hy he he' => ?_⟩
  · have ht := h.tied.withStore (fun _ _ => id) hmatch
    have hknown : ∀ {y}, Known (k.shaped d) y → Known k y := fun hy =>
      ⟨hy.1, Ledger.shaped_eq_data_iff.mp hy.2⟩
    exact ⟨ht.store, ht.journal, ht.running, ht.stack, fun hy => ht.off_stack (hknown hy),
      fun hy => ht.cells (hknown hy), ht.sizes⟩
  · obtain ⟨h₁, h₂⟩ := h.apart he
    exact ⟨fun hn => h₁ (dust_shaped.mp hn), fun hn => h₂ (dust_shaped.mp hn)⟩
  · by_cases hyd : y = d
    · subst hyd
      obtain rfl := Option.some.inj (hc.symm.trans he)
      obtain rfl := Option.some.inj (hc'.symm.trans he')
      exact hshape
    · have hky := (Ledger.of_shaped_eq_shape hy).resolve_left hyd
      have hkd : k y ≠ .data := by simp [hky]
      have hown := hw.isOwn hkd
      have hne : e ≠ c := fun hec => hyd (h.dusted.distinct hown (hw.isOwn hd) he (hec ▸ hc))
      have hne' : e' ≠ c' := fun hec => hyd (h.dusted'.distinct hown (hw.isOwn hd) he' (hec ▸ hc'))
      rw [(hother h.dusted hrew hne ⟨y, hkd, he⟩).2, (hother h.dusted' hrew' hne' ⟨y, hkd, he'⟩).2]
      exact h.shapes hky he he'

/-- How a step ends that makes the shape at an address known.  An error leaves the worlds. -/
abbrev Allocated (k : Ledger) (R : Pairing) (d : Operand) (w w' : World) {α : Type} :
    EStateM.Result Failure Machine α → EStateM.Result Failure Machine α → Prop :=
  Jointly (fun a a' n n' => a = a' ∧ Dusty (k.shaped d) R n n')
    fun n n' => n.world = w ∧ n'.world = w' ∧ Tied False (Known k) R n n'

theorem Dusty.execute_allocates {cs cs' : List CellId} (env : Environment) (pc : Int)
    (h : Dusty k R m m') (hw : k.Working)
    (hd : k d ≠ .data) (hc : m.memory.cell? d = some c) (hc' : m'.memory.cell? d = some c')
    (hcs : List.Forall₂ R cs cs') (hallocates : x.opcode.allocates = true) :
    Allocated k R d m.world m'.world (execute env pc x (c :: cs) m)
      (execute env pc x (c' :: cs') m') := by
  have hs := h.dusted.spare ⟨d, hd, hc⟩
  have hs' := h.dusted'.spare ⟨d, hd, hc'⟩
  have hR : ∀ {e e'}, R e e' → e ≠ c ∧ e' ≠ c' := fun he => h.ne_of_pair hd hc hc' he
  have hgo : ∀ f f' : Store → Except Failure Store,
      Agrees (Store.Reshaped R m.store m'.store c c') (f m.store) (f' m'.store) →
      Allocated k R d m.world m'.world ((onStore f >>= fun _ => pure (pc + 1)) m)
        ((onStore f' >>= fun _ => pure (pc + 1)) m') := fun f f' hf => by
    simp only [bind, EStateM.bind, onStore]
    simp only [store] at hf
    cases h₁ : f m.world.store <;> cases h₂ : f' m'.world.store <;> rw [h₁, h₂] at hf
    · exact ⟨hf, rfl, rfl, h.tied⟩
    · exact hf.elim
    · exact hf.elim
    · exact ⟨rfl, h.reshaped hw hd hc hc' hf⟩
  unfold execute change?
  cases hop : x.opcode
  case alloc => exact hgo _ _ (h.tied.store.allocate_spare hs hs' hR hcs)
  case allocLike =>
    cases hcs with
    | nil =>
      simp only [control, hop]
      exact ⟨rfl, rfl, rfl, h.tied⟩
    | cons ha _ => exact hgo _ _ (h.tied.store.allocateLike_spare hs hs' hR ha)
  case allocTop =>
    have hb := (forall₂_back h.tied.stack).1
    simp only [control, hop, bind, EStateM.bind, peek, consult, Memory.peek]
    cases h₁ : m.memory.stack.back? <;> cases h₂ : m'.memory.stack.back? <;> rw [h₁, h₂] at hb <;>
      cases hb
    · exact ⟨rfl, rfl, rfl, h.tied⟩
    · rename_i a a' ha
      exact hgo (·.allocateLike x.type c a) (·.allocateLike x.type c' a')
        (h.tied.store.allocateLike_spare hs hs' hR ha)
  all_goals simp [hop, Opcode.allocates] at hallocates

end Machine

end VectorMachine
