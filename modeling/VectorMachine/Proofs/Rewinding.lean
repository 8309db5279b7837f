import VectorMachine.Proofs.Stages
import VectorMachine.Proofs.Store.Separation

/-!
# Storage after rewinding

Rewinding cuts the links of locals and registers.  It cuts no link of a global and no element view,
so it separates the storage of a memory from that of its host exactly as long as no instruction has
linked a global to storage of the memory or made an element view across.  If so, a run after it
changes a global by writing to that global alone, until it links or shows containers itself.
-/

namespace VectorMachine
set_option autoImplicit false

open Store (Grant Parted)

/-- Storage of the host and of the memory are separated: the host has the containers below `base`. -/
abbrev Store.Detached (base : Nat) (s : Store) : Prop := s.Parted (· < base) (base ≤ ·)

/-- Host code that joins no container below `base` to any other. -/
def Linker.Separates (base : Nat) (link : Linker) : Prop :=
  ∀ (w : World) (index : Int) (args : List CellId) (result : CellId), w.store.Sound →
    (∀ c ∈ result :: args, c < w.store.cells.size) → w.store.Detached base →
      (finalState (link index args result w)).store.Detached base

/-- Whether an operand stands for the data of a container below `base`. -/
def Machine.OfHost (base : Nat) (m : Machine) (y : Operand) : Prop :=
  ∃ c, m.memory.cell? y = some c ∧ m.store.root c < base

namespace Launch

variable {l : Launch} {m n : Machine} {z : Instruction} {pc : Int} {accelerated : Bool}
  {stage : Stage} {plan : Accelerator.Plan} {x : Accelerator.State}

/-- Whether an instruction would join storage of the host and of the memory: by a link of a global
to a container of the memory, or by an element view across. -/
def Mingles (l : Launch) (m : Machine) (z : Instruction) : Prop :=
  match z.opcode, z.operands with
  | .refer, y :: a :: _ => y.part = .globals ∧ ¬ m.OfHost l.base a
  | .referPop, y :: _ =>
    y.part = .globals ∧ ∃ c, m.memory.stack.back? = some c ∧ l.base ≤ m.store.root c
  | .referElement, y :: a :: _ => ¬ (m.OfHost l.base y ↔ m.OfHost l.base a)
  | _, _ => False

/-- The stages that come after an idle machine if every instruction that is executed is permitted in
the state that it is executed in. -/
inductive Continues (l : Launch) (accelerated : Bool) (permitted : Machine → Instruction → Prop)
    (start : Machine) : Stage → Prop
  | here : Continues l accelerated permitted start (.idle start)
  | rewound {m : Machine} {globals : Array CellId} :
      Continues l accelerated permitted start (.idle m) → (∀ c ∈ globals, c < l.base) →
      Continues l accelerated permitted start (.idle (m.rewound globals))
  | interpret {m : Machine} : Continues l accelerated permitted start (.idle m) →
      Continues l accelerated permitted start (.interpreting { m with running := [] })
  | step {m : Machine} {pc : Int} {z : Instruction} :
      Continues l accelerated permitted start (.interpreting m) →
      Machine.instructionAt? l.program pc = some z → permitted m z →
      Continues l accelerated permitted start
        (.interpreting (finalState (Machine.step l.environment pc m)))
  | interpreted {m : Machine} : Continues l accelerated permitted start (.interpreting m) →
      Continues l accelerated permitted start (.idle m)
  | accelerate {m : Machine} {plan : Accelerator.Plan} (trace : Log.Trace) (width : Nat) :
      Serves l accelerated plan → Continues l accelerated permitted start (.idle m) →
      Continues l accelerated permitted start
        (.accelerating plan (.start plan { m with running := [] } trace width))
  | unit {plan : Accelerator.Plan} {x : Accelerator.State} {pc : Int} {z : Instruction} :
      Continues l accelerated permitted start (.accelerating plan x) →
      Machine.instructionAt? l.program pc = some z → permitted x.machine z →
      Continues l accelerated permitted start
        (.accelerating plan (finalState (Accelerator.step l.environment plan pc x)))
  | accelerated {plan : Accelerator.Plan} {x : Accelerator.State} :
      Continues l accelerated permitted start (.accelerating plan x) →
      Continues l accelerated permitted start
        (.idle (finalState (Accelerator.State.flush plan plan.slotIds x)).machine)

theorem Continues.reached {permitted : Machine → Instruction → Prop} {start : Machine}
    (h : l.Continues accelerated permitted start stage)
    (hstart : Reached l accelerated (.idle start)) : Reached l accelerated stage := by
  induction h with
  | here => exact hstart
  | rewound _ hg ih => exact ih.rewound hg
  | interpret _ ih => exact ih.interpret
  | step _ _ _ ih => exact ih.step _
  | interpreted _ ih => exact ih.interpreted
  | accelerate trace width hp _ ih =>
    obtain ⟨ha, m₀, cache, hm₀, hc⟩ := hp
    exact .accelerate trace width ha hm₀ hc ih
  | unit _ _ _ ih => exact ih.unit _
  | accelerated _ ih => exact ih.accelerated

/-! ### What fetched operands stand for -/

theorem Preserves.ofHost_iff (h : l.Preserves m) {y : Operand} {c : CellId} {k : Nat}
    (hc : Machine.Fetched m y c) :
    (m.grown k).store.root c < l.base ↔ m.OfHost l.base y := by
  rw [Machine.root_grown h.guarded.sound]
  unfold Machine.Fetched at hc
  split at hc
  · rename_i hy
    have hroot : m.store.root c = c := Store.root_eq_self (by rw [Store.cell_of_le hc])
    rw [hroot]
    have hle := Nat.le_trans h.guarded.base_le hc
    refine ⟨fun hlt => absurd hlt (Nat.not_lt.mpr hle), fun ⟨d, hd, _⟩ => ?_⟩
    simp [Memory.cell?, hy, Memory.cells?] at hd
  · refine ⟨fun hlt => ⟨c, hc, hlt⟩, fun ⟨d, hd, hlt⟩ => ?_⟩
    rw [hc] at hd
    cases hd
    exact hlt

theorem Preserves.globals_of_lt (h : l.Preserves m) {y : Operand} {c : CellId}
    (hy : l.program.Knows y) (hc : Machine.Fetched m y c) (hlt : c < l.base) :
    y.part = .globals := by
  unfold Machine.Fetched at hc
  split at hc
  · exact absurd hlt (Nat.not_lt.mpr (Nat.le_trans h.guarded.base_le hc))
  · have hown : ¬ y.IsOwn := fun hown =>
      Nat.not_lt.mpr (h.guarded.apart.own_ge hown hc) hlt
    unfold Operand.IsOwn at hown
    unfold Program.Knows at hy
    cases hp : y.part <;> simp_all [Memory.cell?, Memory.cells?]

/-! ### Steps that mingle nothing -/

section

variable {y a : Operand} (hy : z.operands[0]? = some y) (ha : z.operands[1]? = some a)
include hy

theorem root_lt_of_referPop {c : CellId} (hop : z.opcode = .referPop) (hm : ¬ l.Mingles m z)
    (hg : y.part = .globals) (hc : m.memory.stack.back? = some c) : m.store.root c < l.base := by
  rcases hops : z.operands with _ | ⟨y', rest⟩
  · simp [hops] at hy
  · obtain rfl : y' = y := by simpa [hops] using hy
    simp only [Mingles, hop, hops, hg, true_and, not_exists, not_and, Nat.not_le] at hm
    exact hm c hc

include ha

theorem ofHost_of_refer (hop : z.opcode = .refer) (hm : ¬ l.Mingles m z)
    (hg : y.part = .globals) : m.OfHost l.base a := by
  rcases hops : z.operands with _ | ⟨y', _ | ⟨a', rest⟩⟩
  · simp [hops] at hy
  · simp [hops] at ha
  · obtain rfl : y' = y := by simpa [hops] using hy
    obtain rfl : a' = a := by simpa [hops] using ha
    simpa [Mingles, hop, hops, hg] using hm

theorem ofHost_iff_of_referElement (hop : z.opcode = .referElement) (hm : ¬ l.Mingles m z) :
    m.OfHost l.base y ↔ m.OfHost l.base a := by
  rcases hops : z.operands with _ | ⟨y', _ | ⟨a', rest⟩⟩
  · simp [hops] at hy
  · simp [hops] at ha
  · obtain rfl : y' = y := by simpa [hops] using hy
    obtain rfl : a' = a := by simpa [hops] using ha
    simpa [Mingles, hop, hops] using hm

end

/-- Whatever keeps storage of the host and of the memory separated. -/
def parting (base : Nat) : Grant where
  stores _ := True
  frees _ := True
  links s c d := d < s.cells.size ∧ (c < base → s.root d < base)
  views s c a := s.root c < base ↔ s.root a < base
  hosts s t := s.cells.size ≤ t.cells.size ∧ (s.Sound → t.Sound) ∧
    (s.Sound → s.Detached base → t.Detached base)

theorem parts_parting (base : Nat) : (parting base).Parts (· < base) (base ≤ ·) :=
  ⟨id, fun h => ⟨h.mp, fun hle => Nat.le_of_not_lt fun hlt => Nat.not_lt.mpr hle (h.mpr hlt)⟩,
    fun h => h.2.2, fun h => h.2.1⟩

/-- Host code of a session that joins no container of the host to one of the memory. -/
def Separates (l : Launch) : Prop := ∀ link, l.linker = some link → link.Separates l.base

theorem Valid.permits (hl : l.Valid) (hsep : l.Separates) (h : l.Preserves m) {k : Nat}
    {ops : List CellId} (hz : Machine.instructionAt? l.program pc = some z) (hm : ¬ l.Mingles m z)
    (hops : Machine.FetchedAll m k z.operands ops) :
    Machine.Permits (parting l.base) l.environment (m.grown k) z ops := by
  have hknows := (hl.admissible hz).knows
  have hdst : ∀ {d : CellId} {y : Operand}, z.operands[0]? = some y → Machine.Fetched m y d →
      d < l.base → y.part = .globals :=
    fun hy => h.globals_of_lt (hknows _ (List.mem_of_getElem? hy))
  refine ⟨h.within_true k, hops.lt, fun ht => ht.1, fun _ _ => trivial, fun _ _ _ => trivial,
    fun _ _ _ => trivial, fun hop d a hd ha => ?_, fun hop d top hd htop => ?_,
    fun hop d a hd ha => ?_, fun _ link hlink index args result w hw => ?_⟩
  · obtain ⟨y, hy, hfy, -⟩ := hops.at hd
    obtain ⟨b, hb, hfb, hlt⟩ := hops.at ha
    exact ⟨hlt, fun hd => (h.ofHost_iff hfb).mpr (ofHost_of_refer hy hb hop hm (hdst hy hfy hd))⟩
  · obtain ⟨y, hy, hfy, -⟩ := hops.at hd
    refine ⟨((h.within_true k).stack top (Array.mem_of_back? htop)).2, fun hd => ?_⟩
    rw [Machine.root_grown h.guarded.sound]
    exact root_lt_of_referPop hy hop hm (hdst hy hfy hd) htop
  · obtain ⟨y, hy, hfy, -⟩ := hops.at hd
    obtain ⟨b, hb, hfb, -⟩ := hops.at ha
    exact (h.ofHost_iff hfy).trans ((ofHost_iff_of_referElement hy hb hop hm).trans
      (h.ofHost_iff hfb).symm)
  · have ht := hl.reaches link hlink (fun _ => True) (fun _ _ => trivial) w index args result
      Store.region_true fun c hc => ⟨trivial, hw c hc⟩
    exact ⟨ht.cells_le, ht.sound, fun hs hd => hsep link hlink w index args result hs hw hd⟩

/-- What mingles depends on the memory and on links alone. -/
theorem mingles_iff (hs : m.store.Sound) (hmem : n.memory = m.memory)
    (htarget : ∀ c, (n.store.cell c).target = (m.store.cell c).target) :
    l.Mingles n z ↔ l.Mingles m z := by
  have hroot := Store.root_congr hs.grounded htarget
  have hof : ∀ y, n.OfHost l.base y ↔ m.OfHost l.base y := by
    intro y
    simp only [Machine.OfHost, hmem, hroot]
  unfold Mingles
  split <;> simp only [hof, hmem, hroot]

theorem Valid.parted_step (hl : l.Valid) (hsep : l.Separates) (h : l.Preserves m)
    (hz : Machine.instructionAt? l.program pc = some z) (hm : ¬ l.Mingles m z) :
    Store.Alters (parting l.base) m.store
      (finalState (Machine.step l.environment pc m)).store := by
  refine Machine.alters_step h.guarded.addressable fun z' k ops hz' hops => ?_
  rw [show Machine.instructionAt? l.environment.program pc = some z from hz] at hz'
  cases hz'
  exact hl.permits hsep h hz hm hops

theorem Valid.parted_unit (hl : l.Valid) (hsep : l.Separates) (h : l.Preserves x.machine)
    (hp : l.Plans (.accelerating plan x)) (hz : Machine.instructionAt? l.program pc = some z)
    (hm : ¬ l.Mingles x.machine z) :
    Store.Alters (parting l.base) x.store
      (finalState (Accelerator.step l.environment plan pc x)).store := by
  refine Accelerator.alters_step fun u hu y hy => ⟨fun _ _ => trivial, fun n ha hmem => ?_,
    fun hk => ?_⟩
  · rw [Accelerator.State.store, hy] at ha
    rw [hy] at hmem
    refine hl.parted_step hsep (h.backed hp ha hmem) hz ?_
    rwa [mingles_iff h.guarded.sound hmem (Store.Alters.target_eq ha)]
  · have hc := Preserves.confines hl.sparing (x := y) (by rw [hy]; exact h) hp hu
    exact ⟨(hc.destination hk).1, fun _ _ => trivial⟩

/-! ### Sessions that mingle nothing -/

theorem Valid.detached (hl : l.Valid) : l.store.Detached l.base := by
  have ht := (Memory.allocated hl.sound hl.allocated).adds.touches
  have hold : ∀ {c}, c < l.base → l.store.cell c = l.containers.cell c :=
    fun hc => ht.cell_eq (Nat.not_le.mpr hc)
  refine ⟨fun hc => Nat.not_le.mpr hc, fun hc hd => ?_, fun {c d i} hc hd hi hj => ?_⟩
  · rw [hold hc] at hd
    exact hl.sound.target_lt hd
  · -- a new cell shows no buffer, or a new one
    rw [hold hc] at hi
    have hlt := hl.sound.buffer_lt hi
    rcases ht.buffer_mem hd hj with ⟨c₀, hc₀, hb⟩ | hle
    · rw [Store.cell_of_le hc₀] at hb
      cases hb
    · exact Nat.not_lt.mpr hle hlt

/-- As long as nothing mingles, storage of the host and of the memory stay separated. -/
theorem Continues.detached (hl : l.Valid) (hsep : l.Separates)
    (h : l.Continues accelerated (fun m z => ¬ l.Mingles m z) l.machine stage) :
    stage.machine.store.Detached l.base := by
  induction h with
  | here => exact hl.detached
  | rewound _ _ ih =>
    rw [Stage.machine, Machine.rewound_store]
    exact ih.unlinkAll _
  | interpret _ ih => exact ih
  | step hc hz hm ih =>
    have hp := (preserves_of_reached hl.sparing (hc.reached .allocated)).1
    exact (Store.Alters.parted (parts_parting _) (hl.parted_step hsep hp hz hm)
      hp.guarded.sound ih).2
  | interpreted _ ih => exact ih
  | accelerate _ _ _ _ ih => exact ih
  | unit hc hz hm ih =>
    obtain ⟨hp, hplan⟩ := preserves_of_reached hl.sparing (hc.reached .allocated)
    exact (Store.Alters.parted (parts_parting _) (hl.parted_unit hsep hp hplan hz hm)
      hp.guarded.sound ih).2
  | @accelerated plan x hc ih =>
    have hp := (preserves_of_reached hl.sparing (hc.reached .allocated)).1
    have ha := Accelerator.effects_flush (x := x)
      (Accelerator.slotsWithin_backing plan) plan.slotIds
    exact (Store.Alters.parted Grant.parts_stores ha hp.guarded.sound ih).2

/-! ### Runs that join nothing -/

/-- The cells of locals and registers. -/
def Working (l : Launch) (c : CellId) : Prop :=
  ∃ y : Operand, (y.part = .locals ∨ y.part = .registers) ∧ l.memory.cell? y = some c

theorem Preserves.le_of_working (h : l.Preserves m) {c : CellId} (hc : l.Working c) :
    l.base ≤ c := by
  obtain ⟨y, hy, hc⟩ := hc
  have hown : y.IsOwn := hy.imp_right .inl
  exact h.guarded.apart.own_ge hown ((h.own hown).trans hc)

theorem Preserves.target_rewound (h : l.Preserves m) (globals : Array CellId) {c : CellId}
    (hc : l.Working c) : ((m.rewound globals).store.cell c).target = none := by
  obtain ⟨y, hy, hc⟩ := hc
  rw [← h.own (hy.imp_right .inl)] at hc
  rw [Machine.rewound_store]
  refine Store.target_unlinkAll (.inl ?_)
  rw [Array.toList_append, List.mem_append]
  rcases hy with hy | hy <;> simp only [Memory.cell?, hy, Memory.cells?, Option.bind_some] at hc <;>
    split at hc
  · cases hc
  · exact .inl (Array.mem_toList_iff.mpr (Array.mem_of_getElem? hc))
  · cases hc
  · exact .inr (Array.mem_toList_iff.mpr (Array.mem_of_getElem? hc))

end Launch

/-- Whether an instruction may link containers, show elements of others or call host code. -/
def Instruction.Joins (z : Instruction) : Prop :=
  z.opcode = .refer ∨ z.opcode = .referPop ∨ z.opcode = .referElement ∨ z.opcode = .callExternal

namespace Launch

variable {l : Launch} {m n : Machine} {z : Instruction} {pc : Int} {accelerated : Bool}
  {stage : Stage} {plan : Accelerator.Plan} {x : Accelerator.State} {D : CellId → Prop}

/-- The destination of an instruction may be stored into. -/
def GrantsDestination (D : CellId → Prop) (m : Machine) (z : Instruction) : Prop :=
  z.opcode.writes = true → ∀ y c, z.operands[0]? = some y → Machine.Fetched m y c → D c

theorem Preserves.plain_step (h : l.Preserves m)
    (hz : Machine.instructionAt? l.program pc = some z) (hjoins : ¬ z.Joins)
    (hnew : ∀ c, m.store.cells.size ≤ c → D c) (hdst : GrantsDestination D m z) :
    Store.Alters { stores := D, frees := D } m.store
      (finalState (Machine.step l.environment pc m)).store := by
  refine Machine.alters_step h.guarded.addressable fun z' k ops hz' hops => ?_
  rw [show Machine.instructionAt? l.environment.program pc = some z from hz] at hz'
  cases hz'
  have hstores : z.opcode.writes = true → ∀ d, ops[0]? = some d → D d := by
    intro hw d hd
    obtain ⟨y, hy, hfy, -⟩ := hops.at hd
    exact hdst hw y d hy hfy
  refine ⟨h.within_true k, hops.lt, False.elim, fun c hc => hnew c ?_, fun hw => hstores ?_,
    fun hop => hstores ?_, fun hop => (hjoins ?_).elim, fun hop => (hjoins ?_).elim,
    fun hop => (hjoins ?_).elim, fun hop => (hjoins ?_).elim⟩
  · rw [Machine.size_grown] at hc
    exact Nat.le_trans (Nat.le_add_right _ _) hc
  · cases hop : z.opcode <;> simp_all [Opcode.stores, Opcode.writes]
  · simp [hop, Opcode.writes]
  all_goals simp [Instruction.Joins, hop]

theorem Preserves.plain_unit (hl : l.Valid) (h : l.Preserves x.machine)
    (hp : l.Plans (.accelerating plan x)) (hz : Machine.instructionAt? l.program pc = some z)
    (hjoins : ¬ z.Joins) (hnew : ∀ c, x.store.cells.size ≤ c → D c)
    (hslots : Accelerator.SlotsWithin D plan)
    (hdst : GrantsDestination D x.machine z) :
    Store.Alters { stores := D, frees := D } x.store
      (finalState (Accelerator.step l.environment plan pc x)).store := by
  refine Accelerator.alters_step fun u hu y hy => ⟨hslots, fun n ha hmem => ?_,
    fun {op t d a b} hk => ?_⟩
  · rw [Accelerator.State.store, hy] at ha
    rw [hy] at hmem
    have hle : x.machine.store.cells.size ≤ n.store.cells.size := Store.Alters.size_le False.elim ha
    refine (h.backed hp ha hmem).plain_step hz hjoins (fun c hc => hnew c (Nat.le_trans hle hc))
      fun hw w c hwy hc => hdst hw w c hwy ?_
    -- an absent operand is fetched as a new cell in both states
    unfold Machine.Fetched at hc ⊢
    split
    · rename_i habs
      rw [if_pos habs] at hc
      exact Nat.le_trans hle hc
    · rename_i habs
      rw [if_neg habs, hmem] at hc
      exact hc
  · have hc := Preserves.confines hl.sparing (x := y) (by rw [hy]; exact h) hp hu
    have habs := (hc.destination hk).1
    obtain ⟨src, hunit⟩ := hp.unitOf hz hu
    cases hunit with
    | vector hop hops _ _ _ =>
      cases hk
      refine ⟨habs, fun c hcell => hdst (by simp [hop, Opcode.writes]) d c (by simp [hops]) ?_⟩
      rw [hy] at hcell
      simpa [Machine.Fetched, habs] using hcell
    | _ => cases hk

/-- The cells that a run may change without writing to a global: locals, registers, and the cells
from `count` on, which are made in the run. -/
def Ours (l : Launch) (count : Nat) (c : CellId) : Prop := l.Working c ∨ count ≤ c

/-- Neither links nor buffers connect what a run may change with containers of the host. -/
structure Aside (l : Launch) (count : Nat) (s : Store) : Prop where
  sound : s.Sound
  size_le : count ≤ s.cells.size
  host : s.Parted (· < l.base) (l.Ours count)
  ours : s.Parted (l.Ours count) (· < l.base)

theorem Aside.alters {count : Nat} {E : CellId → Prop} {s t : Store} (h : l.Aside count s)
    (ha : Store.Alters { stores := D, frees := E } s t) : l.Aside count t := by
  obtain ⟨hs, hhost⟩ := Store.Alters.parted Grant.parts_stores ha h.sound h.host
  exact ⟨hs, Nat.le_trans h.size_le (Store.Alters.size_le False.elim ha), hhost,
    (Store.Alters.parted Grant.parts_stores ha h.sound h.ours).2⟩

theorem Aside.rewound {count : Nat} {globals : Array CellId} (h : l.Aside count m.store)
    (hm : l.Preserves m) (hg : ∀ c ∈ globals, c < l.base) :
    l.Aside count (m.rewound globals).store := by
  have hs := (hm.rewound hg).guarded.sound
  rw [Machine.rewound_store] at hs ⊢
  exact ⟨hs, (Store.size_unlinkAll _).symm ▸ h.size_le, h.host.unlinkAll _, h.ours.unlinkAll _⟩

/-- Rewinding puts the locals and registers aside. -/
theorem Preserves.aside_rewound {globals : Array CellId} (h : l.Preserves m)
    (hg : ∀ c ∈ globals, c < l.base) (hd : m.store.Detached l.base) :
    l.Aside (m.rewound globals).store.cells.size (m.rewound globals).store := by
  have hr := h.rewound hg
  have hdr : (m.rewound globals).store.Detached l.base := by
    rw [Machine.rewound_store]
    exact hd.unlinkAll _
  have hhost : (m.rewound globals).store.Parted (· < l.base)
      (l.Ours (m.rewound globals).store.cells.size) := by
    refine hdr.mono_right fun hc => ?_
    rcases hc with hc | hc
    · exact h.le_of_working hc
    · exact Nat.le_trans hr.guarded.base_le hc
  refine ⟨hr.guarded.sound, Nat.le_refl _, hhost, hhost.symm fun hc ht => ?_⟩
  rcases hc with hc | hc
  · rw [h.target_rewound globals hc] at ht
    cases ht
  · rw [Store.cell_of_le hc] at ht
    cases ht

/-- The containers of the host keep their cells and buffers. -/
def HostKept (base : Nat) (s t : Store) : Prop :=
  ∀ c, c < base → t.cell c = s.cell c ∧
    ∀ i, (s.cell c).buffer = some i → t.buffers[i]? = s.buffers[i]?

theorem Aside.hostKept {count : Nat} {s t : Store} (h : l.Aside count s)
    (ha : Store.Alters { stores := l.Ours count, frees := l.Ours count } s t) :
    HostKept l.base s t := by
  have hregion : s.Region (l.Ours count) :=
    ⟨fun hc => .inr (Nat.le_trans h.size_le hc), h.ours.closed⟩
  have ht := Store.Alters.touches
    ⟨id, id, False.elim, False.elim, fun _ => False.elim⟩ hregion ha
  intro c hc
  refine ⟨ht.cell_eq (h.host.disjoint hc), fun i hi => ?_⟩
  exact ht.buffer_eq (h.sound.buffer_lt hi) fun d hd => h.host.apart hc hd hi

theorem Plans.working (hp : l.Plans (.accelerating plan x)) :
    Accelerator.SlotsWithin l.Working plan := by
  obtain ⟨s, mem, cache, hplan, hown⟩ := hp
  intro i slot hi hc
  obtain ⟨ht, hcell⟩ := hplan.slots.typed hi
  have hslot := Accelerator.isOwn_of_type? ht
  refine ⟨slot.operand, ?_, (hown hslot).symm.trans hcell⟩
  rcases hslot with hslot | hslot | hslot
  · exact .inl hslot
  · exact .inr hslot
  · simp [Accelerator.Slot.isConstant, hslot] at hc

/-- A run that joins nothing keeps everything aside that rewinding put aside. -/
theorem Continues.aside (hl : l.Valid) {start : Machine}
    (hstart : Reached l accelerated (.idle start)) {count : Nat} (h₀ : l.Aside count start.store)
    (h : l.Continues accelerated (fun _ z => ¬ z.Joins) start stage) :
    l.Aside count stage.machine.store := by
  induction h with
  | here => exact h₀
  | rewound hc hg ih => exact ih.rewound (preserves_of_reached hl.sparing (hc.reached hstart)).1 hg
  | interpret _ ih => exact ih
  | step hc hz hj ih =>
    have hp := (preserves_of_reached hl.sparing (hc.reached hstart)).1
    exact ih.alters (hp.plain_step (D := fun _ => True) hz hj (fun _ _ => trivial)
      fun _ _ _ _ _ => trivial)
  | interpreted _ ih => exact ih
  | accelerate _ _ _ _ ih => exact ih
  | unit hc hz hj ih =>
    obtain ⟨hp, hplan⟩ := preserves_of_reached hl.sparing (hc.reached hstart)
    exact ih.alters (hp.plain_unit (D := fun _ => True) hl hplan hz hj (fun _ _ => trivial)
      (fun _ _ => trivial) fun _ _ _ _ _ => trivial)
  | @accelerated plan x hc ih =>
    exact ih.alters (Accelerator.effects_flush (x := x)
      (Accelerator.slotsWithin_backing plan) plan.slotIds)

/-- What an instruction stores that does not write to a global, and what is written back at the end
of a run. -/
theorem Aside.kept (hl : l.Valid) (h : Reached l accelerated stage) {count : Nat}
    (ha : l.Aside count stage.machine.store) :
    HostKept l.base stage.machine.store stage.ended.machine.store ∧
    ∀ pc z, Machine.instructionAt? l.program pc = some z → ¬ z.Joins →
      (z.opcode.writes = true → ∀ y, z.operands[0]? = some y → y.part ≠ .globals) →
      HostKept l.base stage.machine.store (stage.next l.environment pc).machine.store := by
  obtain ⟨hp, hplan⟩ := preserves_of_reached hl.sparing h
  have hnew : ∀ {s : Store}, l.Aside count s → ∀ c, s.cells.size ≤ c → l.Ours count c :=
    fun hs c hc => .inr (Nat.le_trans hs.size_le hc)
  have hrefl : HostKept l.base stage.machine.store stage.machine.store :=
    fun _ _ => ⟨rfl, fun _ _ => rfl⟩
  -- an operand that is no global and may be stored into is absent, a local or a register
  have hdst : ∀ {pc z}, Machine.instructionAt? l.program pc = some z →
      (z.opcode.writes = true → ∀ y, z.operands[0]? = some y → y.part ≠ .globals) →
      GrantsDestination (l.Ours count) stage.machine z := by
    intro pc z hz hw hwrites y c hy hc
    have hadm := hl.admissible hz
    have hknows := hadm.knows y (List.mem_of_getElem? hy)
    have hglobal := hw hwrites y hy
    have hconst := hadm.destination hwrites y hy
    unfold Machine.Fetched at hc
    split at hc
    · exact .inr (Nat.le_trans ha.size_le hc)
    · have hy' : y.part = .locals ∨ y.part = .registers := by
        unfold Program.Knows at hknows
        cases hpart : y.part <;> simp_all
      exact .inl ⟨y, hy', hp.own (hy'.imp_right .inl) ▸ hc⟩
  cases stage with
  | idle m => exact ⟨hrefl, fun _ _ _ _ _ => hrefl⟩
  | interpreting m =>
    exact ⟨hrefl, fun pc z hz hj hw => ha.hostKept (hp.plain_step hz hj (hnew ha) (hdst hz hw))⟩
  | accelerating plan x =>
    have hslots : Accelerator.SlotsWithin (l.Ours count) plan := fun hi hc => .inl (hplan.working hi hc)
    refine ⟨ha.hostKept ?_, fun pc z hz hj hw => ha.hostKept
      (hp.plain_unit hl hplan hz hj (hnew ha) hslots (hdst hz hw))⟩
    exact Accelerator.effects_flush (x := x)
      (g := { stores := l.Ours count, frees := l.Ours count }) hslots plan.slotIds

/-- If no instruction has mingled storage of the host and of the memory, then after rewinding no
local or register is a link or shares root or buffer with a container of the host; and until a run
joins containers itself, what it stores into locals and registers changes no container of the
host. -/
theorem rewind_separates (hl : l.Valid) (hsep : l.Separates) {globals : Array CellId}
    (hg : ∀ c ∈ globals, c < l.base)
    (h : l.Continues accelerated (fun m z => ¬ l.Mingles m z) l.machine (.idle m)) :
    (∀ (y : Operand) (c : CellId), y.part = .locals ∨ y.part = .registers →
      (m.rewound globals).memory.cell? y = some c →
      (m.rewound globals).store.isAlias c = false ∧ ∀ d, d < l.base →
        (m.rewound globals).store.root d ≠ (m.rewound globals).store.root c ∧
        ∀ i, ((m.rewound globals).store.rootCell c).buffer = some i →
          ((m.rewound globals).store.rootCell d).buffer ≠ some i) ∧
    ∀ stage, l.Continues accelerated (fun _ z => ¬ z.Joins) (m.rewound globals) stage →
      HostKept l.base stage.machine.store stage.ended.machine.store ∧
      ∀ pc z, Machine.instructionAt? l.program pc = some z → ¬ z.Joins →
        (z.opcode.writes = true → ∀ y, z.operands[0]? = some y → y.part ≠ .globals) →
        HostKept l.base stage.machine.store (stage.next l.environment pc).machine.store := by
  have hreach := h.reached .allocated
  have hp : l.Preserves m := (preserves_of_reached hl.sparing hreach).1
  have haside := hp.aside_rewound hg (h.detached hl hsep)
  refine ⟨fun y c hy hc => ?_, fun stage hs => ?_⟩
  · have hown : y.IsOwn := hy.imp_right .inl
    have hwork : l.Working c := ⟨y, hy, (hp.own hown).symm.trans (Machine.cell?_rewound hown ▸ hc)⟩
    have htarget := hp.target_rewound globals hwork
    have hroot := Store.root_eq_self htarget
    refine ⟨by simp [Store.isAlias, htarget], fun d hd => ⟨fun he => ?_, fun i hi => ?_⟩⟩
    · have hlt := haside.host.root hd
      rw [he, hroot] at hlt
      exact haside.host.disjoint hlt (.inl hwork)
    · rw [Store.rootCell, hroot] at hi
      exact haside.ours.apart (.inl hwork) (haside.host.root hd) hi
  · have hreach' := hreach.rewound hg
    exact (hs.aside hl hreach' haside).kept hl (hs.reached hreach')

/-- Adds to a global through a local that is linked to it. -/
def addsThrough : Program where
  code := #[
    { opcode := .refer, types := [.void], operands := [⟨.locals, 0⟩, ⟨.globals, 0⟩] },
    { opcode := .arithmetic .add, types := [.int],
      operands := [⟨.locals, 0⟩, ⟨.locals, 0⟩, ⟨.constants, 0⟩] },
    { opcode := .finish, types := [.void] }]
  constants := ⟨[("~int:1", 0)]⟩
  extent := { globals := 0, locals := 0, constants := 0 }

/-- Two steps of a run link the local to the global and add to it; rewinding separates them. -/
theorem rewind_separates_addsThrough :
    let l := Launch.on addsThrough none (({} : Store).ofScalar (.int 2)).2 #[0]
    l.Valid ∧ ∃ m, l.Continues false (fun m z => ¬ l.Mingles m z) l.machine (.idle m) ∧
      m.store.root 1 = m.store.root 0 ∧ m.store.int 0 = .ok 3 ∧
      (m.rewound #[0]).store.root 0 ≠ (m.rewound #[0]).store.root 1 := by
  intro l
  have hasm : (Assembler.assemble "REF void L0 G0; ADD int L0 L0 ~int:1; END void;" {}).toOption =
      some addsThrough := by decide +kernel
  have hs : (({} : Store).ofScalar (.int 2)).2.Sound :=
    (Store.Touches.ofScalar (C := fun _ => True) Store.region_true _).sound Store.sound_empty
  have hl : l.Valid := valid_on hasm hs (by decide +kernel) (by decide +kernel) nofun
  have hfirst : Machine.instructionAt? l.program 0 = some addsThrough.code[0] := rfl
  have hsecond : Machine.instructionAt? l.program 1 = some addsThrough.code[1] := rfl
  have hglobals : ∀ c ∈ (#[0] : Array CellId), c < l.base := by decide +kernel
  have hrun : l.Continues false (fun m z => ¬ l.Mingles m z) l.machine _ :=
    ((Continues.here.interpret.step (z := addsThrough.code[0]) hfirst
      (by simp [Mingles, addsThrough])).step (z := addsThrough.code[1]) hsecond
      (by simp [Mingles, addsThrough])).interpreted
  refine ⟨hl, _, hrun, by decide +kernel, by decide +kernel, ?_⟩
  have h := (rewind_separates hl nofun hglobals hrun).1 ⟨.locals, 0⟩ 1 (.inl rfl)
    (by decide +kernel)
  exact (h.2 0 (by decide +kernel)).1

/-- Assigns to a local and then makes it show an element of a global. -/
def showsElement : Program where
  code := #[
    { opcode := .move, types := [.int], operands := [⟨.locals, 0⟩, ⟨.constants, 0⟩] },
    { opcode := .referElement, types := [.int],
      operands := [⟨.locals, 0⟩, ⟨.globals, 0⟩, ⟨.constants, 1⟩] },
    { opcode := .finish, types := [.void] }]
  constants := ⟨[("~int:0", 1), ("~int:5", 0)]⟩
  extent := { globals := 0, locals := 0, constants := 1 }

/-- Rewinding leaves the element view: the local still shares the buffer of the global, and the
first instruction of the next run, which writes to the local, changes the global. -/
theorem rewind_leaves_view :
    let l := Launch.on showsElement none (({} : Store).ofLanes (.ints #[1, 2, 3])).2 #[0]
    l.Valid ∧ ∃ m, Reached l false (.idle m) ∧
      ∃ i, ((m.rewound #[0]).store.rootCell 0).buffer = some i ∧
        ((m.rewound #[0]).store.rootCell 1).buffer = some i ∧
        (m.rewound #[0]).memory.cell? ⟨.globals, 0⟩ = some 0 ∧
        (m.rewound #[0]).memory.cell? ⟨.locals, 0⟩ = some 1 ∧
        (m.rewound #[0]).store.int 0 = .ok 1 ∧
        (finalState (Machine.step l.environment 0 (m.rewound #[0]))).store.int 0 = .ok 5 := by
  intro l
  have hasm : (Assembler.assemble "MOV int L0 ~int:5; REFELM int L0 G0 ~int:0; END void;"
      {}).toOption = some showsElement := by decide +kernel
  have hs : (({} : Store).ofLanes (.ints #[1, 2, 3])).2.Sound :=
    (Store.Touches.renew (C := fun _ => True) Store.region_true trivial (by decide)).sound
      ((Store.Touches.fresh (C := fun _ => True) Store.region_true).sound Store.sound_empty)
  have hl : l.Valid := valid_on hasm hs (by decide +kernel) (by decide +kernel) nofun
  have hstart : Reached l false (.idle l.machine) := .allocated
  obtain ⟨m, hm, hworld, hmemory⟩ := reached_interpret hstart ⟨1, .canceled⟩ {}
  have hrewound : m.rewound #[0] =
      ({ world := m.world, memory := m.memory } : Machine).rewound #[0] := rfl
  refine ⟨hl, m, hm, 0, ?_⟩
  rw [hrewound, hworld, hmemory]
  decide +kernel

end Launch

end VectorMachine
