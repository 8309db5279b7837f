import VectorMachine.Proofs.Accelerator.Cacheability
import VectorMachine.Proofs.Machine.Pools
import VectorMachine.Proofs.Machine.Progress
import VectorMachine.Proofs.Stages

/-!
# Progress

At every stage of a session the containers are well formed, so every instruction of the program
gives the next address or a data error there, or aborts in one of the known ways.
-/

namespace VectorMachine
set_option autoImplicit false

open Store (Alters Edit Grant forming)

/-- Host code that leaves a well formed store well formed. -/
def Linker.Forms (link : Linker) : Prop :=
  ∀ (w : World) (index : Int) (args : List CellId) (result : CellId),
    (∀ c ∈ result :: args, c < w.store.cells.size) → w.store.Formed →
      ∀ c, ((finalState (link index args result w)).store.cell c).Sized

namespace Store

/-- All edits are granted, with links to containers that are there. -/
structure Grant.Liberal (g : Grant) : Prop where
  grows : g.Grows
  stores : ∀ {c}, g.stores c
  frees : ∀ {c}, g.frees c
  links : ∀ {s c d}, d < s.cells.size → g.links s c d
  views : ∀ {s c a}, g.views s c a

theorem liberal_forming : forming.Liberal :=
  ⟨fun ht => ht.1, trivial, trivial, id, trivial⟩

end Store

theorem Memory.get_error {m : Memory} {s : Store} {y : Operand} {e : Abort}
    (h : m.get s y = .error e) : m.cell? y = none ∧
      ∀ cs, m.cells? y.part = some cs → e = outside y cs.size := by
  unfold get at h
  split at h
  · cases h
  · cases hcs : m.cells? y.part with
    | none => simp [cell?, hcs]
    | some cs =>
      simp only [hcs] at h
      split at h
      · rename_i hneg
        cases h
        simp [cell?, hcs, hneg]
      · rename_i hneg
        split at h
        · cases h
        · rename_i hnone
          cases h
          simp [cell?, hcs, hneg, hnone]

namespace Machine

variable {m m' : Machine}

theorem fetchAll_error {ys : List Operand} {e : Abort} (h : fetchAll ys m = .error e m') :
    ∃ y ∈ ys, y.part ≠ .absent ∧ m.memory.cell? y = none ∧
      ∀ cs, m.memory.cells? y.part = some cs → e = Memory.outside y cs.size := by
  induction ys generalizing m with
  | nil => cases h
  | cons y ys ih =>
    simp only [fetchAll, bind, EStateM.bind] at h
    cases hf : fetch y m with
    | error e' m₁ =>
      rw [hf] at h
      cases h
      have hy : y.part ≠ .absent := fun hy => by
        rw [fetch_eq_of_absent hy] at hf
        cases hf
      rw [fetch_eq_get hy] at hf
      split at hf
      · cases hf
      · rename_i e₁ hg
        cases hf
        exact ⟨y, by simp, hy, Memory.get_error hg⟩
    | ok c m₁ =>
      obtain ⟨n, rfl, -, -⟩ := fetch_ok hf
      simp only [hf] at h
      cases hr : fetchAll ys (m.grown n) with
      | error e' m₂ =>
        simp only [hr] at h
        cases h
        obtain ⟨y', hy', hrest⟩ := ih hr
        exact ⟨y', by simp [hy'], hrest⟩
      | ok cs m₂ =>
        simp only [hr] at h
        cases h

end Machine

namespace Launch

variable {l : Launch} {m : Machine} {z : Instruction} {pc : Int} {accelerated : Bool}
  {stage : Stage} {plan : Accelerator.Plan} {x : Accelerator.State}

/-- A session on well formed containers, with host code that keeps them so. -/
structure Orderly (l : Launch) : Prop where
  valid : l.Valid
  sized : ∀ c, (l.containers.cell c).Sized
  forms : ∀ link, l.linker = some link → link.Forms

/-- The host code of a session keeps to what a grant allows it. -/
def HostsGrant (l : Launch) (g : Grant) : Prop :=
  ∀ link, l.linker = some link → ∀ index args result (w : World),
    (∀ c ∈ result :: args, c < w.store.cells.size) →
      g.hosts w.store (finalState (link index args result w)).store

section

variable {g : Grant} (hg : g.Liberal) (hh : l.HostsGrant g)
include hg hh

theorem Preserves.permits (h : l.Preserves m) {k : Nat} {ops : List CellId}
    (hops : Machine.FetchedAll m k z.operands ops) :
    Machine.Permits g l.environment (m.grown k) z ops := by
  refine ⟨h.within_true k, hops.lt, hg.grows, fun _ _ => hg.stores, fun _ _ _ => hg.stores,
    fun _ _ _ => hg.frees, fun _ d a _ ha => hg.links (hops.lt a (List.mem_of_getElem? ha)),
    fun _ d top _ htop => hg.links ?_, fun _ _ _ _ _ => hg.views, fun _ => hh⟩
  exact ((h.within_true k).stack top (Array.mem_of_back? htop)).2

theorem Preserves.alters_step (h : l.Preserves m) (pc : Int) :
    Alters g m.store (finalState (Machine.step l.environment pc m)).store :=
  Machine.alters_step h.guarded.addressable fun _ _ _ _ hops => h.permits hg hh hops

theorem Preserves.alters_unit (hl : l.Valid) (h : l.Preserves x.machine)
    (hp : l.Plans (.accelerating plan x)) (pc : Int) :
    Alters g x.store (finalState (Accelerator.step l.environment plan pc x)).store := by
  refine Accelerator.alters_step fun u hu y hy => ⟨fun _ _ => hg.stores, fun n ha hmem => ?_,
    fun hk => ?_⟩
  · rw [Accelerator.State.store, hy] at ha
    rw [hy] at hmem
    exact (h.backed hp ha hmem).alters_step hg hh pc
  · have hc := Preserves.confines hl.sparing (x := y) (by rw [hy]; exact h) hp hu
    exact ⟨(hc.destination hk).1, fun _ _ => hg.stores⟩

/-- What granted edits keep and the cutting of links keeps holds at every stage. -/
theorem keeps_of_reached {I : Store → Prop} (hl : l.Valid)
    (hedit : ∀ {s t}, Edit g s t → I s → I t)
    (hunlink : ∀ {s} (cs : List CellId), I s → I (cs.foldl Store.unlink s)) (hstart : I l.store)
    (h : Reached l accelerated stage) : I stage.machine.store := by
  induction h with
  | allocated => exact hstart
  | rewound _ _ ih =>
    rw [Stage.machine, Machine.rewound_store]
    exact hunlink _ ih
  | interpret _ ih => exact ih
  | step pc h ih =>
    have hp := (preserves_of_reached hl.sparing h).1
    exact Alters.keeps hedit (hp.alters_step hg hh pc) ih
  | interpreted _ ih => exact ih
  | accelerate _ _ _ _ _ _ _ ih => exact ih
  | unit pc h ih =>
    obtain ⟨hp, hplan⟩ := preserves_of_reached hl.sparing h
    exact Alters.keeps hedit (hp.alters_unit hg hh hl hplan pc) ih
  | @accelerated plan x _ ih =>
    exact Alters.keeps hedit (Accelerator.effects_flush (x := x) (g := g)
      (fun _ _ => hg.stores) plan.slotIds) ih

end

theorem Orderly.hosts (hl : l.Orderly) : l.HostsGrant forming := by
  intro link hlink index args result w hw
  have ht := hl.valid.reaches link hlink (fun _ => True) (fun _ _ => trivial) w index args result
    Store.region_true fun c hc => ⟨trivial, hw c hc⟩
  exact ⟨ht.cells_le, ht.sound, hl.forms link hlink w index args result hw⟩

theorem Orderly.formed (hl : l.Orderly) : l.store.Formed := by
  have ha := Memory.allocated hl.valid.sound hl.valid.allocated
  obtain ⟨vs, hvs, hholds⟩ := ha.values
  refine ⟨ha.adds.touches.sound hl.valid.sound, fun c => ?_⟩
  have hlen : l.program.layout.immediates.length = vs.length := hvs.length_eq
  by_cases hold : l.containers.cells.size ≤ c
  · by_cases hvoid : c < l.containers.cells.size + l.memory.locals.size + l.memory.registers.size
    · exact (ha.void c hold hvoid).sized
    · by_cases hlt : c < l.store.cells.size
      · -- the cell of a constant
        obtain ⟨i, rfl⟩ := Nat.exists_eq_add_of_le (Nat.not_lt.mp hvoid)
        rw [ha.size_eq, Nat.add_lt_add_iff_left, hlen] at hlt
        exact (hholds i _ (List.getElem?_eq_getElem hlt)).sized
      · rw [Store.cell_of_le (Nat.not_lt.mp hlt)]
        exact Store.sized_empty
  · rw [ha.adds.touches.cell_eq hold]
    exact hl.sized c

theorem Orderly.formed_of_reached (hl : l.Orderly) (h : Reached l accelerated stage) :
    stage.machine.store.Formed :=
  keeps_of_reached Store.liberal_forming hl.hosts hl.valid Edit.formed
    (fun cs hs => hs.unlinkAll cs) hl.formed h

theorem Preserves.holds_constant (hl : l.Valid) (h : l.Preserves m) {y : Operand} {c : CellId}
    (hy : y.part = .constants) (hc : m.memory.cell? y = some c) :
    ∃ v, m.store.Holds c (some v) := by
  have hc₀ : l.memory.cell? y = some c := (h.own (.inr (.inr hy))).symm.trans hc
  obtain ⟨-, v, -, -, hv⟩ := hl.holds_constant (y := y) hy hc₀
  exact ⟨v, h.holds (y := y) hy hc₀ hv⟩

theorem Preserves.exists_note (hl : l.Valid) (h : l.Preserves m)
    (hn : l.program.Notes z.note) : ∃ text, Machine.noteText z m = .ok text := by
  refine Machine.exists_noteText h.guarded.sound hn fun hp => ?_
  have hown : z.note.IsOwn := .inr (.inr hp)
  obtain ⟨c, hc⟩ := hl.exists_cell hown hn.1 (by simp [hp])
  rw [← h.own hown] at hc
  obtain ⟨v, hv⟩ := h.holds_constant hl hp hc
  exact ⟨c, v, hc, hv⟩

theorem Orderly.fetching (hl : l.Orderly) (h : Reached l accelerated stage)
    (hz : Machine.instructionAt? l.program pc = some z) {k : Nat} {ops : List CellId}
    (hops : Machine.FetchedAll stage.machine k z.operands ops) :
    Machine.Fetching stage.machine k z ops := by
  have hp := (preserves_of_reached hl.valid.sparing h).1
  exact ⟨hl.formed_of_reached h, (hl.valid.admissible hz).arity, hops, hp.guarded.addressable,
    fun c hc => (hp.guarded.within.stack c hc).2, fun y _ hy c hc => hp.holds_constant hl.valid hy hc⟩

/-- Drops the top of a stack that is empty when the program starts. -/
def dropsTop : Program where
  code := #[{ opcode := .pop, types := [.void] }, { opcode := .finish, types := [.void] }]

end Launch

end VectorMachine
