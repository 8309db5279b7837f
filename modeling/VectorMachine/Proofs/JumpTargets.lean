import VectorMachine.Proofs.Accelerator.Units
import VectorMachine.Proofs.Machine.Progress
import VectorMachine.Proofs.Stages

/-!
# Targets of jumps

The machine reads the label of a jump when it branches.  A plan may keep the address that the label
holds when the plan is compiled.  In a new memory a label that is no global holds an address only if
it is a constant, so what is kept stays right; every other jump falls back to the machine, after the
slots of its operands have been written back.
-/

namespace VectorMachine
set_option autoImplicit false

open Accelerator (Plan Slot SlotId State)
open Store (Pairing Matches)

namespace Machine

variable {m : Machine} {env : Environment} {pc next next' : Int} {z : Instruction} {on : Bool}
  {d a b y : Operand} {c : CellId} {k : Nat}

/-- Where a jump on the condition `b` with the label `a` goes on: at the address that the label
holds if the condition says so, and else at the next instruction. -/
inductive JumpsTo (m : Machine) (on : Bool) (a b : Operand) (pc : Int) : Int → Prop
  | branch {c t : CellId} {n : Int64} : m.memory.cell? b = some c →
      m.store.branches on c = .ok true → m.memory.cell? a = some t → m.store.int t = .ok n →
      JumpsTo m on a b pc n.toInt
  | pass {c : CellId} : m.memory.cell? b = some c → m.store.branches on c = .ok false →
      JumpsTo m on a b pc (pc + 1)

theorem JumpsTo.unique (h : m.JumpsTo on a b pc next) (h' : m.JumpsTo on a b pc next') :
    next = next' := by
  cases h with
  | branch hb hc ha hn =>
    cases h' with
    | branch hb' _ ha' hn' =>
      rw [ha] at ha'
      cases ha'
      rw [hn] at hn'
      cases hn'
      rfl
    | pass hb' hc' =>
      rw [hb] at hb'
      cases hb'
      simp [hc] at hc'
  | pass hb hc =>
    cases h' with
    | branch hb' hc' _ _ =>
      rw [hb] at hb'
      cases hb'
      simp [hc] at hc'
    | pass _ _ => rfl

/-- A jump goes on at the same address where its operands show the same. -/
theorem JumpsTo.congr {n : Machine} (h : m.JumpsTo on a b pc next)
    (hmem : n.memory = m.memory)
    (halike : ∀ y ∈ [a, b], ∀ c, m.memory.cell? y = some c → n.store.Alike c m.store c) :
    n.JumpsTo on a b pc next := by
  cases h with
  | branch hb hc ha hn =>
    refine .branch (hmem ▸ hb) ?_ (hmem ▸ ha) ?_
    · rw [(halike b (by simp) _ hb).branches_eq]
      exact hc
    · rw [(halike a (by simp) _ ha).int_eq]
      exact hn
  | pass hb hc =>
    refine .pass (hmem ▸ hb) ?_
    rw [(halike b (by simp) _ hb).branches_eq]
    exact hc

theorem execute_jump {c₀ t : CellId} {n : Machine} (hop : z.opcode = .jump on) :
    execute env pc z [c₀, t, c] m = .ok next n ↔ n = m ∧
      (m.store.branches on c = .ok true ∧ (∃ v, m.store.int t = .ok v ∧ next = v.toInt) ∨
        m.store.branches on c = .ok false ∧ next = pc + 1) := by
  simp only [execute, change?, hop, control, bind, EStateM.bind, consult]
  have hstore : m.world.store = m.store := rfl
  rw [hstore]
  cases m.store.branches on c with
  | error e => simp
  | ok v =>
    cases v with
    | false => simp [pure, EStateM.pure, eq_comm, and_comm]
    | true => simp [address_ok]

theorem type_ne_void_of_branches {s : Store} {v : Bool} (h : s.branches on c = .ok v) :
    s.type c ≠ .void := by
  intro hvoid
  simp [Store.branches, Store.readBools, hvoid, Store.refuse] at h

/-- The machine gives the next address of a jump if all operands are there, and it is the one that
the jump goes on at. -/
theorem step_jump (hs : m.store.Sound) (hz : instructionAt? env.program pc = some z)
    (hop : z.opcode = .jump on) (hops : z.operands = [d, a, b]) :
    (∃ n, step env pc m = .ok next n) ↔
      (∀ y ∈ z.operands, m.memory.Fetches y) ∧ m.JumpsTo on a b pc next := by
  constructor
  · rintro ⟨n, hn⟩
    obtain ⟨k, cs, -, hcs, he⟩ := (step_eq_ok_iff hz).mp hn
    refine ⟨fun y hy => ?_, ?_⟩
    · obtain ⟨i, hi⟩ := List.getElem?_of_mem hy
      obtain ⟨c, -, hc, -⟩ := exists_of_forall₂ hcs.flip hi
      exact hc.fetches
    · have halike := fun c => alike_grown hs k c
      rw [hops] at hcs
      rcases hcs with _ | ⟨-, _ | ⟨⟨hca, -⟩, _ | ⟨⟨hcb, -⟩, _ | _⟩⟩⟩
      rename_i t c
      obtain ⟨-, ⟨hbranch, v, hv, rfl⟩ | ⟨hbranch, rfl⟩⟩ := (execute_jump hop).mp he
      · exact .branch (cell?_of_fetched hcb (type_ne_void_of_branches hbranch))
          ((halike c).branches_eq on ▸ hbranch)
          (cell?_of_fetched hca (type_ne_void_of_int hv)) ((halike t).int_eq ▸ hv)
      · exact .pass (cell?_of_fetched hcb (type_ne_void_of_branches hbranch))
          ((halike c).branches_eq on ▸ hbranch)
  · rintro ⟨hfetches, hj⟩
    obtain ⟨cs, k, hf⟩ := fetchAll_of_fetches z.operands hfetches
    obtain ⟨-, -, hok⟩ := fetchAll_spec z.operands m
    have halike := fun c => alike_grown hs k c
    have hcs := hok cs _ hf
    rw [hops] at hcs
    rcases hcs with _ | ⟨-, _ | ⟨⟨hca, -⟩, _ | ⟨⟨hcb, -⟩, _ | _⟩⟩⟩
    refine ⟨m.grown k, step_ok hz hf ((execute_jump hop).mpr ⟨rfl, ?_⟩)⟩
    cases hj with
    | branch hb hbranch ha hv =>
      rw [hcb.eq_of_cell hb, hca.eq_of_cell ha, (halike _).branches_eq, (halike _).int_eq]
      exact .inl ⟨hbranch, _, hv, rfl⟩
    | pass hb hbranch =>
      rw [hcb.eq_of_cell hb, (halike _).branches_eq]
      exact .inr ⟨hbranch, rfl⟩

end Machine

/-- Whether the unit at `pc` is a jump to a target that was read when the plan was compiled. -/
def Accelerator.Plan.KeepsTarget (plan : Plan) (pc : Int) : Prop :=
  ∃ i on target ids, plan.units[pc.toNat]? = some ⟨.jump i on target, ids⟩

namespace Launch

variable {l : Launch} {cache : Bool} {plan : Plan} {x y y' : State} {pc next : Int}
  {z : Instruction} {on : Bool} {d a b w : Operand} {c : CellId} {i : SlotId} {slot : Slot}
  {ids : List SlotId} {stage : Stage}

/-- The stages of a session in which all runs use one plan. -/
inductive Repeats (l : Launch) (plan : Plan) : Stage → Prop
  | allocated : Repeats l plan (.idle l.machine)
  | rewound {m : Machine} {globals : Array CellId} : Repeats l plan (.idle m) →
      (∀ c ∈ globals, c < l.base) → Repeats l plan (.idle (m.rewound globals))
  | start {m : Machine} (trace : Log.Trace) (width : Nat) : Repeats l plan (.idle m) →
      Repeats l plan (.accelerating plan (.start plan { m with running := [] } trace width))
  | unit {x : State} {pc : Int} {z : Instruction} : Repeats l plan (.accelerating plan x) →
      Machine.instructionAt? l.program pc = some z →
      Repeats l plan (.accelerating plan (finalState (Accelerator.step l.environment plan pc x)))
  | ended {x : State} : Repeats l plan (.accelerating plan x) →
      Repeats l plan (Stage.accelerating plan x).ended

/-- What holds of the typed addresses and slots at a stage. -/
def Kept (l : Launch) (cache : Bool) (plan : Plan) : Stage → Prop
  | .idle m | .interpreting m => l.Sealed (l.typingOf cache) m
  | .accelerating _ x => l.Slotted cache plan x

theorem Repeats.kept (hl : l.Valid) (hp : l.Planned cache plan) (h : l.Repeats plan stage) :
    l.Kept cache plan stage := by
  induction h with
  | allocated => exact Sealed.allocated hl types_typingOf
  | rewound _ hg ih => exact Sealed.rewound types_typingOf ih hg
  | start trace width _ ih => exact (Sealed.restart types_typingOf ih).start hp trace width
  | unit _ hz ih => exact Slotted.step hl hp ih hz
  | ended _ ih =>
    obtain ⟨y, hy, hw, -⟩ := Slotted.flush hp ih plan.slotIds
    simp only [Stage.ended, hy]
    exact hw.slotted.isSealed

/-! ### What operands show when slots have been written back -/

theorem alike_of_holds {s s' : Store} {o : Option Scalar} (h : s.Holds c o) (h' : s'.Holds c o) :
    s.Alike c s' c := by
  have hdata := h.sameData h'
  exact ⟨by rw [h.buffer?_eq, h'.buffer?_eq], by simp only [Store.size, h.rootCell_eq,
    h'.rootCell_eq, hdata.size_eq], by rw [h.lengths_eq, h'.lengths_eq],
    by rw [h.offset_eq, h'.offset_eq]⟩

theorem Slotted.matches_self (hp : l.Planned cache plan) (hx : l.Slotted cache plan x) :
    Matches True (Parted plan fun c c' => c = c' ∧ c < x.store.cells.size) x.store x.store := by
  have hm := hx.isSealed
  refine (Matches.refl True hm.guarded.sound).restrict (fun hc => hc.1) ?_
  rintro c c' e e' hc he he' hR
  refine ⟨hR, fun hcc => ?_, fun hcc => ?_⟩
  · exact (hp.isolated hm hcc).unlinked _ he
  · exact (hp.isolated hm hcc).unlinked _ he'

/-- An operand shows the same in two states with slots written back, if its own slot is among
them. -/
theorem WrittenBack.alike (hl : l.Valid) (hp : l.Planned cache plan) (hx : l.Slotted cache plan x)
    (h : l.WrittenBack cache plan x y) (h' : l.WrittenBack cache plan x y')
    (hk : l.program.Knows w) (hc : x.machine.memory.cell? w = some c)
    (hs : ∀ i, Accelerator.At plan.slots i w → y.Synced plan i ∧ y'.Synced plan i) :
    y.store.Alike c y'.store c := by
  have hm := hx.isSealed
  by_cases hcached : plan.Caches c
  · -- both cells hold the value of the slot
    have hown : w.IsOwn := by
      by_contra hown
      have hopen : l.Open plan w := by
        unfold Program.Knows at hk
        unfold Operand.IsOwn at hown
        cases hpart : w.part <;> simp_all [Open, Memory.cell?, Memory.cells?]
      exact hopen.cell hp hm hc hcached
    obtain ⟨i, slot, hi, -, rfl, rfl⟩ := hp.slot_of_cell hl hown ((hm.own hown).symm.trans hc)
      hcached
    obtain ⟨h₁, h₂⟩ := hs i ⟨slot, hi, rfl⟩
    have hv : y'.value? i = y.value? i := by simp only [State.value?, h.values, h'.values]
    exact alike_of_holds (h₁ slot hi) (hv ▸ h₂ slot hi)
  · -- neither cell has changed
    have hself := hx.matches_self hp
    have hR : Parted plan (fun c c' => c = c' ∧ c < x.store.cells.size) c c :=
      ⟨⟨rfl, hm.guarded.addressable w c hc⟩, hcached, hcached⟩
    have halike := (h.matching (fun hc => hc.2.2) hself).alike hR
    have halike' := (h'.matching (fun hc => hc.2.2) hself).alike hR
    exact ⟨halike.buffer?_eq.symm.trans halike'.buffer?_eq, halike.size_eq.symm.trans halike'.size_eq,
      halike.lengths_eq.symm.trans halike'.lengths_eq,
      halike.offset_eq.symm.trans halike'.offset_eq⟩

theorem Planned.mem_ids (hp : l.Planned cache plan)
    (hc : Accelerator.Caches (Accelerator.sourceOf l.program l.store l.memory cache) plan.slots z ids)
    (hw : w ∈ z.operands) (hi : Accelerator.At plan.slots i w) : i ∈ ids := by
  obtain ⟨slot, hi, rfl⟩ := hi
  obtain ⟨j, hj, slot', hj', hop⟩ := hc.covers _ hw _ (hp.typed_slot hi).1
  exact hp.slots.inj hj' hi hop ▸ hj

/-- An instruction that falls back goes on where the machine goes on when the slots of its operands
have been written back. -/
theorem Slotted.fallBack_iff (hp : l.Planned cache plan) (hx : l.Slotted cache plan x)
    (ids : List SlotId) (pc : Int) : ∃ y, l.WrittenBack cache plan x y ∧
      (∀ i ∈ ids, y.Synced plan i) ∧
      ∀ next, (∃ x', Accelerator.fallBack l.environment plan ids pc x = .ok next x') ↔
        ∃ n, Machine.step l.environment pc y.machine = .ok next n := by
  obtain ⟨y, hy, hw, hs⟩ := hx.flush hp ids
  obtain ⟨trace, width, hmachine⟩ := Accelerator.machineStep_eq l.environment pc y
  refine ⟨y, hw, hs, fun next => ?_⟩
  simp only [Accelerator.fallBack, bind, EStateM.bind, hy, hmachine]
  cases hn : Machine.step l.environment pc y.machine with
  | ok next' n => simp
  | error e n => cases e <;> simp

/-- A step by a plan executes the unit at its address; the line in the trace is no part of what a
unit works on. -/
theorem step_of_unit {u : Accelerator.ExecutionUnit} (env : Environment) (x : State)
    (hu : plan.units[pc.toNat]? = some u) : ∃ x' : State, x'.machine = x.machine ∧
      x'.values = x.values ∧
      Accelerator.step env plan pc x = Accelerator.execute env plan u pc x' := by
  simp only [Accelerator.step, hu]
  refine ⟨_, ?_, ?_, rfl⟩
  · split <;> rfl
  · split <;> rfl

/-- A jump that falls back goes on where the machine goes on when all slots have been written
back. -/
theorem Slotted.fallBack_jump (hl : l.Valid) (hp : l.Planned cache plan)
    (hx : l.Slotted cache plan x) (hz : Machine.instructionAt? l.program pc = some z)
    (hop : z.opcode = .jump on) (hops : z.operands = [d, a, b])
    (hc : Accelerator.Caches (Accelerator.sourceOf l.program l.store l.memory cache) plan.slots z ids)
    (hy : l.WrittenBack cache plan x y) (hs : ∀ i, y.Synced plan i) (next : Int) :
    (∃ x', Accelerator.fallBack l.environment plan ids pc x = .ok next x') ↔
      ∃ n, Machine.step l.environment pc y.machine = .ok next n := by
  obtain ⟨y₁, hw₁, hs₁, hfall⟩ := hx.fallBack_iff hp ids pc
  have hknows := (hl.admissible hz).knows
  have hmem₁ : y₁.machine.memory = x.machine.memory := by rw [hw₁.machine]
  have hmem : y.machine.memory = x.machine.memory := by rw [hy.machine]
  -- both states show the same at the operands
  have halike : ∀ w ∈ [a, b], ∀ c, x.machine.memory.cell? w = some c →
      y₁.store.Alike c y.store c := by
    intro w hw c hcell
    have hwz : w ∈ z.operands := by
      rw [hops]
      exact List.mem_cons_of_mem _ hw
    exact hw₁.alike hl hp hx hy (hknows w hwz) hcell fun i hi =>
      ⟨hs₁ i (hp.mem_ids hc hwz hi), hs i⟩
  rw [hfall, Machine.step_jump hw₁.slotted.isSealed.guarded.sound hz hop hops,
    Machine.step_jump hy.slotted.isSealed.guarded.sound hz hop hops, hmem₁, hmem]
  refine and_congr_right fun _ => ⟨fun hj => ?_, fun hj => ?_⟩
  · exact hj.congr (hmem.trans hmem₁.symm) fun w hw c hcell =>
      (halike w hw c (hmem₁ ▸ hcell)).symm
  · exact hj.congr (hmem₁.trans hmem.symm) fun w hw c hcell => halike w hw c (hmem ▸ hcell)

/-- A slot decides a jump as its cell does when all slots have been written back. -/
theorem WrittenBack.branches {v : Bool} (hp : l.Planned cache plan)
    (hy : l.WrittenBack cache plan x y) (hs : ∀ i, y.Synced plan i)
    (hi : Accelerator.At plan.slots i b) (hbool : x.bool? i = some v) (on : Bool) :
    ∃ c, y.machine.memory.cell? b = some c ∧ y.machine.store.branches on c = .ok (v == on) := by
  obtain ⟨slot, hi, rfl⟩ := hi
  obtain ⟨-, hcell, hown⟩ := hp.typed_slot hi
  have hold : y.machine.store.Holds slot.cell (y.value? i) := hs i slot hi
  have hval : y.value? i = x.value? i := by simp only [State.value?, hy.values]
  rw [State.bool?_eq] at hbool
  rw [hval] at hold
  exact ⟨slot.cell, (hy.slotted.isSealed.own hown).trans hcell,
    by simp [Store.branches, hold.readBools_eq, hbool]⟩

/-- A jump on a slot goes on where its condition and its label say when all slots have been
written back. -/
theorem Slotted.jumpsTo (hl : l.Valid) (hp : l.Planned cache plan) {rest : List Operand}
    {s : Store} {n : Int64} {v : Bool} (hz : z ∈ l.program.code)
    (hops : z.operands = d :: a :: b :: rest) (hglob : a.part ≠ .globals)
    (hg : l.memory.get l.store a = .ok (c, s)) (hn : s.int c = .ok n)
    (hi : Accelerator.At plan.slots i b) (hbool : x.bool? i = some v)
    (hy : l.WrittenBack cache plan x y) (hs : ∀ i, y.Synced plan i) :
    y.machine.JumpsTo on a b pc (if v = on then n.toInt else pc + 1) := by
  have hm := hy.slotted.isSealed
  obtain ⟨hconst, hcell, htarget⟩ := holds_target hl
    ((hl.wellFormed.code z hz).knows a (by simp [hops])) hglob hg hn
  obtain ⟨c', hb, hbranch⟩ := hy.branches hp hs hi hbool on
  by_cases hon : v = on
  · rw [if_pos hon]
    rw [hon, beq_self_eq_true] at hbranch
    exact .branch hb hbranch ((hm.own hconst.isOwn).trans hcell)
      (hm.constants hconst hcell htarget).int_eq
  · rw [if_neg hon]
    rw [beq_eq_false_iff_ne.mpr hon] at hbranch
    exact .pass hb hbranch

theorem WrittenBack.congr {x' : State} (h : l.WrittenBack cache plan x y)
    (hm : x'.machine = x.machine) (hv : x'.values = x.values) : l.WrittenBack cache plan x' y := by
  have hval : ∀ i, x'.value? i = x.value? i := fun i => by simp only [State.value?, hv]
  refine ⟨h.slotted, by rw [hm]; exact h.machine, h.values.trans hv.symm, fun i hi => ?_, ?_⟩
  · refine h.synced i fun slot hslot => ?_
    have := hi slot hslot
    rwa [hval, State.store, hm] at this
  · intro R s hR hs
    rw [State.store, hm] at hs
    exact h.matching hR hs

/-- An address that the label `y` had in the new memory. -/
def Labels (l : Launch) (y : Operand) (i : Int) : Prop :=
  ∃ c n, l.memory.cell? y = some c ∧ l.store.int c = .ok n ∧ n.toInt = i

/-- The label that a unit keeps is an address of the new memory. -/
theorem labels_of_get {s : Store} {n : Int64} (hg : l.memory.get l.store a = .ok (c, s))
    (hn : s.int c = .ok n) : l.Labels a n.toInt := by
  by_cases habs : a.part = .absent
  · have hvoid : s.Holds c none := by
      rw [Memory.get, habs] at hg
      cases hg
      simp [Store.Holds, Store.cell]
    simp [Store.int, Store.scalar, Store.scalarAs, hvoid.type_eq] at hn
  · obtain ⟨hcell, rfl⟩ := (Memory.get_eq_ok_iff habs).mp hg
    exact ⟨c, n, hcell, hn, rfl⟩

/-- The unit of a jump gives the next address that the machine gives when all slots have been written
back, or it goes by its slot to the address that its label had in the new memory. -/
theorem Slotted.jump_cases (hl : l.Valid) (hp : l.Planned cache plan) (hx : l.Slotted cache plan x)
    (hz : Machine.instructionAt? l.program pc = some z) (hop : z.opcode = .jump on)
    (hops : z.operands = [d, a, b]) :
    (∀ next, (∃ x', Accelerator.step l.environment plan pc x = .ok next x') ↔
      ∃ n, Machine.step l.environment pc (Stage.accelerating plan x).ended.machine = .ok next n) ∨
    plan.KeepsTarget pc ∧ ∃ c v target x', l.Labels a target ∧
      (Stage.accelerating plan x).ended.machine.memory.cell? b = some c ∧
      (Stage.accelerating plan x).ended.machine.store.branches on c = .ok (v == on) ∧
      Accelerator.step l.environment plan pc x = .ok (if v = on then target else pc + 1) x' ∧
      (a.part ≠ .globals → (Stage.accelerating plan x).ended.machine.JumpsTo on a b pc
        (if v = on then target else pc + 1)) := by
  obtain ⟨y, hy, hw, hs⟩ := hx.flush hp plan.slotIds
  have hended : (Stage.accelerating plan x).ended.machine = y.machine := by
    simp only [Stage.ended, hy]
    rfl
  have hs : ∀ i, y.Synced plan i := fun i slot hi =>
    hs i (by simpa [Plan.slotIds] using (Array.getElem?_eq_some_iff.mp hi).1) slot hi
  rw [hended]
  obtain ⟨u, hu, hunit⟩ := hp.unitOf hz
  obtain ⟨x', hm', hv', hstep⟩ := step_of_unit l.environment x hu
  have hx' : l.Slotted cache plan x' := hx.keeps (hm' ▸ hx.isSealed) hv' fun _ _ ho => by
    rwa [State.store, hm']
  have hw' := hw.congr hm' hv'
  rw [hstep]
  cases hunit with
  | fallback hc => exact .inl (hx'.fallBack_jump hl hp hz hop hops hc hw' hs)
  | @jump ids i on' target d' a' b' rest c s v hop' hops' hg hv htarget hi ht hc =>
    rw [hop] at hop'
    rw [hops] at hops'
    cases hop'
    cases hops'
    subst htarget
    simp only [Accelerator.execute]
    cases hbool : x'.bool? i with
    | none => exact .inl (hx'.fallBack_jump hl hp hz hop hops hc hw' hs)
    | some bv =>
      obtain ⟨c', hcell, hbranch⟩ := hw'.branches hp hs hi hbool on
      exact .inr ⟨⟨i, on, _, ids, hu⟩, c', bv, v.toInt, x', labels_of_get hg hv, hcell, hbranch, rfl,
        fun hglob => Slotted.jumpsTo hl hp (Valid.mem_code z hz) hops hglob hg hv hi hbool hw' hs⟩
  | skip ho => simp [hop, Accelerator.isNoOperation] at ho
  | alloc ho => simp [hop] at ho
  | scalar ho => simp [Accelerator.scalarOp?, hop] at ho
  | vector ho => simp [hop] at ho

/-- The unit of a jump gives the next address that the machine gives when all slots have been written
back, unless it keeps the address of a global. -/
theorem Slotted.step_jump (hl : l.Valid) (hp : l.Planned cache plan) (hx : l.Slotted cache plan x)
    (hz : Machine.instructionAt? l.program pc = some z) (hop : z.opcode = .jump on)
    (hops : z.operands = [d, a, b])
    (hfixed : plan.KeepsTarget pc → a.part ≠ .globals) :
    (∀ next x', Accelerator.step l.environment plan pc x = .ok next x' →
      (Stage.accelerating plan x).ended.machine.JumpsTo on a b pc next) ∧
    ∀ next m, Machine.step l.environment pc (Stage.accelerating plan x).ended.machine =
      .ok next m → ∃ x', Accelerator.step l.environment plan pc x = .ok next x' := by
  have hended : l.Sealed (l.typingOf cache) (Stage.accelerating plan x).ended.machine := by
    obtain ⟨y, hy, hw, -⟩ := hx.flush hp plan.slotIds
    simp only [Stage.ended, hy]
    exact hw.slotted.isSealed
  have hjumps : ∀ next,
      (∃ n, Machine.step l.environment pc (Stage.accelerating plan x).ended.machine = .ok next n) →
      (Stage.accelerating plan x).ended.machine.JumpsTo on a b pc next :=
    fun next hn => ((Machine.step_jump hended.guarded.sound hz hop hops).mp hn).2
  rcases hx.jump_cases hl hp hz hop hops with hiff | ⟨hkeeps, c, v, target, x', -, -, -, hstep, hto⟩
  · exact ⟨fun next x₁ hx₁ => hjumps next ((hiff next).mp ⟨x₁, hx₁⟩),
      fun next n hn => (hiff next).mpr ⟨n, hn⟩⟩
  · have hto := hto (hfixed hkeeps)
    refine ⟨fun next x₁ hx₁ => ?_, fun next n hn => ?_⟩
    · rw [hstep] at hx₁
      cases hx₁
      exact hto
    · rw [(hjumps next ⟨n, hn⟩).unique hto]
      exact ⟨x', hstep⟩

/-- In every session whose runs use one plan, compiled for the new memory, a jump goes on at the same
address by the plan as on the machine, with the memory that the run would leave at that moment:
whenever the unit of a jump gives the next address, it is the one that the condition and the label hold
there, and whenever the machine gives one there, the unit gives the same.  The label may be a global
only if the plan does not keep its address. -/
theorem jump_targets_agree (hl : l.Valid)
    (hplan : Accelerator.compile l.program l.store l.memory cache = .ok plan)
    (h : l.Repeats plan (.accelerating plan x))
    (hz : Machine.instructionAt? l.program pc = some z) (hop : z.opcode = .jump on)
    (hops : z.operands = [d, a, b])
    (hfixed : plan.KeepsTarget pc → a.part ≠ .globals) :
    (∀ next x', Accelerator.step l.environment plan pc x = .ok next x' →
      (Stage.accelerating plan x).ended.machine.JumpsTo on a b pc next) ∧
    ∀ next m, Machine.step l.environment pc (Stage.accelerating plan x).ended.machine =
      .ok next m → ∃ x', Accelerator.step l.environment plan pc x = .ok next x' := by
  have hp : l.Planned cache plan := Accelerator.planOf_of_compile hplan
  exact (h.kept hl hp).step_jump hl hp hz hop hops hfixed

/-- Computes the address of its last instruction and jumps to it. -/
def jumpsAhead : Program where
  code := #[
    { opcode := .arithmetic .add, types := [.int],
      operands := [⟨.registers, 0⟩, ⟨.constants, 0⟩, ⟨.constants, 1⟩] },
    { opcode := .jump true, types := [.bool],
      operands := [⟨.absent, 0⟩, ⟨.registers, 0⟩, ⟨.constants, 2⟩] },
    { opcode := .nop, types := [.void] },
    { opcode := .finish, types := [.void] }]
  constants := ⟨[("~bool:true", 2), ("~int:2", 1), ("~int:1", 0)]⟩
  result := Operand.absent
  extent := { registers := 0, constants := 2 }
  registers := [0]

/-- After the first step the register holds 3, and the unit of the jump goes on there. -/
theorem jump_targets_agree_jumpsAhead :
    let l := Launch.on jumpsAhead none {} #[]
    l.Valid ∧ ∃ plan x, Accelerator.compile l.program l.store l.memory true = .ok plan ∧
      l.Repeats plan (.accelerating plan x) ∧
      (∃ x', Accelerator.step l.environment plan 1 x = .ok 3 x') ∧
      (Stage.accelerating plan x).ended.machine.JumpsTo true ⟨.registers, 0⟩ ⟨.constants, 2⟩ 1 3 := by
  intro l
  have hasm : (Assembler.assemble
      "ADD int R0 ~int:1 ~int:2; JMP bool - R0 ~bool:true; NOP void; END void;" {}).toOption =
      some jumpsAhead := by decide +kernel
  have hl : l.Valid := valid_on hasm Store.sound_empty (by decide +kernel) (by decide +kernel)
    (by simp)
  let r := Accelerator.compile l.program l.store l.memory true
  have hr : r.toOption.isSome = true := by decide +kernel
  let plan := r.toOption.getD {}
  have hplan : Accelerator.compile l.program l.store l.memory true = .ok plan := by
    obtain ⟨plan', hplan'⟩ := Option.isSome_iff_exists.mp hr
    rw [show plan = plan' by simp [plan, hplan']]
    exact eq_ok_of_toOption hplan'
  have hfirst : Machine.instructionAt? l.program 0 = some jumpsAhead.code[0] := rfl
  have hsecond : Machine.instructionAt? l.program 1 = some jumpsAhead.code[1] := rfl
  let start : State := .start plan { l.machine with running := [] } {} 0
  have hx : l.Repeats plan (.accelerating plan
      (finalState (Accelerator.step l.environment plan 0 start))) :=
    .unit (.start {} 0 .allocated) hfirst
  refine ⟨hl, plan, _, hplan, hx, ?_⟩
  have hnext : (Accelerator.step l.environment plan 1).run'
      (finalState (Accelerator.step l.environment plan 0 start)) = some 3 := by decide +kernel
  have hagree := (jump_targets_agree hl hplan hx hsecond rfl rfl (by simp)).1
  delta EStateM.run' EStateM.run at hnext
  cases hstep : Accelerator.step l.environment plan 1
      (finalState (Accelerator.step l.environment plan 0 start)) with
  | error e x' => simp [hstep] at hnext
  | ok next x' =>
    obtain rfl : next = 3 := by simpa [hstep] using hnext
    exact ⟨⟨x', rfl⟩, hagree 3 x' hstep⟩

end Launch

end VectorMachine
