import VectorMachine.Proofs.Accelerator.Simulation
import VectorMachine.Proofs.Machine.Effects

/-!
# Units on slots and on arrays

Each special unit does to its slots, or to the containers of its operands, what the machine does
with the instruction; a unit that cannot do its work falls back.
-/

namespace VectorMachine
set_option autoImplicit false

open Accelerator (Plan Slot SlotId State Typing)
open Store (Pairing Matches)

/-- Global operands are among the first `n` globals. -/
def Program.Binds (p : Program) (n : Nat) : Prop :=
  ∀ z ∈ p.code, ∀ y ∈ z.operands, y.part = .globals → 0 ≤ y.addr ∧ y.addr < n

namespace Machine

variable {m : Machine} {env : Environment} {pc : Int} {z : Instruction}

theorem Fetched.fetches {y : Operand} {c : CellId} (h : Fetched m y c) : m.memory.Fetches y := by
  by_cases hy : y.part = .absent
  · exact .inl hy
  · exact .inr ⟨c, h.cell hy⟩

theorem fetchAll_of_fetches (ys : List Operand) (h : ∀ y ∈ ys, m.memory.Fetches y) :
    ∃ cs n, fetchAll ys m = .ok cs (m.grown n) := by
  induction ys generalizing m with
  | nil => exact ⟨[], 0, by rw [grown_zero]; rfl⟩
  | cons y ys ih =>
    have hone : ∃ c n, fetch y m = .ok c (m.grown n) := by
      rcases h y (by simp) with hy | ⟨c, hc⟩
      · exact ⟨_, 1, fetch_eq_of_absent hy⟩
      · exact ⟨c, 0, by rw [grown_zero]; exact fetch_eq_of_cell hc⟩
    obtain ⟨c, n, hn⟩ := hone
    obtain ⟨cs, k, hk⟩ := ih (m := m.grown n) fun w hw => h w (by simp [hw])
    refine ⟨c :: cs, n + k, ?_⟩
    simp only [fetchAll, bind, EStateM.bind, hn, hk, grown_grown]
    rfl

theorem finalState_fetchAll {ys : List Operand} (h : ∀ y ∈ ys, y.part ≠ .absent) :
    finalState (fetchAll ys m) = m := by
  induction ys with
  | nil => rfl
  | cons y ys ih =>
    have hrest := ih fun w hw => h w (by simp [hw])
    simp only [fetchAll, bind, EStateM.bind, fetch_eq_get (h y (by simp))]
    cases m.memory.get m.world.store y with
    | error a => rfl
    | ok r =>
      simp only
      cases hf : fetchAll ys m <;> rw [hf] at hrest <;> exact hrest

theorem step_ok {cs : List CellId} {m' n : Machine} {next : Int}
    (hz : instructionAt? env.program pc = some z) (hf : fetchAll z.operands m = .ok cs m')
    (he : execute env pc z cs m' = .ok next n) : step env pc m = .ok next n := by
  simp only [step, hz, hf, he]

theorem step_of_change {cs : List CellId} {m' : Machine} {s : Store}
    {f : Store → Except Failure Store} (hz : instructionAt? env.program pc = some z)
    (hf : fetchAll z.operands m = .ok cs m') (hc : change? z cs = some f)
    (hs : f m'.store = .ok s) :
    step env pc m = .ok (pc + 1) { m' with world.store := s } := by
  refine step_ok hz hf ?_
  simp only [execute, hc, bind, EStateM.bind, onStore]
  rw [show f m'.world.store = .ok s from hs]
  rfl

end Machine

theorem Accelerator.execute_vector_error {env : Environment} {plan : Plan} {x : State} {pc : Int}
    {op : Arithmetic} {t : DataType} {d a b : Operand} {ids : List SlotId} {e : Abort}
    {n : Machine} (h : Machine.fetchAll [d, a, b] x.machine = .error e n) :
    Accelerator.execute env plan ⟨.vector op t d a b, ids⟩ pc x =
      .error (.abort e) { x with machine := n } := by
  simp only [Machine.fetchAll, bind, EStateM.bind] at h
  simp only [Accelerator.execute, Accelerator.fetchCell, bind, EStateM.bind]
  cases h₁ : Machine.fetch d x.machine with
  | error e₁ m₁ =>
    rw [h₁] at h
    cases h
    rfl
  | ok c₁ m₁ =>
    rw [h₁] at h
    simp only at h ⊢
    cases h₂ : Machine.fetch a m₁ with
    | error e₂ m₂ =>
      rw [h₂] at h
      cases h
      rfl
    | ok c₂ m₂ =>
      rw [h₂] at h
      simp only at h ⊢
      cases h₃ : Machine.fetch b m₂ with
      | error e₃ m₃ =>
        rw [h₃] at h
        cases h
        rfl
      | ok c₃ m₃ =>
        rw [h₃] at h
        cases h

namespace Launch

variable {l : Launch} {cache : Bool} {plan : Plan} {R : Pairing} {m : Machine} {x y : State}
  {c : CellId} {i : SlotId} {slot : Slot} {pc : Int} {z : Instruction} {v : Scalar}

/-- The trace is no part of what a state follows. -/
theorem Follows.congr (h : l.Follows cache plan R m x) (hm : y.machine = x.machine)
    (hv : y.values = x.values) : l.Follows cache plan R m y := by
  have hval : ∀ i, y.value? i = x.value? i := fun i => by simp only [State.value?, hv]
  refine ⟨h.isSealed, hm ▸ h.isSealed', hm ▸ h.tied, h.apart, h.old, hm ▸ h.globals,
    hv ▸ h.size_eq, fun hi => hval _ ▸ h.values hi, fun hi hn => ?_⟩
  have := h.backed hi (hval _ ▸ hn)
  rwa [State.store, ← hm] at this

theorem Follows.grown (hp : l.Planned cache plan) (h : l.Follows cache plan R m x) (n : Nat) :
    l.Follows cache plan R (m.grown n) x := by
  have hm := Machine.moves_grown h.isSealed.guarded.within n
  have hs := h.isSealed.moves types_typingOf hm
  refine ⟨hs, h.isSealed', ⟨?_, h.tied.journal, h.tied.running, h.tied.stack, h.tied.off_stack,
    h.tied.cells, h.tied.sizes⟩, h.apart, h.old, h.globals, h.size_eq, fun {i slot} hi => ?_, h.backed⟩
  · exact h.tied.store.frame hs.guarded.sound hm.touches.cells_le
      (fun _ => Store.cell_freshMany n) fun _ => rfl
  · obtain ⟨ht, hcell, hown⟩ := hp.typed_slot hi
    exact h.isSealed.guarded.holds hm ⟨_, .inr ⟨_, ht⟩, (h.isSealed.own hown).trans hcell⟩
      (h.values hi)

/-- The machine stores a scalar of a slot's type into its cell, and the slot takes it. -/
theorem Follows.stores (hp : l.Planned cache plan) (h : l.Follows cache plan R m x) {s : Store}
    (hi : plan.slots[i]? = some slot) (hc : slot.isConstant = false) (hv : v.type = slot.type)
    (hs : m.store.Stores slot.cell v s) :
    l.Follows cache plan R { m with world.store := s } (x.set i v) := by
  obtain ⟨ht, hcell, hown⟩ := hp.typed_slot hi
  have hcached : plan.Caches slot.cell := ⟨i, slot, hi, hc, rfl⟩
  have hpart : slot.operand.part ≠ .constants := by simpa [Slot.isConstant] using hc
  have hlt : i < x.values.size := by
    rw [h.size_eq]
    exact (Array.getElem?_eq_some_iff.mp hi).1
  refine ⟨h.isSealed.stores types_typingOf ht hpart hcell hv hs, h.isSealed', ?_, h.apart, h.old,
    h.globals, ?_, fun {j slot'} hj => ?_, fun {j slot'} hj hnone => ?_⟩
  · refine ⟨h.tied.store.rewrites (hp.isolated h.isSealed hcached) (fun hcc he => ?_)
      hs.toRewrites, h.tied.journal, h.tied.running, h.tied.stack, h.tied.off_stack, h.tied.cells, h.tied.sizes⟩
    exact (h.apart hcc).1 (he ▸ hcached)
  · simpa [State.set] using h.size_eq
  · rw [value?_set hlt]
    split
    · rename_i hji
      subst hji
      rw [hi] at hj
      cases hj
      exact hs.holds
    · rename_i hji
      obtain ⟨ht', hcell', hown'⟩ := hp.typed_slot hj
      exact h.isSealed.guarded.holds_rewrites
        ⟨_, .inr ⟨_, ht'⟩, (h.isSealed.own hown').trans hcell'⟩ hs.toRewrites
        (fun he => hji (hp.eq_of_cell h.isSealed hj hi he)) (h.values hj)
  · rw [value?_set hlt] at hnone
    split at hnone
    · cases hnone
    · exact h.backed hj hnone

/-- With these globals, the operands of all instructions that no unit fetches can be fetched. -/
def Heeds (l : Launch) (cache : Bool) (globals : Array CellId) : Prop :=
  ∀ z ∈ l.program.code,
    ({ l.machine with memory := l.memory.bindGlobals globals } : Machine).Heeds cache z

/-- What can be fetched depends on the globals alone. -/
theorem Sealed.fetches {g : Typing} {y : Operand} (h : l.Sealed g m) (hk : l.program.Knows y)
    (hy : (l.memory.bindGlobals m.memory.globals).Fetches y) : m.memory.Fetches y := by
  refine hy.imp_right fun hc => ?_
  have hown : y.IsOwn → ∃ c, m.memory.cell? y = some c := by
    intro hown
    rw [h.own hown]
    rcases hown with hp | hp | hp <;>
      simpa [Memory.cell?, Memory.cells?, Memory.bindGlobals, hp] using hc
  cases hp : y.part with
  | globals => simpa [Memory.cell?, Memory.cells?, Memory.bindGlobals, hp] using hc
  | locals => exact hown (.inl hp)
  | registers => exact hown (.inr (.inl hp))
  | constants => exact hown (.inr (.inr hp))
  | absent => simp [Memory.cell?, Memory.cells?, hp] at hc
  | stack | unknown n => simp [Program.Knows, hp] at hk

theorem Follows.skip (hp : l.Planned cache plan) (h : l.Follows cache plan R m x)
    (hb : l.Relies cache m z) (hz : Machine.instructionAt? l.program pc = some z)
    (ho : Accelerator.isNoOperation z.opcode = true) :
    l.Parallel cache plan (Machine.step l.environment pc m) (.ok (pc + 1) x) := by
  obtain ⟨cs, n, hf⟩ := Machine.fetchAll_of_fetches z.operands fun y hy => by
    obtain ⟨i, hi⟩ := List.getElem?_of_mem hy
    exact hb.fetches i y hi (.inl ho)
  rw [Machine.step_eq_of_noOperation hz ho, hf]
  exact ⟨rfl, R, h.grown hp n⟩

theorem Follows.fetch_slot (hp : l.Planned cache plan) (h : l.Follows cache plan R m x)
    {y : Operand} (hy : Accelerator.At plan.slots i y) : ∃ slot, plan.slots[i]? = some slot ∧
      slot.operand = y ∧ m.memory.cell? y = some slot.cell ∧
      (l.typingOf cache).type? y = some slot.type ∧ m.store.Holds slot.cell (x.value? i) := by
  obtain ⟨slot, hi, rfl⟩ := hy
  obtain ⟨ht, hcell, hown⟩ := hp.typed_slot hi
  exact ⟨slot, hi, rfl, (h.isSealed.own hown).trans hcell, ht, h.values hi⟩

theorem Follows.alloc (hl : l.Valid) (hp : l.Planned cache plan) (h : l.Follows cache plan R m x)
    {d : Operand} (hz : Machine.instructionAt? l.program pc = some z) (hop : z.opcode = .alloc)
    (hops : z.operands = [d]) (hd : Accelerator.At plan.slots i d)
    (ht : (l.typingOf cache).type? d = some z.type) :
    l.Parallel cache plan (Machine.step l.environment pc m) (.ok (pc + 1) (x.allocate plan i)) := by
  obtain ⟨slot, hi, rfl, hcell, ht', hold⟩ := h.fetch_slot hp hd
  rw [ht] at ht'
  have htype : z.type = slot.type := Option.some.inj ht'
  have hconst := not_isConstant hl (Valid.mem_code z hz) (by rw [hop]; rfl) hops
  have hiso := hp.isolated h.isSealed ⟨i, slot, hi, hconst, rfl⟩
  have hcon := hp.isConcrete hi
  have hf : Machine.fetchAll z.operands m = .ok [slot.cell] m := by
    simp only [hops, Machine.fetchAll, bind, EStateM.bind, Machine.fetch_eq_of_cell hcell]
    rfl
  have hchange : Machine.change? z [slot.cell] = some (·.allocate z.type slot.cell []) := by
    simp only [Machine.change?, hop]
  have hall : ∀ s, m.store.alloc slot.cell slot.type [] = .ok s →
      m.store.allocate z.type slot.cell [] = .ok s := by
    intro s hs
    simp [Store.allocate, htype, hcon, hs, Store.mapError_eq_ok]
  cases hval : x.value? i with
  | none =>
    rw [hval] at hold
    obtain ⟨v, s, hv, hzero, hs, hst⟩ :=
      Store.alloc_holds_none h.isSealed.guarded.sound hiso hold hcon
    rw [Machine.step_of_change hz hf hchange (hall s hs)]
    refine ⟨rfl, R, ?_⟩
    have hx : x.allocate plan i = x.set i v := by
      simp [State.allocate, hval, hi, hzero, Lanes.get?_ofScalar]
    rw [hx]
    exact h.stores hp hi hconst hv hst
  | some v =>
    have hv := h.type_eq hp hi hval
    rw [hval] at hold
    rw [Machine.step_of_change hz hf hchange (hall m.store (hv ▸ Store.alloc_holds_some hold))]
    have hx : x.allocate plan i = x := by simp [State.allocate, hval]
    rw [hx]
    exact ⟨rfl, R, h⟩

/-- The cells that are fetched for operands with slots hold the values of the slots. -/
theorem Follows.fetchAll_slots (hp : l.Planned cache plan) (h : l.Follows cache plan R m x)
    {ys : List Operand} {js : List SlotId}
    (hj : List.Forall₂ (fun y j => Accelerator.At plan.slots j y) ys js) :
    ∃ cs, Machine.fetchAll ys m = .ok cs m ∧
      Accelerator.SlotCells m.store x (l.typingOf cache) ys js cs := by
  induction hj with
  | nil => exact ⟨[], rfl, .nil, .nil⟩
  | cons hy _ ih =>
    obtain ⟨slot, hi, rfl, hcell, ht, hold⟩ := h.fetch_slot hp hy
    obtain ⟨cs, hf, hcs, hty⟩ := ih
    refine ⟨slot.cell :: cs, ?_, .cons hold hcs, .cons (fun w hw => ?_) hty⟩
    · simp only [Machine.fetchAll, bind, EStateM.bind, Machine.fetch_eq_of_cell hcell, hf]
      rfl
    · rw [ht, h.type_eq hp hi hw]

/-- A unit on slots stores what the machine stores. -/
theorem Follows.scalar (hl : l.Valid) (hp : l.Planned cache plan) (h : l.Follows cache plan R m x)
    {op : Accelerator.ScalarOp} {js : List SlotId} {d : SlotId}
    (hz : Machine.instructionAt? l.program pc = some z)
    (hop : Accelerator.scalarOp? z js = some op)
    (hj : List.Forall₂ (fun y j => Accelerator.At plan.slots j y) z.operands js)
    (hw : z.opcode.writes = true → ∃ w rest t, z.operands = w :: rest ∧
      (l.typingOf cache).type? w = some t ∧ (l.typingOf cache).produces? z = some t)
    (hr : op.result? x = some (d, v)) :
    l.Parallel cache plan (Machine.step l.environment pc m)
      (.ok (pc + 1) (Accelerator.storeResult plan x d v)) := by
  have hwrites : z.opcode.writes = true := by
    unfold Accelerator.scalarOp? at hop
    split at hop <;> first | (rename_i hz; rw [hz]; rfl) | cases hop
  obtain ⟨w, rest, t, hops, ht, hprod⟩ := hw hwrites
  obtain ⟨cs, hf, hcells⟩ := h.fetchAll_slots hp hj
  obtain ⟨hhead, c, cs', r, rfl, hchange, hres, hv⟩ :=
    Accelerator.computes_result hop hprod hcells hr
  -- the destination has the first slot and the first cell
  rw [hops] at hj
  cases hj with
  | cons hd _ =>
    cases hhead
    obtain ⟨slot, hi, rfl, hcell, ht', hold⟩ := h.fetch_slot hp hd
    rw [ht] at ht'
    cases ht'
    have hcs : slot.cell = c := by
      have hfc := Machine.fetch_eq_of_cell hcell
      rw [hops] at hf
      simp only [Machine.fetchAll, bind, EStateM.bind, hfc] at hf
      cases hrest : Machine.fetchAll rest m <;> rw [hrest] at hf <;> cases hf
      rfl
    subst hcs
    have hconst := not_isConstant hl (Valid.mem_code z hz) hwrites hops
    have hiso := hp.isolated h.isSealed ⟨_, slot, hi, hconst, rfl⟩
    obtain ⟨s, hs, hst⟩ := Store.deliver_holds h.isSealed.guarded.sound hiso hold
      (v := Accelerator.coerce slot.type v) fun u hu => (h.type_eq hp hi hu).trans hv.symm
    have hreceive : m.store.receive slot.cell (r m.store) = .ok s := by
      rw [hres]
      exact hs
    rw [Machine.step_of_change hz hf hchange hreceive]
    refine ⟨rfl, R, ?_⟩
    have hx : Accelerator.storeResult plan x d v = x.set d (Accelerator.coerce slot.type v) := by
      simp only [Accelerator.storeResult, hi]
    rw [hx]
    exact h.stores hp hi hconst hv hst

/-- In the new memory an operand other than a global is void or a constant. -/
theorem target_cases (hl : l.Valid) {a : Operand} {s : Store} (hk : l.program.Knows a)
    (hglob : a.part ≠ .globals) (hg : l.memory.get l.store a = .ok (c, s)) : s.Holds c none ∨
      s = l.store ∧ a.IsConstant ∧ l.memory.cell? a = some c ∧ ∃ v, l.store.Holds c (some v) := by
  by_cases habs : a.part = .absent
  · rw [Memory.get, habs] at hg
    cases hg
    exact .inl (by simp [Store.Holds, Store.cell])
  · obtain ⟨hcell, rfl⟩ := (Memory.get_eq_ok_iff habs).mp hg
    have hna := Memory.allocated hl.sound hl.allocated
    have hown : a.IsOwn := by
      unfold Program.Knows at hk
      unfold Operand.IsOwn
      cases hp : a.part <;> simp_all
    obtain ⟨-, h₁ | h₁ | ⟨h₁, -⟩⟩ := Machine.cell?_of_allocated hna hown hcell
    · exact .inl (hna.void c (by omega) (by omega))
    · exact .inl (hna.void c (by omega) (by omega))
    · obtain ⟨-, v, -, -, hv⟩ := hl.holds_constant h₁ hcell
      exact .inr ⟨rfl, h₁, hcell, v, hv⟩

/-- The target of a jump that was read when the plan was compiled is a constant. -/
theorem holds_target (hl : l.Valid) {a : Operand} {s : Store} {n : Int64}
    (hk : l.program.Knows a) (hglob : a.part ≠ .globals)
    (hg : l.memory.get l.store a = .ok (c, s)) (hn : s.int c = .ok n) :
    a.IsConstant ∧ l.memory.cell? a = some c ∧ l.store.Holds c (some (.int n)) := by
  rcases target_cases hl hk hglob hg with ho | ⟨rfl, hconst, hcell, v, ho⟩
  · simp [Store.int, Store.scalar, Store.scalarAs, ho.type_eq] at hn
  · refine ⟨hconst, hcell, ?_⟩
    cases v with
    | int k =>
      rw [ho.int_eq] at hn
      cases hn
      exact ho
    | _ => simp [Store.int, Store.scalar, Store.scalarAs, ho.type_eq, Scalar.type] at hn

theorem Follows.jump (hl : l.Valid) (hp : l.Planned cache plan)
    (h : l.Follows cache plan R m x) (hb : l.Relies cache m z) {on bv : Bool}
    {d a b : Operand} {rest : List Operand} {s : Store} {n : Int64}
    (hz : Machine.instructionAt? l.program pc = some z) (hop : z.opcode = .jump on)
    (hops : z.operands = d :: a :: b :: rest) (hg : l.memory.get l.store a = .ok (c, s))
    (hn : s.int c = .ok n) (hi : Accelerator.At plan.slots i b)
    (ht : (l.typingOf cache).type? b = some .bool) (hbool : x.bool? i = some bv) :
    l.Parallel cache plan (Machine.step l.environment pc m)
      (.ok (if bv = on then n.toInt else pc + 1) x) := by
  have hcode := Valid.mem_code z hz
  have hadm := hl.wellFormed.code z hcode
  obtain ⟨hconst, hcell, htarget⟩ := holds_target hl (hadm.knows a (by simp [hops]))
    (hb.fixed on hop a b (by simp [hops]) (by simp [hops]) ht) hg hn
  have hcache : cache = true := by
    cases cache with
    | true => rfl
    | false => cases ht
  have hrest : rest = [] := by
    have harity := hadm.arity
    simp only [hop, hops, Opcode.arity, Opcode.Arity.admits, List.length_cons, Option.all_some,
      Bool.and_eq_true, decide_eq_true_eq] at harity
    exact List.eq_nil_of_length_eq_zero (by omega)
  obtain ⟨cs, k, hf⟩ := Machine.fetchAll_of_fetches z.operands fun y hy => by
    rw [hops, hrest] at hy
    simp only [List.mem_cons, List.not_mem_nil, or_false] at hy
    rcases hy with rfl | rfl | rfl
    · exact hb.fetches 0 y (by simp [hops]) (.inr ⟨hcache, rfl, on, hop⟩)
    · exact .inr ⟨c, (h.isSealed.own hconst.isOwn).trans hcell⟩
    · obtain ⟨slot, -, -, hslot, -⟩ := h.fetch_slot hp hi
      exact .inr ⟨_, hslot⟩
  obtain ⟨-, -, hok⟩ := Machine.fetchAll_spec z.operands m
  have hcs := hok cs _ hf
  rw [hops] at hcs
  rcases hcs with _ | ⟨-, _ | ⟨hca, _ | ⟨hcb, -⟩⟩⟩
  rename_i c₀ ca cb cs
  have h' := h.grown hp k
  obtain ⟨slot, hslot, rfl, hbcell, -, -⟩ := h.fetch_slot hp hi
  obtain rfl : ca = c := hca.1.eq_of_cell ((h.isSealed.own hconst.isOwn).trans hcell)
  obtain rfl : cb = slot.cell := hcb.1.eq_of_cell hbcell
  have hbranch : (m.grown k).store.branches on slot.cell = .ok (bv == on) := by
    rw [State.bool?_eq] at hbool
    simp [Store.branches, (h'.values hslot).readBools_eq, hbool]
  have haddr : (m.grown k).store.int ca = .ok n := by
    exact (h'.isSealed.constants hconst hcell htarget).int_eq
  have he : Machine.execute l.environment pc z (c₀ :: ca :: slot.cell :: cs) (m.grown k) =
      .ok (if bv = on then n.toInt else pc + 1) (m.grown k) := by
    simp only [Machine.execute, Machine.change?, Machine.control, hop, bind, EStateM.bind,
      Machine.consult, Machine.address]
    rw [show (m.grown k).world.store.branches on slot.cell = .ok (bv == on) from hbranch]
    by_cases hon : bv = on
    · simp only [hon, beq_self_eq_true, if_true, Machine.consult]
      rw [show (m.grown k).world.store.int ca = .ok n from haddr]
      rfl
    · simp only [beq_eq_false_iff_ne.mpr hon, hon, if_false, Bool.false_eq_true]
      rfl
  rw [Machine.step_ok hz hf he]
  exact ⟨rfl, R, h'⟩

/-- The cell of an address that no slot keeps is the same on both sides. -/
theorem Follows.fetch_open (h : l.Follows cache plan R m x) {y : Operand} (hopen : l.Open plan y)
    (hc : m.memory.cell? y = some c) : x.machine.memory.cell? y = some c ∧ R c c := by
  have hc' : x.machine.memory.cell? y = some c := by
    rcases hopen with hg | ⟨hown, -⟩
    · rw [← hc]
      simp only [Memory.cell?, Memory.cells?, hg, h.globals]
    · rw [h.isSealed'.own hown, ← h.isSealed.own hown, hc]
  have hR := h.tied.cells hopen
  rw [hc, hc'] at hR
  cases hR with
  | some hR => exact ⟨hc', hR⟩

/-- Both sides write the same elements into a cell that no slot keeps. -/
theorem Follows.write (hp : l.Planned cache plan) (h : l.Follows cache plan R m x) (hR : R c c)
    (hm : ¬ m.IsGuard (Closed (l.typingOf cache)) c)
    (hx : ¬ x.machine.IsGuard (Closed (l.typingOf cache)) c) (data : Lanes) :
    l.Follows cache plan R { m with world.store := m.store.write c data }
      { x with machine.world.store := x.store.write c data } := by
  have hmoves := Machine.Moves.of_touches h.isSealed.guarded.within
    (Store.Touches.write h.isSealed.guarded.within.region hm data)
  have hmoves' := Machine.Moves.of_touches h.isSealed'.guarded.within
    (Store.Touches.write h.isSealed'.guarded.within.region hx data)
  refine ⟨h.isSealed.moves types_typingOf hmoves, h.isSealed'.moves types_typingOf hmoves',
    ⟨h.tied.store.write hR data, h.tied.journal, h.tied.running, h.tied.stack, h.tied.off_stack,
      h.tied.cells, h.tied.sizes⟩, h.apart, h.old, h.globals, h.size_eq, fun {i slot} hi => ?_,
    fun {i slot} hi hnone => ?_⟩
  · obtain ⟨ht, hcell, hown⟩ := hp.typed_slot hi
    exact h.isSealed.guarded.holds hmoves ⟨_, .inr ⟨_, ht⟩, (h.isSealed.own hown).trans hcell⟩
      (h.values hi)
  · obtain ⟨ht, hcell, hown⟩ := hp.typed_slot hi
    exact h.isSealed'.guarded.holds hmoves' ⟨_, .inr ⟨_, ht⟩, (h.isSealed'.own hown).trans hcell⟩
      (h.backed hi hnone)

/-- A unit on arrays fetches its operands as the machine does, and fails as it does. -/
theorem Follows.vector_fault (h : l.Follows cache plan R m x) {op : Arithmetic} {t : DataType}
    {d a b : Operand} {ids : List SlotId} (hz : Machine.instructionAt? l.program pc = some z)
    (hops : z.operands = [d, a, b]) (hpart : ∀ y ∈ z.operands, y.part ≠ .absent)
    (hopen : ∀ y ∈ z.operands, l.Open plan y)
    (hnone : ¬ ∀ y ∈ z.operands, ∃ c, m.memory.cell? y = some c) :
    l.Parallel cache plan (Machine.step l.environment pc m)
      (Accelerator.execute l.environment plan ⟨.vector op t d a b, ids⟩ pc x) := by
  have hf : Machine.Relates True (l.Open plan) R (fun R cs cs' => List.Forall₂ R cs cs')
      (Machine.fetchAll z.operands m) (Machine.fetchAll z.operands x.machine) :=
    Machine.relates_fetchAll h.tied fun y hy => .inr (hopen y hy)
  have hm := Machine.finalState_fetchAll (m := m) hpart
  have hx := Machine.finalState_fetchAll (m := x.machine) hpart
  cases h₁ : Machine.fetchAll z.operands m <;>
    cases h₂ : Machine.fetchAll z.operands x.machine <;> rw [h₁, h₂] at hf
  · refine (hnone fun y hy => ?_).elim
    obtain ⟨-, -, hok⟩ := Machine.fetchAll_spec z.operands m
    obtain ⟨i, hi⟩ := List.getElem?_of_mem hy
    obtain ⟨c, -, hc, -⟩ := Machine.exists_of_forall₂ (hok _ _ h₁).flip hi
    exact ⟨c, hc.cell (hpart y hy)⟩
  · exact hf.elim
  · exact hf.elim
  · rename_i e m₁ e' m₂
    obtain ⟨rfl, -⟩ := hf
    rw [h₁] at hm
    rw [h₂] at hx
    change m₁ = m at hm
    change m₂ = x.machine at hx
    subst hm hx
    rw [Machine.step_of_fetchAll_error hz h₁, Accelerator.execute_vector_error (hops ▸ h₂)]
    exact ⟨rfl, R, h⟩

theorem Follows.vector (hl : l.Valid) (hp : l.Planned cache plan)
    (h : l.Follows cache plan R m x) (hr : l.Relies cache m z) {op : Arithmetic}
    {d a b : Operand} {ids : List SlotId}
    (hz : Machine.instructionAt? l.program pc = some z) (hop : z.opcode = .arithmetic op)
    (hops : z.operands = [d, a, b]) (hv : Accelerator.isVectorOp op z.type = true)
    (hfree : ∀ y ∈ z.operands, y.isAbsent = false ∧ (l.typingOf cache).has y = false)
    (hc : Accelerator.Caches (Accelerator.sourceOf l.program l.store l.memory cache) plan.slots z ids) :
    l.Parallel cache plan (Machine.step l.environment pc m)
      (Accelerator.execute l.environment plan ⟨.vector op z.type d a b, ids⟩ pc x) := by
  have hcode := Valid.mem_code z hz
  have hpart : ∀ y ∈ z.operands, y.part ≠ .absent :=
    fun y hy => by simpa [Operand.isAbsent] using (hfree y hy).1
  have hopen : ∀ y ∈ z.operands, l.Open plan y := fun y hy =>
    hp.open_of_untyped hl ((hl.wellFormed.code z hcode).knows y hy) (hpart y hy)
      (by simpa [Typing.has] using (hfree y hy).2)
  by_cases hcell : ∀ y ∈ z.operands, ∃ c, m.memory.cell? y = some c
  case neg => exact h.vector_fault hz hops hpart hopen hcell
  obtain ⟨c₀, hd⟩ := hcell d (by simp [hops])
  obtain ⟨c₁, ha⟩ := hcell a (by simp [hops])
  obtain ⟨c₂, hb⟩ := hcell b (by simp [hops])
  obtain ⟨hd', hR₀⟩ := h.fetch_open (hopen d (by simp [hops])) hd
  obtain ⟨ha', hR₁⟩ := h.fetch_open (hopen a (by simp [hops])) ha
  obtain ⟨hb', hR₂⟩ := h.fetch_open (hopen b (by simp [hops])) hb
  have hlanes : Accelerator.vectorLanes? x.store op z.type c₀ c₁ c₂ =
      Accelerator.vectorLanes? m.store op z.type c₀ c₁ c₂ :=
    (Accelerator.vectorLanes?_eq (h.tied.store.alike hR₀) (h.tied.store.alike hR₁)
      (h.tied.store.alike hR₂)).symm
  have hexec : Accelerator.execute l.environment plan ⟨.vector op z.type d a b, ids⟩ pc x =
      Accelerator.deliverLanes l.environment plan ids pc c₀
        (Accelerator.vectorLanes? m.store op z.type c₀ c₁ c₂) x := by
    simp only [Accelerator.execute, Accelerator.fetchCell, bind, EStateM.bind,
      Machine.fetch_eq_of_cell hd', Machine.fetch_eq_of_cell ha', Machine.fetch_eq_of_cell hb',
      ← hlanes]
    rfl
  rw [hexec]
  cases hdata : Accelerator.vectorLanes? m.store op z.type c₀ c₁ c₂ with
  | none => exact h.fallBack hl hp hr hz hc
  | some data =>
    have hf : Machine.fetchAll z.operands m = .ok [c₀, c₁, c₂] m := by
      simp only [hops, Machine.fetchAll, bind, EStateM.bind, Machine.fetch_eq_of_cell hd,
        Machine.fetch_eq_of_cell ha, Machine.fetch_eq_of_cell hb]
      rfl
    have hchange : Machine.change? z [c₀, c₁, c₂] = some (·.arithmetic op z.type c₀ c₁ c₂) := by
      simp only [Machine.change?, hop]
    rw [Machine.step_of_change hz hf hchange
      (Accelerator.arithmetic_of_vectorLanes h.isSealed.guarded.sound hv hdata)]
    have hwrites : z.opcode.writes = true := by
      rw [hop]
      rfl
    have hopen := fun {n : Machine} (hn : l.Sealed (l.typingOf cache) n) =>
      hn.not_isGuard_destination (c := c₀) hl hcode hwrites hops
        (hfree d (by simp [hops])).2
    exact ⟨rfl, R, h.write hp hR₀ (hopen h.isSealed hd) (hopen h.isSealed' hd') data⟩

end Launch

end VectorMachine
