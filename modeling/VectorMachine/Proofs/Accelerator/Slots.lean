import VectorMachine.Proofs.Accelerator.Cacheability
import VectorMachine.Proofs.Accelerator.ScalarUnits

/-!
# Slots of an accelerated run

During an accelerated run the cell of a slot may lag behind its value.  At every moment the value
has the type of the slot, and the cell lags behind neither for a constant nor for a slot without a
value.  So all slots can be written back at any moment; then their cells hold their values, and all
other cells show what they showed before.
-/

namespace VectorMachine
set_option autoImplicit false

open Accelerator (Plan Slot SlotId State Typing)
open Store (Pairing Matches)

/-- Whether a cell is kept in a slot during a run. -/
def Accelerator.Plan.Caches (plan : Plan) (c : CellId) : Prop :=
  ∃ (i : Nat) (slot : Slot), plan.slots[i]? = some slot ∧ slot.isConstant = false ∧ slot.cell = c

/-- The cell of a slot holds the value of the slot. -/
def Accelerator.State.Synced (plan : Plan) (x : State) (i : SlotId) : Prop :=
  ∀ slot, plan.slots[i]? = some slot → x.store.Holds slot.cell (x.value? i)

namespace Launch

variable {l : Launch} {cache : Bool} {plan : Plan} {m : Machine} {x y : State} {c : CellId}
  {i : SlotId} {slot : Slot} {o : Option Scalar} {v : Scalar} {pc : Int} {z : Instruction}
  {ids : List SlotId}

/-- The typing that a plan of the session is compiled with. -/
def typingOf (l : Launch) (cache : Bool) : Typing :=
  (Accelerator.sourceOf l.program l.store l.memory cache).typing

theorem types_typingOf : l.Types (l.typingOf cache) := by
  cases cache with
  | true => exact .typing
  | false =>
    have hnone : ∀ y, (l.typingOf false).type? y = none := fun y => rfl
    exact ⟨fun h => by simp [hnone] at h, fun h => by simp [hnone] at h⟩

/-- A plan for the program on the new memory of the session. -/
abbrev Planned (l : Launch) (cache : Bool) (plan : Plan) : Prop :=
  Accelerator.PlanOf (Accelerator.sourceOf l.program l.store l.memory cache) l.program plan

theorem Planned.typed_slot (hp : l.Planned cache plan) (hi : plan.slots[i]? = some slot) :
    (l.typingOf cache).type? slot.operand = some slot.type ∧
      l.memory.cell? slot.operand = some slot.cell ∧ slot.operand.IsOwn := by
  obtain ⟨h₁, h₂⟩ := hp.slots.typed hi
  exact ⟨h₁, h₂, Accelerator.isOwn_of_type? h₁⟩

theorem Planned.isConcrete (hp : l.Planned cache plan) (hi : plan.slots[i]? = some slot) :
    slot.type.isConcrete = true := by
  have := (types_typingOf.typed (hp.typed_slot hi).1).isCacheable
  cases hs : slot.type <;> rw [hs] at this <;> first | rfl | cases this

/-- Slots have cells of their own. -/
theorem Planned.eq_of_cell (hp : l.Planned cache plan) (hm : l.Sealed (l.typingOf cache) m)
    {j : SlotId} {slot' : Slot} (hi : plan.slots[i]? = some slot)
    (hj : plan.slots[j]? = some slot') (he : slot.cell = slot'.cell) : i = j := by
  obtain ⟨-, hc, hown⟩ := hp.typed_slot hi
  obtain ⟨-, hc', hown'⟩ := hp.typed_slot hj
  exact hp.slots.inj hi hj (hm.guarded.apart.own_inj hown hown' ((hm.own hown).trans hc)
    ((hm.own hown').trans (he ▸ hc')))

theorem Planned.isGuard_slot (hp : l.Planned cache plan) (hm : l.Sealed (l.typingOf cache) m)
    (hi : plan.slots[i]? = some slot) : m.IsGuard (Closed (l.typingOf cache)) slot.cell := by
  obtain ⟨ht, hcell, hown⟩ := hp.typed_slot hi
  exact ⟨slot.operand, .inr ⟨_, ht⟩, (hm.own hown).trans hcell⟩

theorem Planned.isGuard (hp : l.Planned cache plan) (hm : l.Sealed (l.typingOf cache) m)
    (hc : plan.Caches c) : m.IsGuard (Closed (l.typingOf cache)) c := by
  obtain ⟨i, slot, hi, -, rfl⟩ := hc
  exact hp.isGuard_slot hm hi

theorem Planned.isolated (hp : l.Planned cache plan) (hm : l.Sealed (l.typingOf cache) m)
    (hc : plan.Caches c) : m.store.Isolated c :=
  hm.guarded.isolated (hp.isGuard hm hc)

/-- What holds of the slots during a run. -/
structure Slotted (l : Launch) (cache : Bool) (plan : Plan) (x : State) : Prop where
  isSealed : l.Sealed (l.typingOf cache) x.machine
  size_eq : x.values.size = plan.slots.size
  type_eq : ∀ {i slot v}, plan.slots[i]? = some slot → x.value? i = some v → v.type = slot.type
  backed : ∀ {i slot}, plan.slots[i]? = some slot →
    slot.isConstant = true ∨ x.value? i = none → x.store.Holds slot.cell (x.value? i)

/-- Slots whose values stay need only keep the cells that do not lag behind. -/
theorem Slotted.keeps (h : l.Slotted cache plan x) (hs : l.Sealed (l.typingOf cache) y.machine)
    (hv : y.values = x.values)
    (hold : ∀ {i slot o}, plan.slots[i]? = some slot →
      slot.isConstant = true ∨ x.value? i = none → x.store.Holds slot.cell o →
      y.store.Holds slot.cell o) : l.Slotted cache plan y := by
  have hval : ∀ i, y.value? i = x.value? i := fun i => by simp only [State.value?, hv]
  refine ⟨hs, hv ▸ h.size_eq, fun hi hw => h.type_eq hi (hval _ ▸ hw), fun hi hb => ?_⟩
  rw [hval] at hb ⊢
  exact hold hi hb (h.backed hi hb)

theorem Slotted.moves (hp : l.Planned cache plan) (h : l.Slotted cache plan x)
    (hm : Machine.Moves (fun c => ¬ x.machine.IsGuard (Closed (l.typingOf cache)) c) x.machine
      y.machine) (hv : y.values = x.values) : l.Slotted cache plan y :=
  h.keeps (h.isSealed.moves types_typingOf hm) hv fun hi _ ho =>
    h.isSealed.guarded.holds hm (hp.isGuard_slot h.isSealed hi) ho

/-! ### Writing slots back -/

/-- What is written back: a slot with a value that its cell may take. -/
theorem flushSlot_spec {s : Store} {o' : Option Scalar} (hs : s.Sound)
    (hiso : s.Isolated slot.cell) (ho : s.Holds slot.cell o')
    (hcon : slot.type.isConcrete = true) (hty' : ∀ w, o' = some w → w.type = slot.type)
    (hty : ∀ v, o = some v → v.type = slot.type) (hconst : slot.isConstant = true → o' = o)
    (hnone : o = none → o' = none) :
    ∃ t, Accelerator.flushSlot s slot o = .ok t ∧ t.Holds slot.cell o ∧
      (t = s ∨ slot.isConstant = false ∧ ∃ v, o = some v ∧ v.type = slot.type ∧
        s.Stores slot.cell v t) := by
  unfold Accelerator.flushSlot
  cases o with
  | none => exact ⟨s, rfl, hnone rfl ▸ ho, .inl rfl⟩
  | some v =>
    have hv := hty v rfl
    cases hc : slot.isConstant with
    | true => exact ⟨s, by simp, hconst hc ▸ ho, .inl rfl⟩
    | false =>
      simp only [Bool.false_eq_true, if_false]
      cases o' with
      | none =>
        have hne : s.type slot.cell ≠ slot.type := by
          rw [ho.type_eq]
          intro h
          rw [← h] at hcon
          cases hcon
        rw [if_pos (.inl hne)]
        obtain ⟨z, t₁, hz, -, h₁, hst₁⟩ := Store.alloc_holds_none hs hiso ho hcon
        obtain ⟨t, h₂, hst⟩ := Store.setScalar_holds (hst₁.touches.sound hs) hst₁.isolated
          hst₁.holds (v := v) fun w hw => by
            cases hw
            exact hz.trans hv.symm
        have htrans := hst₁.trans hst
        exact ⟨t, by rw [h₁]; exact h₂, htrans.holds, .inr ⟨trivial, v, rfl, hv, htrans⟩⟩
      | some w =>
        have hw := hty' w rfl
        have heq : s.type slot.cell = slot.type := ho.type_eq.trans hw
        rw [if_neg (by simp [heq, ho.rank_eq])]
        obtain ⟨t, h₂, hst⟩ := Store.setScalar_holds hs hiso ho (v := v) fun u hu => by
          cases hu
          exact hw.trans hv.symm
        exact ⟨t, h₂, hst.holds, .inr ⟨trivial, v, rfl, hv, hst⟩⟩

theorem Slotted.stores (hp : l.Planned cache plan) (h : l.Slotted cache plan x) {s : Store}
    (hi : plan.slots[i]? = some slot) (hc : slot.isConstant = false) (hval : x.value? i ≠ none)
    (hv : v.type = slot.type) (hs : x.store.Stores slot.cell v s) :
    l.Slotted cache plan { x with machine.world.store := s } := by
  obtain ⟨ht, hcell, -⟩ := hp.typed_slot hi
  have hpart : slot.operand.part ≠ .constants := by simpa [Slot.isConstant] using hc
  refine h.keeps (h.isSealed.stores types_typingOf ht hpart hcell hv hs) rfl
    fun {j slot' o} hj hb ho => ?_
  refine h.isSealed.guarded.holds_rewrites (hp.isGuard_slot h.isSealed hj) hs.toRewrites
    (fun he => ?_) ho
  obtain rfl := hp.eq_of_cell h.isSealed hj hi he
  rw [hi] at hj
  cases hj
  rcases hb with hb | hb
  · rw [hc] at hb
    cases hb
  · exact hval hb

/-- The state `y` is the state `x` with some slots written back. -/
structure WrittenBack (l : Launch) (cache : Bool) (plan : Plan) (x y : State) : Prop where
  slotted : l.Slotted cache plan y
  machine : y.machine = { x.machine with world.store := y.store }
  values : y.values = x.values
  synced : ∀ i, x.Synced plan i → y.Synced plan i
  /-- Nothing but cells of slots has changed. -/
  matching : ∀ {R : Pairing} {s : Store}, (∀ {c c'}, R c c' → ¬ plan.Caches c') →
    Matches True R s x.store → Matches True R s y.store

theorem WrittenBack.refl (h : l.Slotted cache plan x) : l.WrittenBack cache plan x x :=
  ⟨h, rfl, rfl, fun _ => id, fun _ => id⟩

theorem WrittenBack.trans {w : State} (h : l.WrittenBack cache plan x y)
    (h' : l.WrittenBack cache plan y w) : l.WrittenBack cache plan x w := by
  refine ⟨h'.slotted, ?_, h'.values.trans h.values, fun i hi => h'.synced i (h.synced i hi),
    fun hR hs => h'.matching hR (h.matching hR hs)⟩
  rw [h'.machine, h.machine]

theorem Slotted.flushOne (hp : l.Planned cache plan) (h : l.Slotted cache plan x) (i : SlotId) :
    ∃ y, State.flushOne plan i x = .ok () y ∧ l.WrittenBack cache plan x y ∧ y.Synced plan i := by
  unfold State.flushOne
  cases hi : plan.slots[i]? with
  | none => exact ⟨x, rfl, .refl h, fun slot hs => by simp [hi] at hs⟩
  | some slot =>
    obtain ⟨ht, hcell, -⟩ := hp.typed_slot hi
    have hguard := hp.isGuard_slot h.isSealed hi
    have hiso := h.isSealed.guarded.isolated hguard
    obtain ⟨o, ho, hty⟩ := h.isSealed.suits ht hcell
    obtain ⟨s, hs, hold, hkind⟩ := flushSlot_spec (o := x.value? i) h.isSealed.guarded.sound hiso
      ho (hp.isConcrete hi) hty (fun v hv => h.type_eq hi hv)
      (fun hc => ho.unique (h.backed hi (.inl hc)) rfl)
      (fun hnone => ho.unique (hnone ▸ h.backed hi (.inr hnone)) rfl)
    change Accelerator.flushSlot x.store slot (x.value? i) = .ok s at hs
    refine ⟨{ x with machine.world.store := s }, by simp only [hs], ?_, fun slot' hs' => ?_⟩
    · rcases hkind with rfl | ⟨hc, v, hv, htype, hst⟩
      · exact .refl h
      · refine ⟨h.stores hp hi hc (by simp [hv]) htype hst, rfl, rfl, fun j hj slot' hj' => ?_,
          fun hR hm => hm.rewrites' hiso (fun hcc he => ?_) hst.toRewrites⟩
        · by_cases he : slot'.cell = slot.cell
          · obtain rfl := hp.eq_of_cell h.isSealed hj' hi he
            rw [hi] at hj'
            cases hj'
            exact hold
          · exact h.isSealed.guarded.holds_rewrites (hp.isGuard_slot h.isSealed hj')
              hst.toRewrites he (hj slot' hj')
        · exact hR hcc ⟨i, slot, hi, hc, he.symm⟩
    · rw [hi] at hs'
      cases hs'
      exact hold

/-- Writing slots back never fails, and makes their cells hold their values. -/
theorem Slotted.flush (hp : l.Planned cache plan) (h : l.Slotted cache plan x)
    (ids : List SlotId) : ∃ y, State.flush plan ids x = .ok () y ∧
      l.WrittenBack cache plan x y ∧ ∀ i ∈ ids, y.Synced plan i := by
  induction ids generalizing x with
  | nil => exact ⟨x, rfl, .refl h, by simp⟩
  | cons i ids ih =>
    obtain ⟨y₁, hy₁, hw₁, hi₁⟩ := h.flushOne hp i
    obtain ⟨y₂, hy₂, hw₂, hi₂⟩ := ih hw₁.slotted
    refine ⟨y₂, ?_, hw₁.trans hw₂, fun j hj => ?_⟩
    · simp only [State.flush, bind, EStateM.bind, hy₁, hy₂]
    · rcases List.mem_cons.mp hj with rfl | hj
      · exact hw₂.synced _ hi₁
      · exact hi₂ j hj

/-! ### Cells that a step leaves -/

/-- A step that does not expose a typed address leaves its cell. -/
theorem Sealed.holds_step {g : Typing} {pc : Int} {y : Operand} {t : DataType} (hl : l.Valid)
    (h : l.Sealed g m) (hg : l.Types g) (ht : g.type? y = some t)
    (hc : l.memory.cell? y = some c) (ho : m.store.Holds c o)
    (hfree : ∀ z i, Machine.instructionAt? l.program pc = some z → z.operands[i]? = some y →
      z.exposes i = false) :
    (finalState (Machine.step l.environment pc m)).store.Holds c o := by
  have hy := (hg.typed ht).isOwn
  have hQ : m.Guarded l.base (· = y) := h.guarded.mono fun he => .inr ⟨t, he ▸ ht⟩
  refine hQ.holds (hQ.moves_step (hl.staysIn hQ.isOwn h.own) fun z hz =>
    ⟨(hl.admissible hz).knows, ?_⟩) ⟨y, rfl, (h.own hy).trans hc⟩ ho
  rintro i w he hw rfl
  rw [hfree z i hz hw] at he
  cases he

/-- A step that fails leaves the cells of all typed addresses. -/
theorem Sealed.holds_step_error {g : Typing} {pc : Int} {y : Operand} {t : DataType} {e : Stop}
    {m' : Machine} (hl : l.Valid) (h : l.Sealed g m) (hg : l.Types g) (ht : g.type? y = some t)
    (hc : l.memory.cell? y = some c) (ho : m.store.Holds c o)
    (he : Machine.step l.environment pc m = .error e m') : m'.store.Holds c o := by
  by_cases hexp : ∃ z i, Machine.instructionAt? l.program pc = some z ∧
      z.operands[i]? = some y ∧ z.exposes i = true
  · -- the instruction only changes the store, and has not changed it
    obtain ⟨z, i, hz, hy, hexp⟩ := hexp
    have hgrown : ∀ n, (m.grown n).store.Holds c o := by
      intro n
      have hm := Machine.moves_grown h.guarded.within n
      exact h.guarded.holds hm ⟨y, .inr ⟨t, ht⟩, (h.own (hg.typed ht).isOwn).trans hc⟩ ho
    obtain ⟨n, hn, -⟩ := Machine.fetchAll_spec z.operands m
    unfold Machine.step at he
    rw [show Machine.instructionAt? l.environment.program pc = some z from hz] at he
    simp only at he
    cases hf : Machine.fetchAll z.operands m with
    | error a m₁ =>
      rw [hf] at hn he
      change m₁ = _ at hn
      subst hn
      cases he
      exact hgrown n
    | ok ops m₁ =>
      rw [hf] at hn he
      change m₁ = _ at hn
      subst hn
      obtain ⟨f, hf', -⟩ := h.change hg (Valid.mem_code z hz) (hl.admissible hz)
        (h.operands_fetched hg hf) hy hexp ht
      simp only [Machine.execute, hf', bind, EStateM.bind, Machine.onStore] at he
      cases hs : f (m.grown n).world.store with
      | ok s =>
        rw [hs] at he
        cases he
      | error a =>
        rw [hs] at he
        cases a <;> cases he <;> exact hgrown n
  · have hkept : (finalState (Machine.step l.environment pc m)).store.Holds c o :=
      h.holds_step hl hg ht hc ho fun z i hz hy => by
        by_contra hx
        exact hexp ⟨z, i, hz, hy, by simpa using hx⟩
    rwa [he] at hkept

/-! ### Loading slots -/

theorem loadSlot_eq {s : Store} (ho : s.Holds slot.cell o) (hcon : slot.type.isConcrete = true)
    (hty : ∀ v, o = some v → v.type = slot.type) : Accelerator.loadSlot s slot = o := by
  unfold Accelerator.loadSlot
  cases o with
  | none =>
    have hne : s.type slot.cell ≠ slot.type := by
      rw [ho.type_eq]
      intro h
      rw [← h] at hcon
      cases hcon
    rw [if_neg fun h => hne h.1]
  | some v =>
    have hv := hty v rfl
    have htype : s.type slot.cell = slot.type := ho.type_eq.trans hv
    rw [if_pos ⟨htype, ho.rank_eq, ho.size_eq⟩, Store.scalar, ← hv, ho.scalarAs_eq]
    rfl

/-- The state with one slot loaded. -/
def loadedOne (plan : Plan) (i : SlotId) (x : State) : State :=
  { x with values := match plan.slots[i]? with
      | some slot => x.values.setIfInBounds i (Accelerator.loadSlot x.store slot)
      | none => x.values }

theorem load_cons (i : SlotId) (ids : List SlotId) :
    x.load plan (i :: ids) = (loadedOne plan i x).load plan ids := rfl

theorem size_loadedOne (i : SlotId) : (loadedOne plan i x).values.size = x.values.size := by
  unfold loadedOne
  cases plan.slots[i]? <;> simp

theorem value?_loadedOne (hsize : x.values.size = plan.slots.size) (i j : SlotId) :
    (loadedOne plan i x).value? j =
      if j = i then (plan.slots[i]?).bind (Accelerator.loadSlot x.store) else x.value? j := by
  unfold loadedOne State.value?
  cases hi : plan.slots[i]? with
  | none =>
    have hle := Array.getElem?_eq_none_iff.mp hi
    by_cases hj : j = i
    · subst hj
      have hnone : x.values[j]? = none := Array.getElem?_eq_none (by omega)
      simp [hnone]
    · simp [hj]
  | some slot =>
    have hlt := (Array.getElem?_eq_some_iff.mp hi).1
    by_cases hj : j = i
    · subst hj
      simp [hsize, hlt]
    · simp [hj, Ne.symm hj]

theorem size_load (ids : List SlotId) : (x.load plan ids).values.size = x.values.size := by
  induction ids generalizing x with
  | nil => rfl
  | cons i ids ih => rw [load_cons, ih, size_loadedOne]

theorem value?_load (hsize : x.values.size = plan.slots.size) (ids : List SlotId) (i : SlotId) :
    (x.load plan ids).value? i =
      if i ∈ ids then (plan.slots[i]?).bind (Accelerator.loadSlot x.store) else x.value? i := by
  induction ids generalizing x with
  | nil => simp [State.load, State.value?]
  | cons j ids ih =>
    rw [load_cons, ih ((size_loadedOne j).trans hsize), value?_loadedOne hsize]
    by_cases hij : i = j
    · subst hij
      simp [loadedOne, State.store]
    · simp [hij, loadedOne, State.store]

/-- Slots that are loaded have the values of their cells; the others have to be right before. -/
theorem slotted_load (hp : l.Planned cache plan) (hs : l.Sealed (l.typingOf cache) x.machine)
    (hsize : x.values.size = plan.slots.size)
    (hout : ∀ {i slot}, plan.slots[i]? = some slot → i ∉ ids →
      (∀ v, x.value? i = some v → v.type = slot.type) ∧
        (slot.isConstant = true ∨ x.value? i = none → x.store.Holds slot.cell (x.value? i))) :
    l.Slotted cache plan (x.load plan ids) := by
  have hin : ∀ {i slot}, plan.slots[i]? = some slot → i ∈ ids → ∃ o,
      (x.load plan ids).value? i = o ∧ x.store.Holds slot.cell o ∧
        ∀ v, o = some v → v.type = slot.type := by
    intro i slot hi hid
    obtain ⟨ht, hcell, -⟩ := hp.typed_slot hi
    obtain ⟨o, ho, hty⟩ := hs.suits ht hcell
    refine ⟨o, ?_, ho, hty⟩
    rw [value?_load hsize, if_pos hid, hi]
    exact loadSlot_eq ho (hp.isConcrete hi) hty
  refine ⟨hs, (size_load ids).trans hsize, fun {i slot v} hi hv => ?_, fun {i slot} hi hb => ?_⟩
  · by_cases hid : i ∈ ids
    · obtain ⟨o, ho, -, hty⟩ := hin hi hid
      exact hty v (ho ▸ hv)
    · rw [value?_load hsize, if_neg hid] at hv
      exact (hout hi hid).1 v hv
  · by_cases hid : i ∈ ids
    · obtain ⟨o, ho, hold, -⟩ := hin hi hid
      exact ho ▸ hold
    · rw [value?_load hsize, if_neg hid] at hb ⊢
      exact (hout hi hid).2 hb

theorem Sealed.start (hp : l.Planned cache plan) (h : l.Sealed (l.typingOf cache) m)
    (trace : Log.Trace) (width : Nat) :
    l.Slotted cache plan (State.start plan m trace width) := by
  refine slotted_load hp h (by simp) fun {i slot} hi hid => ?_
  have hlt := (Array.getElem?_eq_some_iff.mp hi).1
  exact absurd (by simpa [Plan.slotIds] using hlt) hid

/-! ### Units -/

/-- A slot that is not among the operands of an instruction is exposed by no operand. -/
theorem Planned.not_exposes (hp : l.Planned cache plan)
    (hz : Machine.instructionAt? l.program pc = some z)
    (hc : Accelerator.Caches (Accelerator.sourceOf l.program l.store l.memory cache) plan.slots z ids)
    (hi : plan.slots[i]? = some slot) (hn : i ∉ ids) :
    ∀ w k, Machine.instructionAt? l.program pc = some w → w.operands[k]? = some slot.operand →
      w.exposes k = false := by
  intro w k hw hk
  rw [hz] at hw
  cases hw
  obtain ⟨j, hj, slot', hj', hop⟩ := hc.covers _ (List.mem_of_getElem? hk) _ (hp.typed_slot hi).1
  exact absurd (hp.slots.inj hj' hi hop ▸ hj) hn

theorem Slotted.fallBack (hl : l.Valid) (hp : l.Planned cache plan) (h : l.Slotted cache plan x)
    (hz : Machine.instructionAt? l.program pc = some z)
    (hc : Accelerator.Caches (Accelerator.sourceOf l.program l.store l.memory cache) plan.slots z ids) :
    l.Slotted cache plan (finalState (Accelerator.fallBack l.environment plan ids pc x)) := by
  obtain ⟨y, hy, hw, hsync⟩ := h.flush hp ids
  have h₁ := hw.slotted
  have hs := h₁.isSealed.step hl types_typingOf pc
  -- a slot that is not loaded has kept its cell
  have hkept : ∀ {i slot o}, plan.slots[i]? = some slot → i ∉ ids → y.store.Holds slot.cell o →
      (finalState (Machine.step l.environment pc y.machine)).store.Holds slot.cell o := by
    intro i slot o hi hid ho
    obtain ⟨ht, hcell, -⟩ := hp.typed_slot hi
    exact h₁.isSealed.holds_step hl types_typingOf ht hcell ho (hp.not_exposes hz hc hi hid)
  obtain ⟨trace, width, hmachine⟩ := Accelerator.machineStep_eq l.environment pc y
  simp only [Accelerator.fallBack, bind, EStateM.bind, hy, hmachine]
  cases hn : Machine.step l.environment pc y.machine with
  | ok next n =>
    rw [hn] at hs hkept
    exact slotted_load hp hs h₁.size_eq fun hi hid =>
      ⟨fun _ hv => h₁.type_eq hi hv, fun hb => hkept hi hid (h₁.backed hi hb)⟩
  | error e n =>
    rw [hn] at hs hkept
    have hload : l.Slotted cache plan (State.load plan ids
        { y with machine := n, trace := trace, machineWidth := width }) :=
      slotted_load hp hs h₁.size_eq fun hi hid =>
        ⟨fun _ hv => h₁.type_eq hi hv, fun hb => hkept hi hid (h₁.backed hi hb)⟩
    cases e with
    | abort a =>
      refine h₁.keeps hs rfl fun hi _ ho => ?_
      obtain ⟨ht, hcell, -⟩ := hp.typed_slot hi
      exact h₁.isSealed.holds_step_error hl types_typingOf ht hcell ho hn
    | data d => exact hload
    | canceled => exact hload
    | deadline => exact hload

theorem value?_set (hlt : i < x.values.size) (j : SlotId) :
    (x.set i v).value? j = if j = i then some v else x.value? j := by
  unfold State.set State.value?
  by_cases hj : j = i
  · subst hj
    simp [hlt]
  · simp [hj, Ne.symm hj]

theorem Slotted.set (h : l.Slotted cache plan x) (hi : plan.slots[i]? = some slot)
    (hc : slot.isConstant = false) (hv : v.type = slot.type) :
    l.Slotted cache plan (x.set i v) := by
  have hlt : i < x.values.size := by
    rw [h.size_eq]
    exact (Array.getElem?_eq_some_iff.mp hi).1
  refine ⟨h.isSealed, by simpa [State.set] using h.size_eq, fun {j slot' w} hj hw => ?_,
    fun {j slot'} hj hb => ?_⟩
  · rw [value?_set hlt] at hw
    split at hw
    · rename_i hji
      subst hji
      rw [hi] at hj
      cases hj
      cases hw
      exact hv
    · exact h.type_eq hj hw
  · rw [value?_set hlt] at hb ⊢
    split at hb
    · rename_i hji
      subst hji
      rw [hi] at hj
      cases hj
      simp [hc] at hb
    · rename_i hji
      rw [if_neg hji]
      exact h.backed hj hb

theorem not_isConstant (hl : l.Valid) (hz : z ∈ l.program.code)
    (hw : z.opcode.writes = true) {rest : List Operand} (hops : z.operands = slot.operand :: rest) :
    slot.isConstant = false := by
  have := (hl.wellFormed.code z hz).destination hw slot.operand (by simp [hops])
  simpa [Slot.isConstant] using this

theorem Slotted.alloc (hl : l.Valid) (h : l.Slotted cache plan x) {d : Operand}
    (hz : z ∈ l.program.code) (hop : z.opcode = .alloc) (hops : z.operands = [d])
    (hd : Accelerator.At plan.slots i d) : l.Slotted cache plan (x.allocate plan i) := by
  obtain ⟨slot, hi, rfl⟩ := hd
  unfold State.allocate
  split
  · rename_i zero _ hzero
    rw [hi, Option.bind_some, Option.bind_eq_some_iff] at hzero
    obtain ⟨data, hdata, hget⟩ := hzero
    obtain ⟨v, rfl, hv⟩ := Lanes.eq_ofScalar (Lanes.size_zeros? hdata)
    rw [Lanes.get?_ofScalar] at hget
    cases hget
    exact h.set hi (not_isConstant hl hz (by rw [hop]; rfl) hops)
      (hv.trans (Lanes.type_zeros? hdata))
  · exact h

/-- The cells of operands with slots hold the values of the slots when these are written back. -/
theorem Slotted.slotCells (hp : l.Planned cache plan) (h : l.Slotted cache plan x)
    (hw : l.WrittenBack cache plan x y) {ys : List Operand} {js : List SlotId}
    (hj : List.Forall₂ (fun y j => Accelerator.At plan.slots j y) ys js)
    (hs : ∀ j ∈ js, y.Synced plan j) :
    ∃ cs, Accelerator.SlotCells y.store x (l.typingOf cache) ys js cs := by
  induction hj with
  | nil => exact ⟨[], .nil, .nil⟩
  | cons hy _ ih =>
    obtain ⟨slot, hi, rfl⟩ := hy
    obtain ⟨cs, hcs, hty⟩ := ih fun j hj => hs j (by simp [hj])
    refine ⟨slot.cell :: cs, .cons ?_ hcs, .cons (fun w hv => ?_) hty⟩
    · have := hs _ (by simp) slot hi
      simpa only [State.value?, hw.values] using this
    · rw [(hp.typed_slot hi).1, h.type_eq hi hv]

theorem Slotted.scalar (hl : l.Valid) (hp : l.Planned cache plan) (h : l.Slotted cache plan x)
    {op : Accelerator.ScalarOp} {js : List SlotId} {d : SlotId} (hz : z ∈ l.program.code)
    (hop : Accelerator.scalarOp? z js = some op)
    (hj : List.Forall₂ (fun y j => Accelerator.At plan.slots j y) z.operands js)
    (hw : z.opcode.writes = true → ∃ w rest t, z.operands = w :: rest ∧
      (l.typingOf cache).type? w = some t ∧ (l.typingOf cache).produces? z = some t)
    (hr : op.result? x = some (d, v)) :
    l.Slotted cache plan (Accelerator.storeResult plan x d v) := by
  have hwrites : z.opcode.writes = true := by
    unfold Accelerator.scalarOp? at hop
    split at hop <;> first | (rename_i hz; rw [hz]; rfl) | cases hop
  obtain ⟨w, rest, t, hops, ht, hprod⟩ := hw hwrites
  obtain ⟨y, -, hwb, hsync⟩ := h.flush hp js
  obtain ⟨cs, hcells⟩ := h.slotCells hp hwb hj hsync
  obtain ⟨hhead, c, cs', r, -, -, -, hv⟩ := Accelerator.computes_result hop hprod hcells hr
  rw [hops] at hj
  cases hj with
  | cons hd _ =>
    cases hhead
    obtain ⟨slot, hi, rfl⟩ := hd
    rw [(hp.typed_slot hi).1] at ht
    cases ht
    simp only [Accelerator.storeResult, hi]
    exact h.set hi (not_isConstant hl hz hwrites hops) hv

/-- The destination of an instruction is no guarded cell if it has no type. -/
theorem Sealed.not_isGuard_destination {g : Typing} {d : Operand} {rest : List Operand}
    (hl : l.Valid) (h : l.Sealed g m) (hz : z ∈ l.program.code) (hw : z.opcode.writes = true)
    (hops : z.operands = d :: rest) (ht : g.has d = false) (hc : m.memory.cell? d = some c) :
    ¬ m.IsGuard (Closed g) c := by
  have hadm := hl.wellFormed.code z hz
  refine h.guarded.not_isGuard (hadm.knows d (by simp [hops])) ?_ hc
  rintro (hconst | ⟨t, hd⟩)
  · exact hadm.destination hw d (by simp [hops]) hconst
  · simp [Typing.has, hd] at ht

theorem Slotted.fetchCell (hp : l.Planned cache plan) (h : l.Slotted cache plan x) (w : Operand) :
    l.Slotted cache plan (finalState (Accelerator.fetchCell w x)) ∧
      ∀ c y, Accelerator.fetchCell w x = .ok c y → y.machine.memory = x.machine.memory := by
  unfold Accelerator.fetchCell
  cases hf : Machine.fetch w x.machine with
  | ok c n =>
    obtain ⟨k, rfl, -, -⟩ := Machine.fetch_ok hf
    refine ⟨h.moves hp (Machine.moves_grown h.isSealed.guarded.within k) rfl, fun _ _ he => ?_⟩
    cases he
    rfl
  | error a n =>
    rw [Machine.fetch_error hf]
    exact ⟨h, by simp⟩

theorem Slotted.vector (hl : l.Valid) (hp : l.Planned cache plan) (h : l.Slotted cache plan x)
    {op : Arithmetic} {t : DataType} {d a b : Operand}
    (hz : Machine.instructionAt? l.program pc = some z) (hw : z.opcode.writes = true)
    (hops : z.operands = [d, a, b])
    (hfree : ∀ y ∈ z.operands, y.isAbsent = false ∧ (l.typingOf cache).has y = false)
    (hc : Accelerator.Caches (Accelerator.sourceOf l.program l.store l.memory cache) plan.slots z ids) :
    l.Slotted cache plan
      (finalState (Accelerator.execute l.environment plan ⟨.vector op t d a b, ids⟩ pc x)) := by
  have hpart : d.part ≠ .absent := by
    simpa [Operand.isAbsent] using (hfree d (by simp [hops])).1
  simp only [Accelerator.execute, bind, EStateM.bind]
  obtain ⟨h₁, e₁⟩ := h.fetchCell hp d
  cases hd : Accelerator.fetchCell d x with
  | error e y₁ =>
    rw [hd] at h₁
    exact h₁
  | ok c y₁ =>
    rw [hd] at h₁
    obtain ⟨h₂, e₂⟩ := Slotted.fetchCell hp (x := y₁) h₁ a
    dsimp only
    cases ha : Accelerator.fetchCell a y₁ with
    | error e y₂ =>
      rw [ha] at h₂
      exact h₂
    | ok c₁ y₂ =>
      rw [ha] at h₂
      obtain ⟨h₃, e₃⟩ := Slotted.fetchCell hp (x := y₂) h₂ b
      dsimp only
      cases hb : Accelerator.fetchCell b y₂ with
      | error e y₃ =>
        rw [hb] at h₃
        exact h₃
      | ok c₂ y₃ =>
        rw [hb] at h₃
        have hy₃ : l.Slotted cache plan y₃ := h₃
        change l.Slotted cache plan (finalState (Accelerator.deliverLanes l.environment plan ids pc c
          (Accelerator.vectorLanes? y₃.store op t c c₁ c₂) y₃))
        unfold Accelerator.deliverLanes
        split
        · -- the destination is written, which is the cell of no slot
          have hcell : y₃.machine.memory.cell? d = some c := by
            rw [e₃ c₂ y₃ hb, e₂ c₁ y₂ ha, e₁ c y₁ hd]
            exact Accelerator.cell?_of_fetchCell hpart hd
          have hopen := hy₃.isSealed.not_isGuard_destination hl (Valid.mem_code z hz) hw hops
            (hfree d (by simp [hops])).2 hcell
          have hwithin := hy₃.isSealed.guarded.within
          exact hy₃.moves hp (.of_touches hwithin (.write hwithin.region hopen _)) rfl
        · exact hy₃.fallBack hl hp hz hc

/-- Every unit keeps what holds of slots. -/
theorem Slotted.execute {u : Accelerator.ExecutionUnit} (hl : l.Valid) (hp : l.Planned cache plan)
    (h : l.Slotted cache plan x) (hz : Machine.instructionAt? l.program pc = some z)
    (hu : Accelerator.UnitOf (Accelerator.sourceOf l.program l.store l.memory cache) plan.slots z u) :
    l.Slotted cache plan (finalState (Accelerator.execute l.environment plan u pc x)) := by
  have hcode := Valid.mem_code z hz
  cases hu with
  | skip _ => exact h
  | fallback hc => exact h.fallBack hl hp hz hc
  | alloc hop hops hd _ => exact h.alloc hl hcode hop hops hd
  | @jump ids i on target d a b rest c s v _ _ _ _ _ _ _ hc =>
    simp only [Accelerator.execute]
    cases x.bool? i with
    | none => exact h.fallBack hl hp hz hc
    | some b => exact h
  | @scalar ids js op hop hj hw hc =>
    simp only [Accelerator.execute]
    cases hr : op.result? x with
    | none => exact h.fallBack hl hp hz hc
    | some r => exact h.scalar hl hp hcode hop hj hw hr
  | vector hop hops _ hfree hc =>
    exact h.vector hl hp hz (by rw [hop]; rfl) hops hfree hc

theorem Planned.unitOf (hp : l.Planned cache plan)
    (hz : Machine.instructionAt? l.program pc = some z) :
    ∃ u, plan.units[pc.toNat]? = some u ∧ Accelerator.UnitOf
      (Accelerator.sourceOf l.program l.store l.memory cache) plan.slots z u := by
  unfold Machine.instructionAt? at hz
  split at hz
  · cases hz
  · obtain ⟨u, hu, hunit⟩ := Machine.exists_of_forall₂ hp.units.flip
      (show l.program.code.toList[pc.toNat]? = some z by simpa using hz)
    exact ⟨u, by simpa using hu, hunit⟩

theorem Slotted.step (hl : l.Valid) (hp : l.Planned cache plan) (h : l.Slotted cache plan x)
    (hz : Machine.instructionAt? l.program pc = some z) :
    l.Slotted cache plan (finalState (Accelerator.step l.environment plan pc x)) := by
  obtain ⟨u, hu, hunit⟩ := hp.unitOf hz
  simp only [Accelerator.step, hu]
  refine Slotted.execute hl hp (h.keeps ?_ ?_ fun _ _ ho => ?_) hz hunit
  · split <;> exact h.isSealed
  · split <;> rfl
  · split <;> exact ho

end Launch

end VectorMachine
