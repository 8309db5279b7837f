import VectorMachine.Proofs.Accelerator.Effects
import VectorMachine.Proofs.Store.Sharing

/-!
# Writing slots back

In whatever state a memory is, a slot that is written back leaves its value in its cell, and what is
stored through one cell is not seen through another one that has neither its root nor its buffer.
So all values are in their cells in the end if the cells of the slots lie apart.
-/

namespace VectorMachine
set_option autoImplicit false

namespace Store

variable {s t u : Store} {c d e r : CellId} {v : Scalar} {b : BufferId}

/-- Two containers show neither the same root nor parts of one buffer. -/
def Apart (s : Store) (c d : CellId) : Prop := s.root c ≠ s.root d ∧ ¬ s.Shares c d

/-- `t` arises from `s` by shaping and filling the root `r`, with whatever elements: other buffers
than the one that it shows stay, and it may come to show a new one. -/
structure Replaced (r : CellId) (s t : Store) : Prop extends Confined r s t where
  size_le : s.cells.size ≤ t.cells.size
  buffer_eq : (t.cell r).buffer = (s.cell r).buffer ∨
    ∀ b, (t.cell r).buffer = some b → s.buffers.size ≤ b
  lanes_eq : ∀ {b}, b < s.buffers.size → (s.cell r).buffer ≠ some b → t.buffers[b]? = s.buffers[b]?

theorem Confined.size_buffers_le (h : Confined r s t) : s.buffers.size ≤ t.buffers.size := by
  by_contra hlt
  obtain ⟨ys, hy, -⟩ := h.type_eq (Array.getElem?_eq_getElem (Nat.lt_of_not_le hlt))
  exact absurd (Array.getElem?_eq_some_iff.mp hy).1 (Nat.lt_irrefl _)

theorem Replaced.refl (r : CellId) (s : Store) : Replaced r s s :=
  { Confined.refl r s with
    size_le := Nat.le_refl _
    buffer_eq := .inl rfl
    lanes_eq := fun _ _ => rfl }

theorem Replaced.trans (h : Replaced r s t) (h' : Replaced r t u) : Replaced r s u where
  toConfined := h.toConfined.trans h'.toConfined
  size_le := Nat.le_trans h.size_le h'.size_le
  buffer_eq := by
    rcases h'.buffer_eq with he | hnew
    · rw [he]
      exact h.buffer_eq
    · exact .inr fun b hb => Nat.le_trans h.size_buffers_le (hnew b hb)
  lanes_eq hlt hne := by
    rw [h'.lanes_eq (Nat.lt_of_lt_of_le hlt h.size_buffers_le) ?_, h.lanes_eq hlt hne]
    rcases h.buffer_eq with he | hnew
    · rwa [he]
    · exact fun hb => Nat.not_lt.mpr (hnew _ hb) hlt

theorem Edit.replaced {D : CellId → Prop} (hD : ∀ {c}, D c → s.root c = r)
    (he : Edit { stores := D } s t) : Replaced r s t := by
  have hle : s.cells.size ≤ t.cells.size := he.size_le False.elim
  cases he with
  | fresh => exact ⟨⟨fun _ => by simp, fun _ => by simp, fun hx => ⟨_, hx, rfl⟩⟩, hle,
      .inl (by simp), fun _ _ => rfl⟩
  | renew hc =>
    refine ⟨confined_renew (hD hc) _ _, hle, ?_, fun hlt _ => buffers_pushBuffer_of_lt _ hlt⟩
    simp only [Store.renew, cell_present, root_pushBuffer, cell_pushBuffer, hD hc]
    split
    · exact .inr fun b hb => by cases hb; exact Nat.le_refl _
    · exact .inl rfl
  | clear hc =>
    refine ⟨confined_present (hD hc) rfl id _ _ _, hle, ?_, fun _ _ => rfl⟩
    simp only [cell_present, hD hc]
    split
    · exact .inr fun b hb => by cases hb
    · exact .inl rfl
  | @write c data hc =>
    refine ⟨confined_write r _, hle, .inl (by simp), fun {b} _ hne => ?_⟩
    unfold Store.write
    split
    · rfl
    · rename_i b' hb'
      have hbb : b' ≠ b := fun he => hne (by rw [← hD hc, ← he]; exact hb')
      simp [Array.getElem?_modify, hbb]
  | view h => exact h.elim
  | free h => exact h.elim
  | link h => exact h.elim
  | host h => exact h.elim

theorem Alters.replaced {D : CellId → Prop} (hs : s.Grounded) (hD : ∀ {c}, D c → s.root c = r)
    (ha : Alters { stores := D } s t) : Replaced r s t := by
  induction ha with
  | refl => exact .refl r s
  | tail _ he ih =>
    exact ih.trans (he.replaced fun hc => (ih.toConfined.root_eq hs _).trans (hD hc))

theorem Replaced.apart (h : Replaced r s t) (hs : s.Rooted) (ha : s.Apart c d) : t.Apart c d := by
  have hroot := h.toConfined.root_eq hs.grounded
  have hcell : ∀ {e}, s.root e ≠ r → t.rootCell e = s.rootCell e := fun he =>
    h.toConfined.rootCell_eq hs.grounded he
  -- a buffer that the root comes to show is new, so nothing else shows it
  have hshares : ∀ {c d}, s.root c = r → s.root d ≠ r → t.Shares c d → s.Shares c d := by
    rintro c d hc hd ⟨b, hb, hb'⟩
    rw [hcell hd] at hb'
    rw [rootCell, hroot, hc] at hb
    rcases h.buffer_eq with he | hnew
    · exact ⟨b, by rw [rootCell, hc, ← he, hb], hb'⟩
    · exact absurd (hs.buffer_lt hb') (Nat.not_lt.mpr (hnew b hb))
  refine ⟨by rw [hroot, hroot]; exact ha.1, fun hsh => ?_⟩
  by_cases hc : s.root c = r
  · exact ha.2 (hshares hc (fun hd => ha.1 (hc.trans hd.symm)) hsh)
  · by_cases hd : s.root d = r
    · exact ha.2 (hshares hd hc hsh.symm).symm
    · obtain ⟨b, hb, hb'⟩ := hsh
      exact ha.2 ⟨b, hcell hc ▸ hb, hcell hd ▸ hb'⟩

/-- What lies apart from a root shows the same when the root is filled anew. -/
theorem Replaced.scalar_eq (h : Replaced (s.root e) s t) (hs : s.Rooted) (ha : s.Apart c e)
    (ty : DataType) : t.scalar c ty = s.scalar c ty ∧ t.rank c = s.rank c := by
  have hcell := h.toConfined.rootCell_eq hs.grounded ha.1
  have hbuffer : t.buffer? c = s.buffer? c := by
    rw [buffer?, buffer?, hcell, lanes?, lanes?]
    cases hb : (s.rootCell c).buffer with
    | none => rfl
    | some b => exact h.lanes_eq (hs.buffer_lt hb) fun he => ha.2 ⟨b, hb, he⟩
  have hoffset : t.offset c = s.offset c := by rw [offset, hcell, offset]
  have htype : t.type c = s.type c := by rw [type, hbuffer, type]
  refine ⟨?_, by rw [rank, lengths, hcell, rank, lengths]⟩
  simp only [scalar, scalarAs, htype, hbuffer, hoffset, bufferSize]

/-! ### Storing a scalar -/

theorem get?_overwrite_ofScalar {xs : Lanes} {i : Nat} (hty : xs.type = v.type)
    (hi : (xs.get? i).isSome) : (Lanes.overwrite i xs (Lanes.ofScalar v)).get? i = some v := by
  cases xs <;> cases v <;> cases hty
  all_goals simp_all [Lanes.overwrite, Lanes.overwriteArray, Lanes.ofScalar, Lanes.get?]

theorem scalar_setScalar (hc : s.root c < s.cells.size) (hs : s.Grounded) (hrank : s.rank c = 0)
    (h : s.setScalar c v = .ok t) : t.scalar c v.type = .ok v ∧ t.rank c = 0 := by
  unfold setScalar at h
  split at h
  · obtain ⟨-, rfl⟩ := setData_eq_ok_iff.mp h
    have hcell := hs.rootCell_renew hc (Lanes.ofScalar v) []
    have hbuffer : (s.renew c (Lanes.ofScalar v) []).buffer? c = some (Lanes.ofScalar v) := by
      rw [buffer?, hcell]
      exact buffers_pushBuffer_self _
    have htype : (s.renew c (Lanes.ofScalar v) []).type c = v.type := by
      rw [type, hbuffer]
      exact Lanes.type_ofScalar v
    have hoffset : (s.renew c (Lanes.ofScalar v) []).offset c = 0 := by
      rw [offset, hcell]
      rfl
    refine ⟨?_, by rw [rank, lengths, hcell]; rfl⟩
    simp [scalar, scalarAs, htype, hbuffer, hoffset, Lanes.get?_ofScalar]
  · obtain ⟨w, hw, h⟩ := bind_eq_ok.mp h
    cases h
    have hroot : (s.write c (Lanes.ofScalar v)).rootCell c = s.rootCell c := by
      rw [rootCell, (confined_write (s.root c) _).root_eq hs, cell_write, rootCell]
    refine ⟨?_, by rw [rank, lengths, hroot]; exact hrank⟩
    unfold scalarAs at hw
    split at hw
    · cases hw
    · rename_i htype
      split at hw
      · rename_i u hu
        obtain ⟨xs, hxs, hget⟩ := Option.bind_eq_some_iff.mp hu
        have htype : xs.type = v.type := by
          simpa [type, hxs] using htype
        obtain ⟨b, hb, hbuffer⟩ := Option.bind_eq_some_iff.mp hxs
        have hwritten : (s.write c (Lanes.ofScalar v)).buffer? c =
            some (Lanes.overwrite (s.offset c) xs (Lanes.ofScalar v)) := by
          rw [buffer?, hroot, lanes?, hb, Option.bind_some]
          simp [Store.write, hb, Array.getElem?_modify, hbuffer]
        have hoffset : (s.write c (Lanes.ofScalar v)).offset c = s.offset c := by
          rw [offset, hroot, offset]
        have htype' : (s.write c (Lanes.ofScalar v)).type c = v.type := by
          rw [type, hwritten]
          exact (Lanes.type_overwrite ..).trans htype
        simp [scalar, scalarAs, htype', hwritten, hoffset,
          get?_overwrite_ofScalar htype (by rw [hget]; rfl)]
      · cases hw

theorem rank_alloc {ty : DataType} (hc : s.root c < s.cells.size) (hs : s.Grounded)
    (h : s.alloc c ty [] = .ok t) : t.rank c = 0 := by
  by_cases hty : ty.isConcrete = true
  · rcases alloc_ok hty h with ⟨rfl, ha⟩ | ⟨data, -, -, rfl⟩
    · simp only [isAllocated, Bool.and_eq_true, beq_iff_eq] at ha
      rw [rank, ha.1.2]
      rfl
    · rw [rank, lengths, hs.rootCell_renew hc]
      rfl
  · unfold alloc at h
    split at h
    · rename_i ha
      cases h
      simp only [isAllocated, Bool.and_eq_true, beq_iff_eq] at ha
      rw [rank, ha.1.2]
      rfl
    · simp only [hty, List.find?_nil, Bool.not_false, if_true] at h
      exact absurd (setVoid_eq_ok_iff.mp h).1 (by decide)

end Store

namespace Accelerator

open Store (Replaced Apart Alters)

variable {s t : Store} {plan : Plan} {x y : State} {i j : SlotId} {slot : Slot} {ids : List SlotId}
  {v : Scalar} {o : Option Scalar} {c : CellId}

/-- Writing a slot back leaves its value in its cell. -/
theorem scalar_flushSlot (hc : s.root slot.cell < s.cells.size) (hs : s.Grounded)
    (hconst : slot.isConstant = false) (h : flushSlot s slot (some v) = .ok t) :
    t.scalar slot.cell v.type = .ok v ∧ t.rank slot.cell = 0 := by
  simp only [flushSlot, hconst, Bool.false_eq_true, if_false] at h
  split at h
  · obtain ⟨u, hu, ht⟩ := Store.bind_eq_ok.mp h
    have hr : Replaced (s.root slot.cell) s u :=
      (Alters.of_alloc (g := { stores := (· = slot.cell) }) rfl hu).replaced hs
        fun he => congrArg s.root he
    have hroot := hr.toConfined.root_eq hs slot.cell
    exact Store.scalar_setScalar (hroot ▸ Nat.lt_of_lt_of_le hc hr.size_le)
      (hs.congr hr.target_eq) (Store.rank_alloc hc hs hu) ht
  · rename_i hshape
    exact Store.scalar_setScalar hc hs (by omega) h

theorem replaced_flushSlot (hs : s.Grounded) (h : flushSlot s slot o = .ok t) :
    Replaced (s.root slot.cell) s t :=
  (alters_flushSlot (g := { stores := (· = slot.cell) }) (fun _ => rfl) h).replaced hs
    fun he => congrArg s.root he

theorem flushOne_ok (h : State.flushOne plan i x = .ok () y) (hi : plan.slots[i]? = some slot) :
    ∃ s, flushSlot x.store slot (x.value? i) = .ok s ∧ y = { x with machine.world.store := s } := by
  unfold State.flushOne at h
  rw [hi] at h
  dsimp only at h
  split at h
  · rename_i s hs
    cases h
    exact ⟨s, hs, rfl⟩
  · cases h

/-- What writing back the slots `ids` keeps: whether containers lie apart, and what those show that
lie apart from the cells of these slots. -/
structure Backs (plan : Plan) (ids : List SlotId) (x y : State) : Prop where
  rooted : y.store.Rooted
  size_le : x.store.cells.size ≤ y.store.cells.size
  root_eq : ∀ c, y.store.root c = x.store.root c
  values : y.values = x.values
  apart : ∀ {c d}, x.store.Apart c d → y.store.Apart c d
  scalar_eq : ∀ {c}, (∀ i ∈ ids, ∀ slot, plan.slots[i]? = some slot → slot.isConstant = false →
    x.store.Apart c slot.cell) → ∀ ty, y.store.scalar c ty = x.store.scalar c ty ∧
      y.store.rank c = x.store.rank c

theorem Backs.refl (hs : x.store.Rooted) (ids : List SlotId) : Backs plan ids x x :=
  ⟨hs, Nat.le_refl _, fun _ => rfl, rfl, id, fun _ _ => ⟨rfl, rfl⟩⟩

theorem Backs.cons {z : State} (h : Backs plan [i] x y) (h' : Backs plan ids y z) :
    Backs plan (i :: ids) x z := by
  refine ⟨h'.rooted, Nat.le_trans h.size_le h'.size_le, fun c => (h'.root_eq c).trans (h.root_eq c),
    h'.values.trans h.values, fun ha => h'.apart (h.apart ha), fun {c} hc ty => ?_⟩
  obtain ⟨hscalar, hrank⟩ := h.scalar_eq (c := c)
    (fun j hj slot hslot hconst => hc j (by simp_all) slot hslot hconst) ty
  obtain ⟨hscalar', hrank'⟩ := h'.scalar_eq (c := c)
    (fun j hj slot hslot hconst => h.apart (hc j (by simp [hj]) slot hslot hconst)) ty
  exact ⟨hscalar'.trans hscalar, hrank'.trans hrank⟩

theorem backs_flushOne (hs : x.store.Rooted) (h : State.flushOne plan i x = .ok () y) :
    Backs plan [i] x y := by
  cases hi : plan.slots[i]? with
  | none =>
    unfold State.flushOne at h
    rw [hi] at h
    cases h
    exact .refl hs _
  | some slot =>
    obtain ⟨s, ht, rfl⟩ := flushOne_ok h hi
    by_cases hconst : slot.isConstant = true
    · -- constants stay as they are
      have hsame : s = x.store := by
        unfold flushSlot at ht
        split at ht
        · exact (Except.ok.inj ht).symm
        · rw [if_pos hconst] at ht
          exact (Except.ok.inj ht).symm
      subst hsame
      exact .refl hs _
    · have hr := replaced_flushSlot hs.grounded ht
      have hrooted : s.Rooted :=
        (alters_flushSlot (g := { stores := (· = slot.cell) }) (fun _ => rfl) ht).keeps
          (I := Store.Rooted) (Store.Edit.rooted False.elim) hs
      refine ⟨hrooted, hr.size_le, hr.toConfined.root_eq hs.grounded, rfl,
        fun ha => hr.apart hs ha, fun hc ty => ?_⟩
      exact hr.scalar_eq hs (hc i (by simp) slot hi (by simpa using hconst)) ty

theorem flush_cons_ok {z : State} (h : State.flush plan (i :: ids) x = .ok () z) :
    ∃ y, State.flushOne plan i x = .ok () y ∧ State.flush plan ids y = .ok () z := by
  simp only [State.flush, bind, EStateM.bind] at h
  cases hy : State.flushOne plan i x with
  | ok u y =>
    rw [hy] at h
    exact ⟨y, rfl, h⟩
  | error e y =>
    rw [hy] at h
    cases h

theorem backs_flush (hs : x.store.Rooted) (h : State.flush plan ids x = .ok () y) :
    Backs plan ids x y := by
  induction ids generalizing x with
  | nil =>
    cases h
    exact .refl hs _
  | cons i ids ih =>
    obtain ⟨x₁, h₁, h⟩ := flush_cons_ok h
    have hb := backs_flushOne hs h₁
    exact hb.cons (ih hb.rooted h)

/-- The slot has a cell of its own in `s`: the cell is there, and the cells of all other slots that
are written back lie apart from it. -/
structure Plan.Owns (plan : Plan) (s : Store) (i : SlotId) : Prop where
  root_lt : ∀ slot, plan.slots[i]? = some slot → s.root slot.cell < s.cells.size
  apart : ∀ slot, plan.slots[i]? = some slot → ∀ j ≠ i, ∀ slot', plan.slots[j]? = some slot' →
    slot'.isConstant = false → s.Apart slot.cell slot'.cell

theorem Backs.owns (h : Backs plan ids x y) (ho : plan.Owns x.store i) : plan.Owns y.store i :=
  ⟨fun slot hi => by rw [h.root_eq]; exact Nat.lt_of_lt_of_le (ho.root_lt slot hi) h.size_le,
    fun slot hi j hj slot' hj' hc => h.apart (ho.apart slot hi j hj slot' hj' hc)⟩

/-- When all slots have been written back, a slot with a cell of its own has left its value there.
-/
theorem scalar_flush (hs : x.store.Rooted) (h : State.flush plan ids x = .ok () y)
    (hids : ids.Nodup) (hmem : i ∈ ids) (hi : plan.slots[i]? = some slot)
    (hconst : slot.isConstant = false) (hv : x.value? i = some v) (ho : plan.Owns x.store i) :
    y.store.scalar slot.cell v.type = .ok v ∧ y.store.rank slot.cell = 0 := by
  induction ids generalizing x with
  | nil => cases hmem
  | cons j ids ih =>
    obtain ⟨x₁, h₁, h⟩ := flush_cons_ok h
    obtain ⟨hj, hids⟩ := List.nodup_cons.mp hids
    have hb := backs_flushOne hs h₁
    by_cases hij : i = j
    · subst hij
      obtain ⟨s, hslot, rfl⟩ := flushOne_ok h₁ hi
      rw [hv] at hslot
      obtain ⟨hscalar, hrank⟩ := scalar_flushSlot (ho.root_lt slot hi) hs.grounded hconst hslot
      obtain ⟨hscalar', hrank'⟩ := (backs_flush hb.rooted h).scalar_eq (c := slot.cell)
        (fun k hk slot' hk' hc' =>
          (hb.owns ho).apart slot hi k (fun he => hj (he ▸ hk)) slot' hk' hc') v.type
      exact ⟨hscalar'.trans hscalar, hrank'.trans hrank⟩
    · have hv' : x₁.value? i = some v := by rwa [State.value?, hb.values]
      exact ih hb.rooted h hids ((List.mem_cons.mp hmem).resolve_left hij) hv' (hb.owns ho)

/-- Each slot with a cell of its own that is written back has left its value there. -/
def Plan.Deposits (plan : Plan) (x : State) (s : Store) : Prop :=
  ∀ (i : SlotId) (slot : Slot) (v : Scalar), plan.slots[i]? = some slot →
    slot.isConstant = false → x.value? i = some v → plan.Owns x.store i →
      s.scalar slot.cell v.type = .ok v ∧ s.rank slot.cell = 0

theorem deposits_flush (hs : x.store.Rooted) (h : State.flush plan plan.slotIds x = .ok () y) :
    plan.Deposits x y.store := fun i slot v hi hconst hv ho => by
  have hlt := (Array.getElem?_eq_some_iff.mp hi).1
  exact scalar_flush hs h List.nodup_range (by simpa [Plan.slotIds] using hlt) hi hconst hv ho

end Accelerator

end VectorMachine
