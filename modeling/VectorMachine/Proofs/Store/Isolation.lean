import VectorMachine.Proofs.Store.Changes

/-!
# Isolated scalars

An isolated cell is no link, is linked from nowhere and shares its buffer with no other cell, so
that only changes at the cell itself can be seen there.  A cell may hold a scalar: it is void, or
has a buffer with exactly one element.
-/

namespace VectorMachine
set_option autoImplicit false

namespace Lanes

variable {α : Type} {v w : Scalar}

theorem extract_ofScalar (v : Scalar) : (ofScalar v).extract 0 1 = ofScalar v := by
  cases v <;> simp [ofScalar, extract]

theorem get?_ofScalar (v : Scalar) : (ofScalar v).get? 0 = some v := by
  cases v <;> rfl

theorem ofScalar_injective : Function.Injective ofScalar := by
  intro v w h
  cases v <;> cases w <;> simp_all [ofScalar]

theorem overwriteArray_of_size_eq {xs ys : Array α} (h : xs.size = ys.size) :
    overwriteArray xs 0 ys = ys := by
  apply Array.ext
  · rw [size_overwriteArray, h]
  · intro i _ hi
    simp [overwriteArray, hi]

theorem overwrite_of_size_eq {xs ys : Lanes} (htype : xs.type = ys.type)
    (h : xs.size = ys.size) : overwrite 0 xs ys = ys := by
  cases xs <;> cases ys <;> cases htype
  all_goals exact congrArg _ (overwriteArray_of_size_eq h)

theorem eq_ofScalar {xs : Lanes} (h : xs.size = 1) : ∃ v, xs = ofScalar v ∧ v.type = xs.type := by
  cases xs with
  | ints xs =>
    obtain ⟨v, rfl⟩ := Array.size_eq_one_iff.mp h
    exact ⟨.int v, rfl, rfl⟩
  | floats xs =>
    obtain ⟨v, rfl⟩ := Array.size_eq_one_iff.mp h
    exact ⟨.float v, rfl, rfl⟩
  | bools xs =>
    obtain ⟨v, rfl⟩ := Array.size_eq_one_iff.mp h
    exact ⟨.bool v, rfl, rfl⟩
  | strings xs =>
    obtain ⟨v, rfl⟩ := Array.size_eq_one_iff.mp h
    exact ⟨.string v, rfl, rfl⟩

end Lanes

namespace Store

variable {s t : Store} {c d p : CellId} {C : CellId → Prop} {o : Option Scalar} {v w : Scalar}

structure Isolated (s : Store) (p : CellId) : Prop where
  lt : p < s.cells.size
  target_eq : (s.cell p).target = none
  unlinked : ∀ c, (s.cell c).target ≠ some p
  unshared : ∀ {c b}, c ≠ p → (s.cell p).buffer = some b → (s.cell c).buffer ≠ some b

/-- What an isolated cell holds if it is a scalar: nothing, or one element. -/
def Holds (s : Store) (p : CellId) : Option Scalar → Prop
  | none => s.cell p = {}
  | some v => ∃ b, s.cell p = { buffer := some b, size := 1 } ∧
      s.buffers[b]? = some (Lanes.ofScalar v)

theorem Isolated.of_touches (h : s.Isolated p) (ht : Touches C s t) (hs : s.Sound) (hp : ¬ C p) :
    t.Isolated p := by
  have hcell : t.cell p = s.cell p := ht.cell_eq hp
  refine ⟨Nat.lt_of_lt_of_le h.lt ht.cells_le, hcell ▸ h.target_eq, fun c hc => ?_,
    fun {c b} hne hb hcb => ?_⟩
  · by_cases hC : C c
    · exact hp (ht.target_mem hC hc)
    · rw [ht.cell_eq hC] at hc
      exact h.unlinked c hc
  · rw [hcell] at hb
    by_cases hC : C c
    · rcases ht.buffer_mem hC hcb with ⟨c₀, hc₀, hb₀⟩ | hle
      · exact h.unshared (fun he => hp (he ▸ hc₀)) hb hb₀
      · exact absurd (hs.buffer_lt hb) (Nat.not_lt.mpr hle)
    · rw [ht.cell_eq hC] at hcb
      exact h.unshared hne hb hcb

/-- A change elsewhere leaves the elements of an isolated cell. -/
theorem Isolated.buffer_eq (h : s.Isolated p) (ht : Touches C s t) (hs : s.Sound) (hp : ¬ C p)
    {b : BufferId} (hb : (s.cell p).buffer = some b) : t.buffers[b]? = s.buffers[b]? :=
  ht.buffer_eq (hs.buffer_lt hb) fun _ hC => h.unshared (fun he => hp (he ▸ hC)) hb

theorem Holds.of_touches (ho : s.Holds p o) (h : s.Isolated p) (ht : Touches C s t) (hs : s.Sound)
    (hp : ¬ C p) : t.Holds p o := by
  cases o with
  | none => exact (ht.cell_eq hp).trans ho
  | some v =>
    obtain ⟨b, hb, hx⟩ := ho
    refine ⟨b, (ht.cell_eq hp).trans hb, ?_⟩
    rw [h.buffer_eq ht hs hp (b := b) (by rw [hb]), hx]

theorem Isolated.region (h : s.Isolated p) : s.Region fun c => c = p ∨ s.cells.size ≤ c where
  fresh hc := .inr hc
  closed {c d} hc hd := by
    rcases hc with rfl | hc
    · simp [h.target_eq] at hd
    · simp [cell_of_le hc] at hd

theorem region_of_isolated {P : CellId → Prop} (h : ∀ p, P p → s.Isolated p) :
    s.Region fun c => ¬ P c where
  fresh hc hp := Nat.not_lt.mpr hc (h _ hp).lt
  closed _ hd hp := (h _ hp).unlinked _ hd

/-! ### Reading a scalar -/

theorem Holds.target_eq (h : s.Holds p o) : (s.cell p).target = none := by
  cases o with
  | none =>
    change s.cell p = {} at h
    rw [h]
  | some v =>
    obtain ⟨b, hb, -⟩ := h
    rw [hb]

theorem Holds.rootCell_eq (h : s.Holds p o) : s.rootCell p = s.cell p := by
  rw [rootCell, root_eq_self h.target_eq]

theorem Holds.lengths_eq (h : s.Holds p o) : s.lengths p = [] := by
  rw [lengths, h.rootCell_eq]
  cases o with
  | none =>
    change s.cell p = {} at h
    rw [h]
  | some v =>
    obtain ⟨b, hb, -⟩ := h
    rw [hb]

theorem Holds.rank_eq (h : s.Holds p o) : s.rank p = 0 := by
  simp [rank, h.lengths_eq]

theorem Holds.offset_eq (h : s.Holds p o) : s.offset p = 0 := by
  rw [offset, h.rootCell_eq]
  cases o with
  | none =>
    change s.cell p = {} at h
    rw [h]
  | some v =>
    obtain ⟨b, hb, -⟩ := h
    rw [hb]

theorem Holds.buffer?_eq (h : s.Holds p o) : s.buffer? p = o.map Lanes.ofScalar := by
  rw [buffer?, h.rootCell_eq]
  cases o with
  | none =>
    change s.cell p = {} at h
    simp [lanes?, h]
  | some v =>
    obtain ⟨b, hb, hx⟩ := h
    simp [lanes?, hb, hx]

/-- Two cells that show the same buffer hold the same. -/
theorem Holds.unique {t : Store} {o' : Option Scalar} (h : s.Holds p o) (h' : t.Holds d o')
    (hb : s.buffer? p = t.buffer? d) : o = o' := by
  rw [h.buffer?_eq, h'.buffer?_eq] at hb
  exact Option.map_injective Lanes.ofScalar_injective hb

theorem Holds.type_eq (h : s.Holds p o) : s.type p = o.elim .void Scalar.type := by
  rw [type, h.buffer?_eq]
  cases o <;> simp

theorem Holds.bufferSize_eq (h : s.Holds p (some v)) : s.bufferSize p = 1 := by
  simp [bufferSize, h.buffer?_eq]

theorem Holds.size_eq (h : s.Holds p (some v)) : s.size p = 1 := by
  rw [size, h.rootCell_eq]
  obtain ⟨b, hb, -⟩ := h
  rw [hb]

theorem Holds.window_eq (h : s.Holds p (some v)) : s.window p = .ok (Lanes.ofScalar v) := by
  have hsize : (s.rootCell p).size = 1 := h.size_eq
  have hoff : (s.rootCell p).offset = 0 := h.offset_eq
  simp [window, h.buffer?_eq, hsize, hoff, Lanes.extract_ofScalar]

theorem Holds.isVoid_eq (h : s.Holds p o) : s.isVoid p = o.isNone := by
  rw [isVoid, h.type_eq]
  cases o with
  | none => rfl
  | some v => cases v <;> rfl

theorem Holds.scalarAs_eq (h : s.Holds p (some v)) (operation : String) :
    s.scalarAs operation p v.type = .ok v := by
  simp [scalarAs, h.type_eq, h.buffer?_eq, h.offset_eq, Lanes.get?_ofScalar]

theorem Holds.int_eq {n : Int64} (h : s.Holds p (some (.int n))) : s.int p = .ok n := by
  simp [int, scalar, show DataType.int = (Scalar.int n).type from rfl, h.scalarAs_eq]

/-! ### Writing a scalar -/

/-- `t` arises from `s` by a change of the isolated cell `p`, which stays isolated. -/
structure Rewrites (s : Store) (p : CellId) (t : Store) : Prop where
  touches : Touches (fun c => c = p ∨ s.cells.size ≤ c) s t
  size_eq : t.cells.size = s.cells.size
  isolated : t.Isolated p

theorem Rewrites.refl (h : s.Isolated p) : s.Rewrites p s := ⟨.refl h.region, rfl, h⟩

theorem Rewrites.trans {u : Store} (h : s.Rewrites p t) (h' : t.Rewrites p u) :
    s.Rewrites p u := by
  have heq : (fun c => c = p ∨ t.cells.size ≤ c) = fun c => c = p ∨ s.cells.size ≤ c := by
    rw [h.size_eq]
  exact ⟨h.touches.trans (heq ▸ h'.touches), h'.size_eq.trans h.size_eq, h'.isolated⟩

/-- A cell stays isolated if it alone changes, keeps no link, and takes no buffer of another. -/
theorem Isolated.change (h : s.Isolated p) (hsize : t.cells.size = s.cells.size)
    (hcell : ∀ c, c ≠ p → t.cell c = s.cell c) (htarget : (t.cell p).target = none)
    (hbuffer : ∀ b, (t.cell p).buffer = some b →
      ∀ c, c ≠ p → (s.cell c).buffer ≠ some b) : t.Isolated p := by
  refine ⟨hsize ▸ h.lt, htarget, fun c hc => ?_, fun {c b} hne hb => ?_⟩
  · by_cases hcp : c = p
    · subst hcp
      simp [htarget] at hc
    · rw [hcell c hcp] at hc
      exact h.unlinked c hc
  · rw [hcell c hne]
    exact hbuffer b hb c hne

/-- The isolated cell `p` takes elements, with a buffer of its own that holds nothing else. -/
structure Puts (s : Store) (p : CellId) (lengths : List Int) (data : Lanes) (t : Store) : Prop
    extends s.Rewrites p t where
  cell_eq : ∃ b, t.cell p =
    { buffer := some b, size := elementCount lengths, lengths := lengths } ∧
      t.buffers[b]? = some data

theorem Puts.trans {u : Store} {lengths lengths' : List Int} {data data' : Lanes}
    (h : s.Puts p lengths data t) (h' : t.Puts p lengths' data' u) : s.Puts p lengths' data' u :=
  ⟨h.toRewrites.trans h'.toRewrites, h'.cell_eq⟩

theorem puts_write {lengths : List Int} {data old : Lanes} {b : BufferId} (h : s.Isolated p)
    (hcell : s.cell p = { buffer := some b, size := elementCount lengths, lengths := lengths })
    (hold : s.buffers[b]? = some old) (htype : old.type = data.type)
    (hsize : old.size = data.size) : s.Puts p lengths data (s.write p data) := by
  have hroot : s.rootCell p = s.cell p := by rw [rootCell, root_eq_self h.target_eq]
  refine ⟨⟨.write h.region (.inl rfl) data, by simp, ?_⟩, b, by simpa using hcell, ?_⟩
  · exact h.change (by simp) (fun _ _ => by simp) (by simpa using h.target_eq)
      fun b hb c hne => h.unshared hne (by simpa using hb)
  · have hoff : s.offset p = 0 := by rw [offset, hroot, hcell]
    unfold write
    rw [hroot, hcell]
    simp [hoff, hold, Array.getElem?_modify, Lanes.overwrite_of_size_eq htype hsize]

theorem puts_renew {lengths : List Int} {data : Lanes} (hs : s.Sound) (h : s.Isolated p)
    (hfit : elementCount lengths ≤ data.size) :
    s.Puts p lengths data (s.renew p data lengths) := by
  have hcell : ∀ c, (s.renew p data lengths).cell c =
      if p = c ∧ c < s.cells.size then presented (s.cell c) (some s.buffers.size) 0 lengths
      else s.cell c := by
    intro c
    rw [renew, present_eq, root_pushBuffer, root_eq_self h.target_eq, cell_setCell]
    rfl
  have hp : (s.renew p data lengths).cell p =
      presented (s.cell p) (some s.buffers.size) 0 lengths := by
    rw [hcell, if_pos ⟨rfl, h.lt⟩]
  have hsize : (s.renew p data lengths).cells.size = s.cells.size := by
    simp [renew, present_eq]
  refine ⟨⟨.renew h.region (c := p) (.inl rfl) hfit, hsize, ?_⟩, s.buffers.size, ?_, ?_⟩
  · refine h.change hsize (fun c hc => ?_) ?_ fun b hb c hne hcb => ?_
    · rw [hcell, if_neg fun hcp => hc hcp.1.symm]
    · rw [hp]
      exact h.target_eq
    · rw [hp] at hb
      cases hb
      exact Nat.lt_irrefl _ (hs.buffer_lt hcb)
  · rw [hp]
    simp [presented, h.target_eq]
  · exact buffers_pushBuffer_self _

/-- `t` arises from `s` by storing a scalar into the isolated cell `p`. -/
structure Stores (s : Store) (p : CellId) (v : Scalar) (t : Store) : Prop
    extends s.Rewrites p t where
  holds : t.Holds p (some v)

theorem Puts.stores (h : s.Puts p [] (Lanes.ofScalar v) t) : s.Stores p v t := by
  obtain ⟨b, hb, hx⟩ := h.cell_eq
  exact ⟨h.toRewrites, b, by rw [hb, elementCount_nil], hx⟩

theorem stores_write (h : s.Isolated p) (ho : s.Holds p (some w)) (hty : w.type = v.type) :
    s.Stores p v (s.write p (Lanes.ofScalar v)) := by
  obtain ⟨b, hb, hx⟩ := ho
  exact (puts_write h (by rw [hb, elementCount_nil]) hx (by simpa using hty) (by simp)).stores

theorem stores_renew (hs : s.Sound) (h : s.Isolated p) :
    s.Stores p v (s.renew p (Lanes.ofScalar v) []) :=
  (puts_renew hs h (by simp [elementCount_nil])).stores

theorem Stores.trans {u : Store} (h : s.Stores p v t) (h' : t.Stores p w u) : s.Stores p w u :=
  ⟨h.toRewrites.trans h'.toRewrites, h'.holds⟩

theorem alloc_holds_none {ty : DataType} (hs : s.Sound) (h : s.Isolated p) (ho : s.Holds p none)
    (hty : ty.isConcrete = true) :
    ∃ v t, v.type = ty ∧ Lanes.zeros? ty 1 = some (Lanes.ofScalar v) ∧
      s.alloc p ty [] = .ok t ∧ s.Stores p v t := by
  have hz := Lanes.zeros?_isSome ty 1
  rw [hty] at hz
  obtain ⟨data, hdata⟩ := Option.isSome_iff_exists.mp hz
  obtain ⟨v, rfl, hv⟩ := Lanes.eq_ofScalar (Lanes.size_zeros? hdata)
  have htv : v.type = ty := hv.trans (Lanes.type_zeros? hdata)
  refine ⟨v, s.renew p (Lanes.ofScalar v) [], htv, hdata, ?_, stores_renew hs h⟩
  have hna : s.isAllocated p ty [] = false := by
    have : (DataType.void == ty) = false := by
      cases ty <;> trivial
    simp [isAllocated, ho.type_eq, this]
  have hal : isAllocatable ty 1 = true := by
    cases ty <;> rfl
  simp [alloc, hna, hty, elementCount_nil, hal, hdata, setData_eq_ok_iff]

theorem alloc_holds_some (ho : s.Holds p (some v)) : s.alloc p v.type [] = .ok s := by
  have : s.isAllocated p v.type [] = true := by
    simp [isAllocated, ho.type_eq, ho.offset_eq, ho.lengths_eq, ho.bufferSize_eq, ho.size_eq]
  simp [alloc, this]

/-- Delivering one element to a cell that is void or holds a scalar of the same type. -/
theorem deliver_holds (hs : s.Sound) (h : s.Isolated p) (ho : s.Holds p o)
    (hty : ∀ w, o = some w → w.type = v.type) :
    ∃ t, s.deliver p [] (Lanes.ofScalar v) = .ok t ∧ s.Stores p v t := by
  unfold deliver prepare
  rw [Lanes.type_ofScalar]
  cases o with
  | some w =>
    have hsame : s.type p = v.type ∧ s.lengths p = [] :=
      ⟨by simpa using ho.type_eq.trans (hty w rfl), ho.lengths_eq⟩
    rw [if_pos hsame]
    exact ⟨_, rfl, stores_write h ho (hty w rfl)⟩
  | none =>
    have hdiff : ¬ (s.type p = v.type ∧ s.lengths p = []) := by
      rw [ho.type_eq]
      cases v <;> simp [Scalar.type]
    rw [if_neg hdiff]
    obtain ⟨z, t, hz, -, ha, hst⟩ := alloc_holds_none hs h ho v.isConcrete_type
    rw [ha]
    exact ⟨_, rfl, hst.trans (stores_write hst.isolated hst.holds hz)⟩

theorem setScalar_holds (hs : s.Sound) (h : s.Isolated p) (ho : s.Holds p o)
    (hty : ∀ w, o = some w → w.type = v.type) :
    ∃ t, s.setScalar p v = .ok t ∧ s.Stores p v t := by
  unfold setScalar
  rw [ho.isVoid_eq]
  cases o with
  | none =>
    refine ⟨_, ?_, stores_renew hs h⟩
    simp [setData_eq_ok_iff, elementCount_nil]
  | some w =>
    have hw := hty w rfl
    rw [← hw]
    simp only [Option.isNone_some, Bool.false_eq_true, if_false, ho.scalarAs_eq]
    exact ⟨_, rfl, stores_write h ho hw⟩

end Store

end VectorMachine
