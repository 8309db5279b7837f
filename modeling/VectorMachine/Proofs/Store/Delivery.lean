import VectorMachine.Proofs.Store.Elementwise
import VectorMachine.Proofs.Store.Agreement

/-!
# Delivering a result

A destination that has the type and the lengths of a result keeps its buffer; any other one gets a new
one, if that can be allocated.  Then the destination shows the result.
-/

namespace VectorMachine
set_option autoImplicit false

namespace Lanes

variable {xs ys : Lanes} {lo : Nat}

theorem extract_overwrite (htype : xs.type = ys.type) (h : lo + ys.size ≤ xs.size) :
    (overwrite lo xs ys).extract lo ys.size = ys := by
  have harray : ∀ {α : Type} (xs ys : Array α), lo + ys.size ≤ xs.size →
      (overwriteArray xs lo ys).extract lo (lo + ys.size) = ys := by
    intro α xs ys h
    apply Array.ext
    · simp only [Array.size_extract, size_overwriteArray]
      omega
    · intro i _ hi
      simp [overwriteArray, hi]
  cases xs <;> cases ys <;> cases htype <;> exact congrArg _ (harray _ _ h)

end Lanes

namespace Store

variable {s u : Store} {d : CellId} {cs : List CellId} {op : Lanewise} {ty : DataType}
  {lengths : List Int} {data : Lanes}

/-! ### Shaping the destination -/

/-- A container has a type and lengths, or they can be allocated for it. -/
def Takes (s : Store) (d : CellId) (ty : DataType) (lengths : List Int) : Prop :=
  s.type d = ty ∧ s.lengths d = lengths ∨
    (∀ n ∈ lengths, 0 ≤ n) ∧ isAllocatable ty (elementCount lengths) = true

/-- `u` arises from `s` by shaping `d`, whose elements stay where they are or lie in a new buffer. -/
structure Shaped (s : Store) (d : CellId) (ty : DataType) (lengths : List Int) (u : Store) :
    Prop where
  sound : u.Sound
  type_eq : u.type d = ty
  lengths_eq : u.lengths d = lengths
  size_eq : u.size d = elementCount lengths
  nonneg : 0 ≤ elementCount lengths
  place : u = s ∨ (u.rootCell d).buffer = some s.buffers.size ∧
    ∀ {b i}, b < s.buffers.size → u.element? b i = s.element? b i

theorem Sound.root_lt (hs : s.Sound) (hd : d < s.cells.size) : s.root d < s.cells.size :=
  Parted.root (P := (· < s.cells.size)) (Q := fun _ => False)
    ⟨fun _ => id, fun _ => hs.target_lt, fun _ => False.elim⟩ hd

theorem rootCell_renew (hs : s.Sound) (hd : d < s.cells.size) : (s.renew d data lengths).rootCell d =
    presented (s.rootCell d) (some s.buffers.size) 0 lengths :=
  hs.grounded.rootCell_renew (hs.root_lt hd) data lengths

theorem buffer?_renew (hs : s.Sound) (hd : d < s.cells.size) :
    (s.renew d data lengths).buffer? d = some data := by
  rw [buffer?, rootCell_renew hs hd]
  exact buffers_pushBuffer_self data

theorem shaped_renew (hs : s.Sound) (hd : d < s.cells.size) (hn : 0 ≤ elementCount lengths)
    (hdata : data.size = (elementCount lengths).toNat) :
    s.Shaped d data.type lengths (s.renew d data lengths) := by
  have hfit : elementCount lengths ≤ data.size := by omega
  have hsound : (s.renew d data lengths).Sound :=
    (Touches.renew region_true (c := d) trivial hfit).sound hs
  have hcell := @rootCell_renew s d lengths data hs hd
  refine ⟨hsound, ?_, ?_, ?_, hn, .inr ⟨?_, fun hb => element?_pushBuffer hb⟩⟩
  · rw [type, buffer?_renew hs hd]
    rfl
  · rw [Store.lengths, hcell]
    rfl
  · rw [size, hcell]
    rfl
  · rw [hcell]
    rfl

theorem Formed.shaped_self (hs : s.Formed) (hty : ty.isConcrete = true) (htype : s.type d = ty)
    (hl : s.lengths d = lengths) : s.Shaped d ty lengths s := by
  have hvoid : s.type d ≠ .void := by
    intro hv
    rw [← htype, hv] at hty
    cases hty
  obtain ⟨i, -, hi, -⟩ := buffer_of_type hvoid
  have hsize : s.size d = elementCount lengths := by
    rw [hs.sound.size_eq hvoid, hl]
  refine ⟨hs.sound, htype, hl, hsize, ?_, .inl rfl⟩
  rw [← hsize]
  exact (hs.sized _).nonneg hi

theorem find?_negative : lengths.find? (· < 0) = none ↔ ∀ n ∈ lengths, 0 ≤ n := by
  rw [List.find?_eq_none]
  exact forall₂_congr fun n _ => by simp

/-- An allocation that is needed succeeds exactly for lengths that are not negative and describe a
number of elements that can be allocated. -/
theorem alloc_cases (hty : ty.isConcrete = true) (ha : s.isAllocated d ty lengths = false) :
    ((∀ n ∈ lengths, 0 ≤ n) ∧ isAllocatable ty (elementCount lengths) = true ∧
      ∃ data : Lanes, data.type = ty ∧ data.size = (elementCount lengths).toNat ∧
        0 ≤ elementCount lengths ∧ s.alloc d ty lengths = .ok (s.renew d data lengths)) ∨
    (¬ ((∀ n ∈ lengths, 0 ≤ n) ∧ isAllocatable ty (elementCount lengths) = true) ∧
      ∃ e, s.alloc d ty lengths = .error e) := by
  unfold alloc
  rw [if_neg (by simp [ha])]
  cases hneg : lengths.find? (· < 0) with
  | some n =>
    refine .inr ⟨fun h => ?_, _, rfl⟩
    rw [find?_negative.mpr h.1] at hneg
    cases hneg
  | none =>
    have hnonneg := find?_negative.mp hneg
    by_cases hfits : isAllocatable ty (elementCount lengths) = true
    · obtain ⟨data, hdata⟩ := Option.isSome_iff_exists.mp
        ((Lanes.zeros?_isSome ty (elementCount lengths).toNat).trans hty)
      have hsize := Lanes.size_zeros? hdata
      have hcount : 0 ≤ elementCount lengths := by
        simp only [isAllocatable, Bool.and_eq_true, decide_eq_true_eq] at hfits
        exact hfits.1
      refine .inl ⟨hnonneg, hfits, data, Lanes.type_zeros? hdata, hsize, hcount, ?_⟩
      simp only [hty, hfits, hdata, Bool.not_true, Bool.false_eq_true, if_false]
      exact setData_eq_ok_iff.mpr ⟨by omega, rfl⟩
    · refine .inr ⟨fun h => hfits h.2, .oversized, ?_⟩
      simp [hty, hfits]

/-- A container that takes a type and lengths gets them, and the allocation fails otherwise. -/
theorem Formed.prepare_cases (hs : s.Formed) (lengths : List Int) (hd : d < s.cells.size)
    (hty : ty.isConcrete = true) :
    (s.Takes d ty lengths ∧ ∃ u, s.prepare d ty lengths = .ok u ∧ s.Shaped d ty lengths u) ∨
    (¬ s.Takes d ty lengths ∧
      ∃ e, s.prepare d ty lengths = .error (.abort e) ∧ Unallocatable e) := by
  unfold prepare Takes
  by_cases hsame : s.type d = ty ∧ s.lengths d = lengths
  · rw [if_pos hsame]
    exact .inl ⟨.inl hsame, s, rfl, hs.shaped_self hty hsame.1 hsame.2⟩
  · rw [if_neg hsame]
    have hneeded : s.isAllocated d ty lengths = false := by
      simp only [isAllocated, Bool.and_eq_false_iff, beq_eq_false_iff_ne]
      by_cases htype : s.type d = ty
      · exact .inl (.inr fun hl => hsame ⟨htype, hl⟩)
      · exact .inl (.inl (.inl htype))
    rcases alloc_cases hty hneeded with ⟨hn, hfits, data, rfl, hsize, hcount, ha⟩ | ⟨hno, e, ha⟩
    · rw [ha]
      exact .inl ⟨.inr ⟨hn, hfits⟩, _, rfl, shaped_renew hs.sound hd hcount hsize⟩
    · rw [ha]
      refine .inr ⟨fun h => h.elim hsame hno, e, rfl, alloc_error hty ha⟩

/-- What is written into a shaped container is what it shows. -/
theorem Shaped.window_write (h : s.Shaped d data.type lengths u)
    (hdata : data.size = (elementCount lengths).toNat) :
    (u.write d data).type d = data.type ∧ (u.write d data).lengths d = lengths ∧
      (u.write d data).window d = .ok data := by
  have hroot : (u.write d data).rootCell d = u.rootCell d := by
    rw [rootCell, root_of_cells_eq (cells_write data), cell_write]
    rfl
  have hvoid : u.type d ≠ .void := by
    intro hv
    have hconcrete := data.isConcrete_type
    rw [← h.type_eq, hv] at hconcrete
    cases hconcrete
  obtain ⟨i, old, hi, hold, hb, htype⟩ := buffer_of_type hvoid
  have hbuffer : (u.write d data).buffer? d = some (Lanes.overwrite (u.offset d) old data) := by
    rw [buffer?, hroot, lanes?_write, if_pos rfl, show u.lanes? (u.rootCell d) = some old from hb]
    rfl
  have hfit := h.sound.fits hb
  have hsize := h.size_eq
  have hnonneg := h.nonneg
  refine ⟨?_, ?_, ?_⟩
  · rw [type, hbuffer]
    exact (Lanes.type_overwrite ..).trans (htype.trans h.type_eq)
  · rw [Store.lengths, hroot]
    exact h.lengths_eq
  · unfold window
    rw [hbuffer, hroot]
    simp only [size, offset] at hfit hsize
    simp only [Lanes.size_overwrite]
    rw [if_neg (by omega), hsize, ← hdata]
    have hroom : (u.rootCell d).offset + data.size ≤ old.size := by omega
    exact congrArg _ (Lanes.extract_overwrite (htype.trans h.type_eq) hroom)

/-- A result is delivered to a container that takes its type and lengths, which then shows it. -/
theorem Formed.deliver_cases (hs : s.Formed) (hd : d < s.cells.size)
    (hdata : data.size = (elementCount lengths).toNat) :
    (s.Takes d data.type lengths ∧ ∃ t, s.deliver d lengths data = .ok t ∧
      t.type d = data.type ∧ t.lengths d = lengths ∧ t.window d = .ok data) ∨
    (¬ s.Takes d data.type lengths ∧
      ∃ e, s.deliver d lengths data = .error (.abort e) ∧ Unallocatable e) := by
  unfold deliver
  rcases hs.prepare_cases lengths hd data.isConcrete_type with
    ⟨ht, u, hu, hshaped⟩ | ⟨ht, e, he, hun⟩
  · rw [hu]
    exact .inl ⟨ht, u.write d data, rfl, hshaped.window_write hdata⟩
  · rw [he]
    exact .inr ⟨ht, e, rfl, hun⟩

/-! ### Elementwise instructions -/

/-- `t` arises from `s` by an elementwise instruction: its destination has the type of the result and
the lengths of the arrays among the sources, and shows at each position the operation on what the
sources contributed to it in `s`. -/
structure Performs (s : Store) (op : Lanewise) (ty : DataType) (d : CellId) (cs : List CellId)
    (t : Store) : Prop where
  type_eq : t.type d = op.resultType ty
  lengths_eq : t.lengths d = s.arrayLengths cs
  lane : ∀ i < (elementCount (s.arrayLengths cs)).toNat, ∃ xs v,
    cs.mapM (s.contribution? ty i) = some xs ∧ op.on? xs = some v ∧ t.shown? d i = some v

/-- An elementwise instruction refuses its data, or is performed, or cannot allocate its result. -/
theorem Formed.receive_lanewise (hs : s.Formed) (ty : DataType) (hd : d < s.cells.size)
    (hcs : cs.length = op.sources) :
    (s.Refuses op ty cs ∧ ∃ cause, s.receive d (s.lanewise op ty cs) = .error (.data cause)) ∨
    (¬ s.Refuses op ty cs ∧ s.Takes d (op.resultType ty) (s.arrayLengths cs) ∧
      ∃ t, s.receive d (s.lanewise op ty cs) = .ok t ∧ s.Performs op ty d cs t) ∨
    (¬ s.Refuses op ty cs ∧ ¬ s.Takes d (op.resultType ty) (s.arrayLengths cs) ∧
      ∃ e, s.receive d (s.lanewise op ty cs) = .error (.abort e) ∧ Unallocatable e) := by
  have hdecides := hs.decides_lanewise ty hcs
  cases hr : s.lanewise op ty cs with
  | error e =>
    rw [hr] at hdecides
    cases e with
    | data cause => exact .inl ⟨hdecides, cause, rfl⟩
    | abort e => exact hdecides.elim
  | ok r =>
    obtain ⟨lengths, data⟩ := r
    rw [hr] at hdecides
    obtain ⟨hno, hcomputes⟩ := hdecides
    have hlengths : lengths = s.arrayLengths cs := hcomputes.lengths_eq
    have htype : data.type = op.resultType ty := hcomputes.type_eq
    have hsize : data.size = (elementCount lengths).toNat := hcomputes.size_eq
    rw [← hlengths, ← htype]
    rcases hs.deliver_cases hd hsize with ⟨ht, t, hok, htt, htl, hw⟩ | ⟨ht, e, he, hun⟩
    · refine .inr (.inl ⟨hno, ht, t, hok, htt.trans htype, htl.trans hlengths, fun i hi => ?_⟩)
      rw [← hlengths, ← hsize] at hi
      obtain ⟨xs, v, hxs, hv, hget⟩ := hcomputes.lane i hi
      exact ⟨xs, v, hxs, hv, (shown?_of_window hw i).trans hget⟩
    · exact .inr (.inr ⟨hno, ht, e, he, hun⟩)

end Store

end VectorMachine
