import Mathlib.Data.Set.Function
import VectorMachine.Proofs.Store.InPlace

/-!
# Row-major order

The indices of an element say where it stands among all elements: the last index counts single
elements, every other one as many elements as the dimensions after it describe.  Indices inside the
lengths of an array and positions among its elements correspond one to one, and the index that
instructions compute is that position, in 64 bit arithmetic.
-/

namespace VectorMachine
set_option autoImplicit false

/-- Indices inside lengths, dimension by dimension. -/
abbrev Inside (lengths indices : List Int) : Prop :=
  List.Forall₂ (fun n i => 0 ≤ i ∧ i < n) lengths indices

namespace Store

/-- The position of the element with some indices. -/
def rowMajor : List Int → List Int → Int
  | _ :: lengths, i :: indices => i * elementTotal lengths + rowMajor lengths indices
  | _, _ => 0

/-- The indices of the element at a position. -/
def indicesAt : List Int → Int → List Int
  | [], _ => []
  | _ :: lengths, k =>
    k / elementTotal lengths :: indicesAt lengths (k % elementTotal lengths)

variable {lengths indices : List Int} {k n : Int}

@[simp] theorem elementTotal_nil : elementTotal [] = 1 := rfl

@[simp] theorem elementTotal_cons : elementTotal (n :: lengths) = n * elementTotal lengths := rfl

theorem pos_of_inside (h : Inside lengths indices) : ∀ n ∈ lengths, 0 < n := by
  induction h with
  | nil => simp
  | cons hi _ ih =>
    intro n hn
    rcases List.mem_cons.mp hn with rfl | hn
    · exact Int.lt_of_le_of_lt hi.1 hi.2
    · exact ih n hn

theorem rowMajor_bounds (h : Inside lengths indices) :
    0 ≤ rowMajor lengths indices ∧ rowMajor lengths indices < elementTotal lengths := by
  induction h with
  | nil => exact ⟨Int.le_refl 0, by decide⟩
  | @cons n i lengths indices hi hrest ih =>
    have htotal := elementTotal_pos (pos_of_inside hrest)
    have hbefore : 0 ≤ i * elementTotal lengths := Int.mul_nonneg hi.1 (Int.le_of_lt htotal)
    have hrow : (i + 1) * elementTotal lengths ≤ n * elementTotal lengths :=
      Int.mul_le_mul_of_nonneg_right hi.2 (Int.le_of_lt htotal)
    rw [Int.add_mul, Int.one_mul] at hrow
    simp only [rowMajor, elementTotal_cons]
    omega

theorem indicesAt_rowMajor (h : Inside lengths indices) :
    indicesAt lengths (rowMajor lengths indices) = indices := by
  induction h with
  | nil => rfl
  | @cons n i lengths indices hi hrest ih =>
    obtain ⟨hnonneg, hlt⟩ := rowMajor_bounds hrest
    have htotal := elementTotal_pos (pos_of_inside hrest)
    have hdiv : (i * elementTotal lengths + rowMajor lengths indices) / elementTotal lengths = i := by
      rw [Int.add_comm, Int.add_mul_ediv_right _ _ (Int.ne_of_gt htotal),
        Int.ediv_eq_zero_of_lt hnonneg hlt, Int.zero_add]
    have hmod : (i * elementTotal lengths + rowMajor lengths indices) % elementTotal lengths =
        rowMajor lengths indices := by
      rw [Int.add_comm, Int.add_mul_emod_self_right, Int.emod_eq_of_lt hnonneg hlt]
    simp only [rowMajor, indicesAt, hdiv, hmod, ih]

theorem rowMajor_indicesAt (hn : ∀ n ∈ lengths, 0 ≤ n) (h₀ : 0 ≤ k)
    (hk : k < elementTotal lengths) : Inside lengths (indicesAt lengths k) ∧
      rowMajor lengths (indicesAt lengths k) = k := by
  induction lengths generalizing k with
  | nil =>
    rw [elementTotal_nil] at hk
    exact ⟨.nil, by simp only [rowMajor]; omega⟩
  | cons n lengths ih =>
    rw [elementTotal_cons] at hk
    have hrest : ∀ n ∈ lengths, 0 ≤ n := fun m hm => hn m (by simp [hm])
    -- a dimension without places would leave no position at all
    have htotal : 0 < elementTotal lengths := by
      have hnonneg := elementTotal_nonneg hrest
      rcases Int.lt_or_eq_of_le hnonneg with hlt | heq
      · exact hlt
      · rw [← heq, Int.mul_zero] at hk
        omega
    obtain ⟨hinside, hrow⟩ := ih hrest (Int.emod_nonneg k (Int.ne_of_gt htotal))
      (Int.emod_lt_of_pos k htotal)
    refine ⟨.cons ⟨Int.ediv_nonneg h₀ (Int.le_of_lt htotal), ?_⟩ hinside, ?_⟩
    · exact Int.ediv_lt_of_lt_mul htotal hk
    · simp only [indicesAt, rowMajor, hrow]
      rw [Int.mul_comm]
      exact Int.mul_ediv_add_emod k _

theorem bijOn_rowMajor (hn : ∀ n ∈ lengths, 0 ≤ n) :
    Set.BijOn (rowMajor lengths) {indices | Inside lengths indices}
      {k | 0 ≤ k ∧ k < elementTotal lengths} := by
  refine ⟨fun indices h => rowMajor_bounds h, ?_, fun k hk => ?_⟩
  · intro is his js hjs heq
    rw [← indicesAt_rowMajor his, ← indicesAt_rowMajor hjs, heq]
  · obtain ⟨hinside, hrow⟩ := rowMajor_indicesAt hn hk.1 hk.2
    exact ⟨_, hinside, hrow⟩

/-! ### Wrapping -/

theorem wrap_zero : wrap 0 = 0 := by decide

/-- Only the last of several wraps counts. -/
theorem wrap_mul_add (x y z : Int) : wrap (wrap x * y + z) = wrap (x * y + z) := by
  unfold wrap
  rw [← Int.bmod_add_bmod, Int.bmod_mul_bmod, Int.bmod_add_bmod]

/-! ### Indices of instructions -/

variable {s : Store} {a c : CellId} {cs : List CellId} {data : Lanes} {i : Nat}

theorem Formed.shown?_eq (hs : s.Formed) (hb : s.buffer? c = some data) (hi : i < s.size c) :
    s.shown? c i = data.get? (s.offset c + i) := by
  have hvoid : s.type c ≠ .void := by
    intro hv
    have hconcrete := data.isConcrete_type
    rw [show data.type = s.type c by simp [type, hb], hv] at hconcrete
    cases hconcrete
  obtain ⟨shown, hw, -⟩ := hs.exists_window hvoid
  rw [shown?_of_window hw]
  simp only [window, hb] at hw
  split at hw
  · cases hw
  · cases hw
    exact Lanes.get?_extract (by simp only [size] at hi; omega)

/-- The number that an int container of a single element shows. -/
def subscript? (s : Store) (c : CellId) : Option Int :=
  if s.type c = .int ∧ s.size c = 1 then
    match s.shown? c 0 with
    | some (.int v) => some v.toInt
    | _ => none
  else none

theorem Alike.subscript?_eq {t : Store} {b : CellId} (h : s.Alike c t b) :
    s.subscript? c = t.subscript? b := by
  simp only [subscript?, shown?, h.type_eq, h.size_eq, h.window_eq]

/-- What is wrong with an index of a dimension that has `n` places. -/
def offense? (s : Store) (n : Int) (c : CellId) : Option DataErrorKind :=
  match s.subscript? c with
  | none => some .unsupportedType
  | some i => if 0 ≤ i ∧ i < n then none else some .indexOutOfRange

/-- What is wrong with the first dimension whose index is not right. -/
def firstOffense? (s : Store) (lengths : List Int) (cs : List CellId) : Option DataErrorKind :=
  (lengths.zip cs).findSome? fun (n, c) => s.offense? n c

theorem Formed.exists_subscript (hs : s.Formed) (ht : s.type c = .int) (hsize : s.size c = 1) :
    ∃ v, s.int c = .ok v ∧ s.subscript? c = some v.toInt := by
  obtain ⟨v, hv⟩ := hs.sound.exists_int ht (by omega)
  refine ⟨v, hv, ?_⟩
  obtain ⟨_, data, -, -, hb, -⟩ := buffer_of_type (s := s) (c := c) (by simp [ht])
  have hshown := hs.shown?_eq (i := 0) hb (by omega)
  have hget : data.get? (s.offset c) = some (.int v) := by
    simp only [int, scalar, scalarAs, ht, hb, ne_eq, not_true, if_false, Option.bind_some] at hv
    cases hx : data.get? (s.offset c) with
    | none => simp [hx] at hv
    | some x => cases x <;> simp [hx] at hv ⊢; exact hv
  rw [subscript?, if_pos ⟨ht, hsize⟩, hshown, Nat.add_zero, hget]

theorem subscript?_eq_none (h : ¬ (s.type c = .int ∧ s.size c = 1)) : s.subscript? c = none :=
  if_neg h

theorem firstOffense?_cons {n : Int} : s.firstOffense? (n :: lengths) (c :: cs) =
    (s.offense? n c).or (s.firstOffense? lengths cs) := by
  simp only [firstOffense?, List.zip_cons_cons, List.findSome?_cons]
  cases s.offense? n c <;> rfl

theorem offense?_eq_none_iff {n : Int} : s.offense? n c = none ↔
    ∃ i, s.subscript? c = some i ∧ 0 ≤ i ∧ i < n := by
  unfold offense?
  cases s.subscript? c <;> simp

theorem length_of_mapM {α β : Type} {f : α → Option β} {xs : List α} {ys : List β}
    (h : xs.mapM f = some ys) : xs.length = ys.length := by
  induction xs generalizing ys with
  | nil => simp_all
  | cons x xs ih =>
    simp only [List.mapM_cons, Option.bind_eq_bind, Option.bind_eq_some_iff, Option.pure_def,
      Option.some.injEq] at h
    obtain ⟨y, -, ys, hys, rfl⟩ := h
    simp [ih hys]

/-- Nothing is wrong with indices exactly if all are numbers inside the lengths. -/
theorem firstOffense?_eq_none_iff (h : cs.length = lengths.length) :
    s.firstOffense? lengths cs = none ↔
      ∃ indices, cs.mapM s.subscript? = some indices ∧ Inside lengths indices := by
  induction lengths generalizing cs with
  | nil =>
    obtain rfl := List.eq_nil_of_length_eq_zero h
    exact iff_of_true rfl ⟨[], rfl, .nil⟩
  | cons n lengths ih =>
    rcases cs with _ | ⟨c, cs⟩
    · cases h
    rw [firstOffense?_cons, Option.or_eq_none_iff, offense?_eq_none_iff,
      ih (Nat.succ.inj h)]
    constructor
    · rintro ⟨⟨i, hi, hin⟩, is, his, hinside⟩
      exact ⟨i :: is, by simp [List.mapM_cons, hi, his], .cons hin hinside⟩
    · rintro ⟨is, his, hinside⟩
      cases hinside with
      | @cons _ i _ is hin hinside =>
        simp only [List.mapM_cons, Option.bind_eq_bind, Option.bind_eq_some_iff, Option.pure_def,
          Option.some.injEq, List.cons.injEq] at his
        obtain ⟨_, hi, _, his, rfl, rfl⟩ := his
        exact ⟨⟨_, hi, hin⟩, _, his, hinside⟩

/-- Folding indices gives the error of the first one that is not right, or the position. -/
theorem Formed.flatIndexFrom_cases (hs : s.Formed) (flat : Int) (h : cs.length = lengths.length) :
    (∃ cause, s.flatIndexFrom (wrap flat) lengths cs = .error (.data cause) ∧
      s.firstOffense? lengths cs = some cause.kind) ∨
    ∃ indices, cs.mapM s.subscript? = some indices ∧ Inside lengths indices ∧
      s.flatIndexFrom (wrap flat) lengths cs =
        .ok (wrap (flat * elementTotal lengths + rowMajor lengths indices)) := by
  -- what has been accumulated is known only up to wrapping, so it is stated before wrapping
  induction lengths generalizing cs flat with
  | nil =>
    obtain rfl := List.eq_nil_of_length_eq_zero h
    exact .inr ⟨[], rfl, .nil, by simp [flatIndexFrom, rowMajor]⟩
  | cons n lengths ih =>
    rcases cs with _ | ⟨c, cs⟩
    · cases h
    rw [firstOffense?_cons]
    simp only [flatIndexFrom]
    by_cases hshape : s.type c = .int ∧ s.size c = 1
    · obtain ⟨v, hv, hsub⟩ := hs.exists_subscript hshape.1 hshape.2
      rw [if_neg (by simp [hshape])]
      simp only [hv, Except.mapError, ok_bind]
      by_cases hin : 0 ≤ v.toInt ∧ v.toInt < n
      · rw [if_neg (by omega), wrap_mul_add]
        have hnone : s.offense? n c = none := offense?_eq_none_iff.mpr ⟨_, hsub, hin⟩
        rw [hnone, Option.none_or]
        refine (ih (flat * n + v.toInt) (Nat.succ.inj h)).imp id ?_
        rintro ⟨is, his, hinside, hok⟩
        refine ⟨v.toInt :: is, by simp [List.mapM_cons, hsub, his], .cons hin hinside, ?_⟩
        rw [hok, rowMajor, elementTotal_cons, Int.add_mul, Int.mul_assoc, Int.add_assoc]
      · rw [if_pos (by omega)]
        refine .inl ⟨_, rfl, ?_⟩
        simp only [offense?, hsub, hin, if_false]
        rfl
    · rw [if_pos (by rwa [← Classical.not_and_iff_not_or_not])]
      refine .inl ⟨_, rfl, ?_⟩
      simp only [offense?, subscript?_eq_none hshape]
      rfl

theorem Formed.flatIndex_cases (hs : s.Formed) (a : CellId) (cs : List CellId) :
    (cs.length ≠ s.rank a ∧
      ∃ cause, s.flatIndex a cs = .error (.data cause) ∧ cause.kind = .rankMismatch) ∨
    (cs.length = s.rank a ∧ ∃ cause, s.flatIndex a cs = .error (.data cause) ∧
      s.firstOffense? (s.lengths a) cs = some cause.kind) ∨
    (cs.length = s.rank a ∧ ∃ indices, cs.mapM s.subscript? = some indices ∧
      Inside (s.lengths a) indices ∧ s.flatIndex a cs = .ok (wrap (rowMajor (s.lengths a) indices))) := by
  unfold flatIndex
  by_cases hlen : cs.length = s.rank a
  · rw [if_neg (by simp [hlen])]
    have hcases := hs.flatIndexFrom_cases 0 hlen
    simp only [wrap_zero, Int.zero_mul, Int.zero_add] at hcases
    rcases hcases with h | h
    · exact .inr (.inl ⟨hlen, h⟩)
    · exact .inr (.inr ⟨hlen, h⟩)
  · rw [if_pos hlen]
    exact .inl ⟨hlen, _, rfl, rfl⟩

/-- A position inside an array whose elements 64 bits number is below its size. -/
theorem Formed.wrap_rowMajor (hs : s.Formed) (ha : s.type a ≠ .void)
    (hlt : elementTotal (s.lengths a) < 2 ^ 63) {indices : List Int}
    (hin : Inside (s.lengths a) indices) :
    wrap (rowMajor (s.lengths a) indices) = rowMajor (s.lengths a) indices ∧
      0 ≤ rowMajor (s.lengths a) indices ∧ rowMajor (s.lengths a) indices < s.size a := by
  obtain ⟨hnonneg, hbelow⟩ := rowMajor_bounds hin
  have hpos : 0 ≤ elementTotal (s.lengths a) := by omega
  have htotal : s.size a = elementTotal (s.lengths a) :=
    (hs.sound.size_eq ha).trans (wrap_of_lt hpos hlt)
  exact ⟨wrap_of_lt hnonneg (by omega), hnonneg, by omega⟩

theorem Sound.rootCell_present (hs : s.Sound) (hc : c < s.cells.size) (b : Option BufferId)
    (offset : Nat) (lengths : List Int) : (s.present c b offset lengths).rootCell c =
      presented (s.rootCell c) b offset lengths := by
  have hlt := hs.root_lt hc
  have hroot : (s.present c b offset lengths).root c = s.root c := by
    refine root_congr hs.grounded (fun d => ?_) c
    rw [cell_present]
    split <;> rfl
  rw [rootCell, hroot, cell_present, if_pos ⟨rfl, hlt⟩]
  rfl

theorem Formed.of_setElementView (hs : s.Formed) (hc : c < s.cells.size) {t : Store}
    (hview : s.setElementView c a k = .ok t) : t.Formed ∧ t.type c = s.type a ∧ t.size c = 1 ∧
      t.shown? c 0 = s.shown? a k.toNat := by
  have hformed : t.Formed := Edit.formed (.of_setElementView (g := forming) trivial hview) hs
  obtain ⟨data, hb, h₀, hk, -, rfl⟩ := setElementView_ok hview
  have hroot := hs.sound.rootCell_present hc (s.rootCell a).buffer
    ((s.rootCell a).offset + k.toNat) []
  have hbuffer : (s.present c (s.rootCell a).buffer
      ((s.rootCell a).offset + k.toNat) []).buffer? c = some data := by
    rw [buffer?, hroot]
    exact hb
  have hsize : (s.present c (s.rootCell a).buffer
      ((s.rootCell a).offset + k.toNat) []).size c = 1 := by
    rw [size, hroot]
    exact elementCount_nil
  have hlt : k < s.size a := hk
  refine ⟨hformed, by rw [type, hbuffer, type, hb], hsize, ?_⟩
  rw [hformed.shown?_eq hbuffer (by omega), hs.shown?_eq hb (by omega), offset, hroot]
  rfl

theorem Formed.exists_view (hs : s.Formed) (h₀ : 0 ≤ k) (hk : k < s.size a) :
    ∃ t, s.setElementView c a k = .ok t := by
  cases hview : s.setElementView c a k with
  | error e => exact absurd ⟨h₀, hk⟩ (hs.setElementView_error hview).1
  | ok t => exact ⟨t, rfl⟩

end Store

end VectorMachine
