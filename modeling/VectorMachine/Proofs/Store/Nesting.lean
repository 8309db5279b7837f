import VectorMachine.Host.Value
import VectorMachine.Proofs.Store.RowMajor

/-!
# Nested values

The nested list that a container gives its host has each element where its indices say: at the path
of these indices.  The list is made unless one of its parts takes more bytes than an allocation can.
-/

namespace VectorMachine
set_option autoImplicit false

open Store (elementTotal rowMajor)

/-- The part of a nested list at a path of indices. -/
def Nested.at? : Nested → List Int → Option Nested
  | x, [] => some x
  | .leaf _, _ :: _ => none
  | .node xs, i :: indices => if i < 0 then none else xs[i.toNat]?.bind (·.at? indices)

namespace Host

/-- No list of a nested value takes too many bytes, down to the first dimension without places. -/
def Nestable (ty : DataType) : List Int → Prop
  | [] => True
  | n :: lengths =>
    n * (if lengths.isEmpty then Lanes.elementBytes ty else listBytes) ≤ greatestAllocation ∧
      (0 < n → Nestable ty lengths)

variable {read : Nat → Except Abort (Nested × Nat)} {width n pos next : Nat} {x : Nested}
  {xs : List Nested} {data : Lanes} {lengths : List Int}

/-- Values that are all of one width, read one after another. -/
theorem threaded_ok {P : Nat → Nested → Prop}
    (hread : ∀ {pos x next}, read pos = .ok (x, next) → next = pos + width ∧ P pos x)
    (h : threaded read n pos = .ok (xs, next)) : next = pos + n * width ∧ xs.length = n ∧
      ∀ i x, xs[i]? = some x → P (pos + i * width) x := by
  induction n generalizing pos xs with
  | zero =>
    cases h
    simp
  | succ n ih =>
    simp only [threaded] at h
    obtain ⟨⟨x, mid⟩, hx, h⟩ := Store.bind_eq_ok.mp h
    obtain ⟨⟨ys, last⟩, hys, h⟩ := Store.bind_eq_ok.mp h
    cases h
    obtain ⟨rfl, hp⟩ := hread hx
    obtain ⟨rfl, hlen, hall⟩ := ih hys
    refine ⟨by rw [Nat.succ_mul]; omega, by simp [hlen], fun i y hy => ?_⟩
    cases i with
    | zero =>
      obtain rfl : x = y := by simpa using hy
      simpa using hp
    | succ i =>
      have := hall i y (by simpa using hy)
      rwa [Nat.succ_mul, Nat.add_comm (i * width), ← Nat.add_assoc]

theorem exists_threaded
    (hread : ∀ i < n, ∃ x, read (pos + i * width) = .ok (x, pos + i * width + width)) :
    ∃ xs, threaded read n pos = .ok (xs, pos + n * width) := by
  induction n generalizing pos with
  | zero => exact ⟨[], by simp [threaded]⟩
  | succ n ih =>
    obtain ⟨x, hx⟩ := hread 0 (by omega)
    rw [Nat.zero_mul, Nat.add_zero] at hx
    obtain ⟨xs, hxs⟩ := ih fun i hi => by
      have hnext := hread (i + 1) (by omega)
      rwa [Nat.succ_mul, Nat.add_comm (i * width), ← Nat.add_assoc] at hnext
    refine ⟨x :: xs, ?_⟩
    simp only [threaded, hx, Store.ok_bind, hxs]
    rw [Nat.succ_mul, Nat.add_comm (n * width), ← Nat.add_assoc]

/-- A nested list takes as many elements as its lengths describe, and has each of them at the path
of its indices. -/
theorem nest_ok (hn : ∀ n ∈ lengths, 0 ≤ n) (h : nest data lengths pos = .ok (x, next)) :
    next = pos + (elementTotal lengths).toNat ∧ ∀ indices, Inside lengths indices →
      ∃ v, data.get? (pos + (rowMajor lengths indices).toNat) = some v ∧
        x.at? indices = some (.leaf v) := by
  induction lengths generalizing pos next x with
  | nil =>
    simp only [nest] at h
    split at h
    · rename_i v hv
      cases h
      refine ⟨rfl, fun indices hin => ?_⟩
      cases hin
      exact ⟨v, hv, rfl⟩
    · cases h
  | cons n lengths ih =>
    have hrest : ∀ n ∈ lengths, 0 ≤ n := fun m hm => hn m (by simp [hm])
    have hn₀ : 0 ≤ n := hn n (by simp)
    have htotal := Store.elementTotal_nonneg hrest
    simp only [nest] at h
    generalize (if lengths.isEmpty then Lanes.elementBytes data.type else listBytes) = bytes at h
    split at h
    · cases h
    · obtain ⟨⟨xs, last⟩, hxs, h⟩ := Store.bind_eq_ok.mp h
      cases h
      obtain ⟨rfl, hlen, hall⟩ := threaded_ok (fun hread => ih hrest hread) hxs
      refine ⟨by rw [Store.elementTotal_cons, Int.toNat_mul hn₀ htotal], ?_⟩
      rintro _ (_ | ⟨hi, hinside⟩)
      rename_i i indices
      have hlt : i.toNat < xs.length := by omega
      obtain ⟨v, hv, hat⟩ := hall i.toNat xs[i.toNat] (List.getElem?_eq_getElem hlt) indices hinside
      have hrow := (Store.rowMajor_bounds hinside).1
      refine ⟨v, ?_, ?_⟩
      · rw [rowMajor, Int.toNat_add (Int.mul_nonneg hi.1 htotal) hrow, Int.toNat_mul hi.1 htotal,
          ← Nat.add_assoc]
        exact hv
      · rw [Nested.at?, if_neg (by omega), List.getElem?_eq_getElem hlt]
        exact hat

/-- Nesting elements that are there fails only for want of room. -/
theorem nest_cases (hn : ∀ n ∈ lengths, 0 ≤ n)
    (hfit : pos + (elementTotal lengths).toNat ≤ data.size) :
    (Nestable data.type lengths ∧
      ∃ x, nest data lengths pos = .ok (x, pos + (elementTotal lengths).toNat)) ∨
    (¬ Nestable data.type lengths ∧ nest data lengths pos = .error .oversized) := by
  induction lengths generalizing pos with
  | nil =>
    have hlt : pos < data.size := by
      rw [Store.elementTotal_nil] at hfit
      omega
    refine .inl ⟨trivial, ?_⟩
    cases hv : data.get? pos with
    | none =>
      have := Store.Lanes.get?_eq_none_iff.mp hv
      omega
    | some v => exact ⟨.leaf v, by simp [nest, hv]⟩
  | cons n lengths ih =>
    have hrest : ∀ n ∈ lengths, 0 ≤ n := fun m hm => hn m (by simp [hm])
    have hn₀ : 0 ≤ n := hn n (by simp)
    have htotal := Store.elementTotal_nonneg hrest
    rw [Store.elementTotal_cons, Int.toNat_mul hn₀ htotal] at hfit ⊢
    simp only [nest, Nestable]
    generalize (if lengths.isEmpty then Lanes.elementBytes data.type else listBytes) = bytes
    by_cases hroom : n * bytes ≤ greatestAllocation
    · rw [if_neg (by omega)]
      by_cases hdeep : 0 < n → Nestable data.type lengths
      · have hthreaded : ∃ xs, threaded (nest data lengths) n.toNat pos =
            .ok (xs, pos + n.toNat * (elementTotal lengths).toNat) := exists_threaded fun i hi => by
          have hle : (i + 1) * (elementTotal lengths).toNat ≤
              n.toNat * (elementTotal lengths).toNat := Nat.mul_le_mul_right _ hi
          rw [Nat.succ_mul] at hle
          have hpart : pos + i * (elementTotal lengths).toNat + (elementTotal lengths).toNat ≤
              data.size := by omega
          rcases ih hrest hpart with ⟨-, h⟩ | ⟨hno, -⟩
          · exact h
          · exact absurd (hdeep (by omega)) hno
        obtain ⟨xs, hxs⟩ := hthreaded
        exact .inl ⟨⟨hroom, hdeep⟩, .node xs, by simp [hxs]⟩
      · rw [Classical.not_imp] at hdeep
        obtain ⟨hpos, hno⟩ := hdeep
        have hone : 1 * (elementTotal lengths).toNat ≤ n.toNat * (elementTotal lengths).toNat :=
          Nat.mul_le_mul_right _ (by omega)
        have hpart : pos + (elementTotal lengths).toNat ≤ data.size := by omega
        refine .inr ⟨fun h => hno (h.2 hpos), ?_⟩
        -- the first part of the list is the one that fails
        rcases ih hrest hpart with ⟨h, -⟩ | ⟨-, herr⟩
        · exact absurd h hno
        · obtain ⟨k, hk⟩ : ∃ k, n.toNat = k + 1 := ⟨n.toNat - 1, by omega⟩
          simp only [hk, threaded, herr]
          rfl
    · rw [if_pos (by omega)]
      exact .inr ⟨fun h => hroom h.1, rfl⟩

/-- The value of an array has the elements of its buffer, or is too large to be made. -/
theorem ofContainer_cases {s : Store} {c : CellId} (hs : s.Formed) (hc : s.type c ≠ .void)
    (hn : ∀ n ∈ s.lengths c, 0 ≤ n) (htotal : elementTotal (s.lengths c) = s.size c) :
    (Nestable (s.type c) (s.lengths c) ∧ ∃ v, ofContainer s c = .ok (some v) ∧
      ∀ indices, Inside (s.lengths c) indices → ∃ x,
        (s.buffer? c).bind (·.get? (s.offset c + (rowMajor (s.lengths c) indices).toNat)) = some x ∧
          v.content.at? indices = some (.leaf x)) ∨
    (¬ Nestable (s.type c) (s.lengths c) ∧ ofContainer s c = .error .oversized) := by
  obtain ⟨_, data, -, -, hb, htype⟩ := Store.buffer_of_type hc
  have hfit := hs.sound.fits hb
  have hnonneg := Store.elementTotal_nonneg hn
  have hpart : s.offset c + (elementTotal (s.lengths c)).toNat ≤ data.size := by omega
  simp only [ofContainer, hb]
  rw [← htype]
  rcases nest_cases hn hpart with ⟨hnest, x, hx⟩ | ⟨hnest, herr⟩
  · refine .inl ⟨hnest, _, by rw [hx]; rfl, fun indices hin => ?_⟩
    obtain ⟨v, hv, hat⟩ := (nest_ok hn hx).2 indices hin
    exact ⟨v, hv, hat⟩
  · exact .inr ⟨hnest, by rw [herr]; rfl⟩

end Host

namespace Store

variable {s : Store} {a : CellId}

/-- In an array that has as many elements as its lengths describe, the indices inside the lengths
and the numbers below its size correspond one to one in row-major order.  Cells select an element
exactly if they show such indices, and the element is the one at this place of the buffer, the one
at the path of the indices in the value for the host, if this can be made, and the one that a view
of it shows.  A wrong number of indices is an error of rank; otherwise the first index that is not
right decides. -/
theorem row_major_order (hs : s.Formed) (ha : s.type a ≠ .void) (hn : ∀ n ∈ s.lengths a, 0 ≤ n)
    (htotal : elementTotal (s.lengths a) = s.size a) :
    Set.BijOn (rowMajor (s.lengths a)) {indices | Inside (s.lengths a) indices}
      {k | 0 ≤ k ∧ k < s.size a} ∧
    (∀ cs k, s.flatIndex a cs = .ok k ↔ ∃ indices, cs.mapM s.subscript? = some indices ∧
      Inside (s.lengths a) indices ∧ k = rowMajor (s.lengths a) indices) ∧
    (∀ indices, Inside (s.lengths a) indices → ∃ x,
      (s.buffer? a).bind (·.get? (s.offset a + (rowMajor (s.lengths a) indices).toNat)) = some x ∧
      (∀ v, Host.ofContainer s a = .ok (some v) → v.content.at? indices = some (.leaf x)) ∧
      ∀ c < s.cells.size, ∃ t, s.setElementView c a (rowMajor (s.lengths a) indices) = .ok t ∧
        t.shown? c 0 = some x) ∧
    ((∃ v, Host.ofContainer s a = .ok (some v)) ↔ Host.Nestable (s.type a) (s.lengths a)) ∧
    (∀ cs, cs.length ≠ s.rank a →
      ∃ cause, s.flatIndex a cs = .error (.data cause) ∧ cause.kind = .rankMismatch) ∧
    ∀ cs, cs.length = s.rank a → ∀ kind,
      (∃ cause, s.flatIndex a cs = .error (.data cause) ∧ cause.kind = kind) ↔
        s.firstOffense? (s.lengths a) cs = some kind := by
  have hwrap : ∀ {indices}, Inside (s.lengths a) indices →
      wrap (rowMajor (s.lengths a) indices) = rowMajor (s.lengths a) indices := by
    intro indices hin
    have hbound : elementTotal (s.lengths a) < 2 ^ 63 := by
      have hmod := Int.bmod_lt (x := elementTotal (s.lengths a)) (m := 2 ^ 64) (by decide)
      have hcount := hs.sound.size_eq ha
      rw [elementCount, wrap] at hcount
      have hpow : Nat.pow 2 64 = 2 ^ 64 := rfl
      rw [htotal, hcount, hpow]
      exact hmod
    exact (hs.wrap_rowMajor ha hbound hin).1
  refine ⟨htotal ▸ bijOn_rowMajor hn, fun cs k => ?_, fun indices hin => ?_, ?_, fun cs hlen => ?_,
    fun cs hlen kind => ?_⟩
  · rcases hs.flatIndex_cases a cs with ⟨hlen, cause, h, -⟩ | ⟨hlen, cause, h, hoffense⟩ |
      ⟨-, is, his, hinside, h⟩
    · refine iff_of_false (by simp [h]) ?_
      rintro ⟨is, his, hinside, -⟩
      exact hlen ((length_of_mapM his).trans hinside.length_eq.symm)
    · refine iff_of_false (by simp [h]) ?_
      rintro ⟨is, his, hinside, -⟩
      rw [(firstOffense?_eq_none_iff hlen).mpr ⟨is, his, hinside⟩] at hoffense
      cases hoffense
    · rw [h, hwrap hinside, Except.ok.injEq]
      refine ⟨fun hk => ⟨is, his, hinside, hk.symm⟩, ?_⟩
      rintro ⟨js, hjs, -, rfl⟩
      rw [his] at hjs
      cases hjs
      rfl
  · obtain ⟨hnonneg, hlt⟩ := rowMajor_bounds hin
    obtain ⟨_, data, -, -, hb, -⟩ := buffer_of_type ha
    have hfit := hs.sound.fits hb
    obtain ⟨x, hx⟩ : ∃ x, data.get? (s.offset a + (rowMajor (s.lengths a) indices).toNat) =
        some x := by
      refine Option.ne_none_iff_exists'.mp fun hnone => ?_
      have := Lanes.get?_eq_none_iff.mp hnone
      omega
    refine ⟨x, by rw [hb]; exact hx, fun v hv => ?_, fun c hc => ?_⟩
    · rcases Host.ofContainer_cases hs ha hn htotal with ⟨-, w, hw, hat⟩ | ⟨-, herr⟩
      · rw [hw] at hv
        cases hv
        obtain ⟨y, hy, haty⟩ := hat indices hin
        rw [hb, Option.bind_some, hx] at hy
        cases hy
        exact haty
      · rw [herr] at hv
        cases hv
    · obtain ⟨t, ht⟩ := hs.exists_view (c := c) (a := a) hnonneg (by omega)
      obtain ⟨-, -, -, hshown⟩ := hs.of_setElementView hc ht
      have hshows := hs.shown?_eq (i := (rowMajor (s.lengths a) indices).toNat) hb (by omega)
      exact ⟨t, ht, by rw [hshown, hshows, hx]⟩
  · rcases Host.ofContainer_cases hs ha hn htotal with ⟨hnest, v, hv, -⟩ | ⟨hnest, herr⟩
    · exact iff_of_true ⟨v, hv⟩ hnest
    · refine iff_of_false ?_ hnest
      rintro ⟨v, hv⟩
      rw [herr] at hv
      cases hv
  · rcases hs.flatIndex_cases a cs with ⟨-, h⟩ | ⟨h, -⟩ | ⟨h, -⟩
    · exact h
    · exact absurd h hlen
    · exact absurd h hlen
  · rcases hs.flatIndex_cases a cs with ⟨h, -⟩ | ⟨-, cause, h, hoffense⟩ |
      ⟨-, is, his, hinside, h⟩
    · exact absurd hlen h
    · rw [h, hoffense]
      simp
    · rw [h, (firstOffense?_eq_none_iff hlen).mpr ⟨is, his, hinside⟩]
      simp

/-- A table of two rows of three numbers, and the two indices of its last number. -/
def tableWithIndices : Store :=
  let s := (({} : Store).fresh.2.renew 0 (.ints #[10, 11, 12, 20, 21, 22]) [2, 3])
  ((s.ofScalar (.int 1)).2.ofScalar (.int 2)).2

theorem row_major_order_table : tableWithIndices.Formed ∧ tableWithIndices.type 0 ≠ .void ∧
    (∀ n ∈ tableWithIndices.lengths 0, 0 ≤ n) ∧
    elementTotal (tableWithIndices.lengths 0) = tableWithIndices.size 0 ∧
    tableWithIndices.flatIndex 0 [1, 2] = .ok 5 ∧
    (∃ v, Host.ofContainer tableWithIndices 0 = .ok (some v) ∧
      v.content.at? [1, 2] = some (.leaf (.int 22))) ∧
    (∃ cause, tableWithIndices.flatIndex 0 [2] = .error (.data cause) ∧
      cause.kind = .rankMismatch) ∧
    ∃ cause, tableWithIndices.flatIndex 0 [2, 0] = .error (.data cause) ∧
      cause.kind = .indexOutOfRange := by
  have hformed : tableWithIndices.Formed := by
    have hempty : Formed ({} : Store) := ⟨sound_empty, fun c => by simpa [cell] using sized_empty⟩
    have htable : Alters forming ({} : Store)
        (({} : Store).fresh.2.renew 0 (.ints #[10, 11, 12, 20, 21, 22]) [2, 3]) :=
      .tail (.single .fresh) (.renew trivial (by decide) (by decide))
    have hone := htable.trans (Alters.ofScalar trivial (.int 1))
    exact Alters.formed (hone.trans (Alters.ofScalar trivial (.int 2))) hempty
  have hvoid : tableWithIndices.type 0 ≠ .void := by decide +kernel
  have htype : tableWithIndices.type 0 = .int := by decide +kernel
  have hlengths : tableWithIndices.lengths 0 = [2, 3] := by decide +kernel
  have hn : ∀ n ∈ tableWithIndices.lengths 0, 0 ≤ n := by
    rw [hlengths]
    decide
  have htotal : elementTotal (tableWithIndices.lengths 0) = tableWithIndices.size 0 := by
    decide +kernel
  obtain ⟨-, hflat, helement, hvalue, hrank, hoffense⟩ := row_major_order hformed hvoid hn htotal
  have hin : Inside (tableWithIndices.lengths 0) [1, 2] := by
    rw [hlengths]
    decide
  obtain ⟨x, hx, hat, -⟩ := helement [1, 2] hin
  obtain ⟨v, hv⟩ := hvalue.mpr (by
    rw [htype, hlengths]
    simp [Host.Nestable, Lanes.elementBytes, Host.listBytes, greatestAllocation])
  refine ⟨hformed, hvoid, hn, htotal,
    (hflat [1, 2] 5).mpr ⟨[1, 2], by decide +kernel, hin, by decide +kernel⟩, ⟨v, hv, ?_⟩,
    hrank [2] (by decide +kernel),
    (hoffense [2, 0] (by decide +kernel) .indexOutOfRange).mpr (by decide +kernel)⟩
  have hlast : x = .int 22 := by
    have hfound : (tableWithIndices.buffer? 0).bind (·.get? (tableWithIndices.offset 0 +
        (rowMajor (tableWithIndices.lengths 0) [1, 2]).toNat)) = some (.int 22) := rfl
    exact Option.some.inj (hx.symm.trans hfound)
  rw [← hlast]
  exact hat v hv

end Store

end VectorMachine
