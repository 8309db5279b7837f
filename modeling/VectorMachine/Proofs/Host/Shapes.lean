import VectorMachine.Host.Conversion
import VectorMachine.Proofs.Store.Nesting

/-!
# Shapes of host values

A host value is rectangular if all its lists at one depth have one length.  Its lengths are taken from
the first elements only; if it is rectangular, they are the lengths of all its lists, except that below
an empty list nothing shows a length.
-/

namespace VectorMachine
set_option autoImplicit false

namespace Nested

/-- A value that is nested to a depth and has elements of one type. -/
def Of (ty : DataType) : Nat → Nested → Prop
  | 0, .leaf x => x.type = ty
  | d + 1, .node xs => ∀ x ∈ xs, Of ty d x
  | _, _ => False

/-- The elements at a depth in row-major order. -/
def elements : Nat → Nested → List Scalar
  | 0, .leaf x => [x]
  | d + 1, .node xs => xs.flatMap (elements d)
  | _, _ => []

/-- Every list has the length that its depth demands. -/
def Fits : List Nat → Nested → Prop
  | [], .leaf _ => True
  | n :: lengths, .node xs => xs.length = n ∧ ∀ x ∈ xs, Fits lengths x
  | _, _ => False

/-- All lists at one depth have one length. -/
def Rectangular (v : Nested) : Prop := ∃ lengths, v.Fits lengths

end Nested

namespace Host

open Nested (Fits Of elements)
open Store (elementTotal)

/-- The number of elements of a value that fits lengths. -/
def places (lengths : List Nat) : Nat := lengths.foldr (· * ·) 1

/-- The lengths that a value shows: zero below the first dimension without places. -/
def settled : List Int → List Int
  | [] => []
  | n :: lengths => if n = 0 then 0 :: lengths.map fun _ => 0 else n :: settled lengths

variable {lengths : List Nat} {v w : Nested} {ty : DataType} {d : Nat} {data : Lanes}
  {xs : List Scalar} {pos next n : Nat}

theorem elementTotal_ofNat (lengths : List Nat) :
    elementTotal (lengths.map Int.ofNat) = places lengths := by
  induction lengths with
  | nil => rfl
  | cons n lengths ih =>
    rw [List.map_cons, Store.elementTotal_cons, ih]
    exact (Int.natCast_mul n (places lengths)).symm

theorem elementTotal_settled (lengths : List Int) :
    elementTotal (settled lengths) = elementTotal lengths := by
  induction lengths with
  | nil => rfl
  | cons n lengths ih =>
    simp only [settled]
    split
    · rename_i hn
      simp [hn]
    · rw [Store.elementTotal_cons, Store.elementTotal_cons, ih]

/-! ### The elements of a value -/

theorem length_elements (h : v.Fits lengths) :
    (elements lengths.length v).length = places lengths := by
  induction lengths generalizing v with
  | nil =>
    cases v with
    | leaf x => rfl
    | node xs => exact h.elim
  | cons n lengths ih =>
    cases v with
    | leaf x => exact h.elim
    | node xs =>
      obtain ⟨hlen, hall⟩ := h
      have hsum : xs.map (fun x => (elements lengths.length x).length) =
          xs.map fun _ => places lengths := List.map_congr_left fun x hx => ih (hall x hx)
      simp [elements, List.length_flatMap, hsum, hlen, places]

theorem type_elements (h : v.Of ty d) : ∀ x ∈ elements d v, x.type = ty := by
  induction d generalizing v with
  | zero =>
    cases v with
    | leaf x =>
      have hx : x.type = ty := h
      simpa [elements] using hx
    | node xs => exact h.elim
  | succ d ih =>
    cases v with
    | leaf x => exact h.elim
    | node xs =>
      intro x hx
      obtain ⟨y, hy, hxy⟩ := List.mem_flatMap.mp hx
      exact ih (h y hy) x hxy

/-- Lists of equally long pieces are told apart by what the pieces make up together. -/
theorem flatMap_inj {α β : Type} {f : α → List β} {k : Nat} {xs ys : List α}
    (hinj : ∀ x ∈ xs, ∀ y ∈ ys, f x = f y → x = y) (hx : ∀ x ∈ xs, (f x).length = k)
    (hy : ∀ y ∈ ys, (f y).length = k) (hlen : xs.length = ys.length)
    (h : xs.flatMap f = ys.flatMap f) : xs = ys := by
  induction xs generalizing ys with
  | nil => exact (List.length_eq_zero_iff.mp hlen.symm).symm
  | cons x xs ih =>
    obtain _ | ⟨y, ys⟩ := ys
    · cases hlen
    · rw [List.flatMap_cons, List.flatMap_cons] at h
      obtain ⟨hfirst, hrest⟩ := List.append_inj h ((hx x (by simp)).trans (hy y (by simp)).symm)
      rw [hinj x (by simp) y (by simp) hfirst,
        ih (fun x hx y hy => hinj x (by simp [hx]) y (by simp [hy])) (fun x h => hx x (by simp [h]))
          (fun y h => hy y (by simp [h])) (by simpa using hlen) hrest]

theorem eq_of_elements (hv : v.Fits lengths) (hw : w.Fits lengths)
    (h : elements lengths.length v = elements lengths.length w) : v = w := by
  induction lengths generalizing v w with
  | nil =>
    cases v <;> cases w
    · simpa [elements] using h
    · exact hw.elim
    · exact hv.elim
    · exact hv.elim
  | cons n lengths ih =>
    cases v <;> cases w
    · exact hv.elim
    · exact hv.elim
    · exact hw.elim
    · obtain ⟨hlen, hxs⟩ := hv
      obtain ⟨hlen', hys⟩ := hw
      exact congrArg Nested.node (flatMap_inj (fun x hx y hy => ih (hxs x hx) (hys y hy))
        (fun x hx => length_elements (hxs x hx)) (fun y hy => length_elements (hys y hy))
        (hlen.trans hlen'.symm) h)

/-! ### The lengths along the first elements -/

/-- The first elements of one value show the lengths of every other that is alike. -/
theorem fits_firstLengths (hv : v.Fits lengths) (hw : w.Fits lengths) (hvd : v.Of ty d)
    (hwd : w.Of ty d) : w.Fits (firstLengths d v) := by
  induction d generalizing v w lengths with
  | zero =>
    cases w with
    | leaf x => trivial
    | node ys => exact hwd.elim
  | succ d ih =>
    obtain x | xs := v
    · exact hvd.elim
    obtain y | ys := w
    · exact hwd.elim
    obtain _ | ⟨n, lengths⟩ := lengths
    · exact hv.elim
    obtain ⟨hlen, hxs⟩ := hv
    obtain ⟨hlen', hys⟩ := hw
    cases xs with
    | nil =>
      obtain rfl : ys = [] := List.length_eq_zero_iff.mp (hlen'.trans hlen.symm)
      exact ⟨rfl, by simp⟩
    | cons x xs =>
      refine ⟨by rw [hlen', ← hlen]; rfl, fun y hy => ?_⟩
      exact ih (hxs x (by simp)) (hys y hy) (hvd x (by simp)) (hwd y hy)

theorem rectangular_iff (h : v.Of ty d) : v.Rectangular ↔ v.Fits (firstLengths d v) :=
  ⟨fun ⟨_, hv⟩ => fits_firstLengths hv hv h h, fun hv => ⟨_, hv⟩⟩

theorem length_firstLengths (d : Nat) (v : Nested) : (firstLengths d v).length = d := by
  induction d generalizing v with
  | zero => rfl
  | succ d ih =>
    rcases v with x | (_ | ⟨x, xs⟩)
    · simp [firstLengths]
    · simp [firstLengths]
    · simp [firstLengths, ih]

theorem firstLengths_eq (h : v.Fits lengths) :
    (firstLengths lengths.length v).map Int.ofNat = settled (lengths.map Int.ofNat) := by
  induction lengths generalizing v with
  | nil => rfl
  | cons n lengths ih =>
    obtain x | xs := v
    · exact h.elim
    · obtain ⟨rfl, hall⟩ := h
      cases xs with
      | nil => simp [firstLengths, settled, Function.comp_def]
      | cons x xs =>
        have hne : Int.ofNat (xs.length + 1) ≠ 0 := by simp; omega
        simp only [List.length_cons, firstLengths, List.map_cons, settled, hne, if_false,
          ih (hall x (by simp))]

/-! ### Walking over a value -/

theorem followedBy_of_none {ε : Type} {walks : List (List Scalar × Option ε)}
    (h : ∀ a ∈ walks, a.2 = none) :
    walks.foldr followedBy ([], none) = (walks.flatMap (·.1), none) := by
  induction walks with
  | nil => rfl
  | cons a walks ih =>
    obtain ⟨xs, stop⟩ := a
    obtain rfl : stop = none := h (xs, stop) (by simp)
    simp [ih fun b hb => h b (by simp [hb]), followedBy]

theorem followedBy_of_some {ε : Type} {walks : List (List Scalar × Option ε)}
    (h : ∃ a ∈ walks, a.2 ≠ none) : (walks.foldr followedBy ([], none)).2 ≠ none := by
  induction walks with
  | nil => simp at h
  | cons a walks ih =>
    obtain ⟨xs, _ | e⟩ := a
    · obtain ⟨b, hb, hstop⟩ := h
      rcases List.mem_cons.mp hb with rfl | hb
      · exact absurd rfl hstop
      · exact ih ⟨b, hb, hstop⟩
    · simp [followedBy]

theorem length_followedBy_le {ε : Type} {walks : List (List Scalar × Option ε)} {k : Nat}
    (h : ∀ a ∈ walks, a.1.length ≤ k) :
    (walks.foldr followedBy ([], none)).1.length ≤ walks.length * k := by
  induction walks with
  | nil => simp
  | cons a walks ih =>
    have hfirst := h a (by simp)
    have hrest := ih fun b hb => h b (by simp [hb])
    rw [List.length_cons, Nat.succ_mul]
    obtain ⟨xs, _ | e⟩ := a
    · simp only [List.foldr_cons, followedBy, List.length_append]
      simp only at hfirst
      omega
    · simp only [List.foldr_cons, followedBy]
      simp only at hfirst
      omega

/-- A walk over a value that fits the lengths takes all its elements. -/
theorem flatten_of_fits (h : v.Fits lengths) :
    flatten lengths v = (elements lengths.length v, none) := by
  induction lengths generalizing v with
  | nil =>
    cases v with
    | leaf x => rfl
    | node xs => exact h.elim
  | cons n lengths ih =>
    cases v with
    | leaf x => exact h.elim
    | node xs =>
      obtain ⟨hlen, hall⟩ := h
      have hwalks : xs.map (flatten lengths) = xs.map fun x => (elements lengths.length x, none) :=
        List.map_congr_left fun x hx => ih (hall x hx)
      rw [flatten, if_neg (by simp [hlen]), hwalks, followedBy_of_none (by simp)]
      simp [elements, List.flatMap_map]

/-- A walk over a value that does not fit the lengths stops. -/
theorem flatten_of_not_fits (hd : v.Of ty lengths.length) (h : ¬ v.Fits lengths) :
    (flatten lengths v).2 ≠ none := by
  induction lengths generalizing v with
  | nil =>
    cases v with
    | leaf x => exact absurd trivial h
    | node xs => exact hd.elim
  | cons n lengths ih =>
    cases v with
    | leaf x => exact hd.elim
    | node xs =>
      rw [flatten]
      split
      · simp
      · rename_i hlen
        have hall : ¬ ∀ x ∈ xs, x.Fits lengths := fun hall => h ⟨Decidable.not_not.mp hlen, hall⟩
        simp only [not_forall] at hall
        obtain ⟨x, hx, hno⟩ := hall
        exact followedBy_of_some ⟨_, List.mem_map_of_mem hx, ih (hd x hx) hno⟩

/-- A walk never takes more elements than the lengths have places. -/
theorem length_flatten_le (lengths : List Nat) (v : Nested) :
    (flatten lengths v).1.length ≤ places lengths := by
  induction lengths generalizing v with
  | nil => cases v <;> simp [flatten, places]
  | cons n lengths ih =>
    cases v with
    | leaf x => simp [flatten]
    | node xs =>
      rw [flatten]
      split
      · simp
      · rename_i hlen
        obtain rfl := Decidable.not_not.mp hlen
        have hwalks : ∀ a ∈ xs.map (flatten lengths), a.1.length ≤ places lengths := by
          simpa using fun x _ => ih x
        simpa [places] using length_followedBy_le hwalks

/-! ### The value of a buffer -/

theorem toList_get? (data : Lanes) (i : Nat) : data.toList[i]? = data.get? i := by
  cases data <;> simp [Lanes.toList, Lanes.get?]

theorem length_toList (data : Lanes) : data.toList.length = data.size := by
  cases data <;> simp [Lanes.toList, Lanes.size]

theorem toList_extract (data : Lanes) (lo k : Nat) :
    (data.extract lo k).toList = (data.toList.drop lo).take k := by
  cases data <;> simp [Lanes.toList, Lanes.extract, List.map_take, List.map_drop]

/-- Pieces of one width that are read one after another make up one stretch. -/
theorem flatMap_of_threaded {read : Nat → Except Abort (Nested × Nat)} {f : Nested → List Scalar}
    {width : Nat} {vs : List Nested} {elems : List Scalar}
    (hread : ∀ {pos v next}, read pos = .ok (v, next) →
      next = pos + width ∧ f v = (elems.drop pos).take width)
    (h : threaded read n pos = .ok (vs, next)) :
    vs.flatMap f = (elems.drop pos).take (n * width) := by
  induction n generalizing pos vs with
  | zero =>
    cases h
    simp
  | succ n ih =>
    simp only [threaded] at h
    obtain ⟨⟨v, mid⟩, hv, h⟩ := Store.bind_eq_ok.mp h
    obtain ⟨⟨us, last⟩, hus, h⟩ := Store.bind_eq_ok.mp h
    cases h
    obtain ⟨rfl, hfirst⟩ := hread hv
    rw [List.flatMap_cons, hfirst, ih hus, Nat.succ_mul, Nat.add_comm (n * width), List.take_add,
      List.drop_drop]

/-- Nesting gives a value that fits the lengths and has the elements of its stretch. -/
theorem nest_fits (h : nest data (lengths.map Int.ofNat) pos = .ok (v, next)) :
    v.Fits lengths ∧ v.Of data.type lengths.length ∧ next = pos + places lengths ∧
      elements lengths.length v = (data.toList.drop pos).take (places lengths) := by
  induction lengths generalizing pos v next with
  | nil =>
    simp only [List.map_nil, nest] at h
    split at h
    · rename_i x hx
      cases h
      refine ⟨trivial, Store.Lanes.type_of_get? hx, rfl, ?_⟩
      rw [← toList_get?] at hx
      obtain ⟨hlt, hx⟩ := List.getElem?_eq_some_iff.mp hx
      rw [List.drop_eq_getElem_cons hlt, hx]
      rfl
    · cases h
  | cons n lengths ih =>
    simp only [List.map_cons, nest] at h
    generalize (if (lengths.map Int.ofNat).isEmpty then Lanes.elementBytes data.type
      else listBytes) = bytes at h
    split at h
    · cases h
    · obtain ⟨⟨us, last⟩, hus, h⟩ := Store.bind_eq_ok.mp h
      cases h
      obtain ⟨hlast, hlen, hall⟩ := threaded_ok (P := fun _ v => v.Fits lengths ∧
        v.Of data.type lengths.length) (fun hread => ⟨(ih hread).2.2.1, (ih hread).1,
          (ih hread).2.1⟩) hus
      have hmem : ∀ u ∈ us, u.Fits lengths ∧ u.Of data.type lengths.length := by
        intro u hu
        obtain ⟨i, hi⟩ := List.mem_iff_getElem?.mp hu
        exact hall i u hi
      exact ⟨⟨hlen, fun u hu => (hmem u hu).1⟩, fun u hu => (hmem u hu).2, hlast,
        flatMap_of_threaded (fun hread => (ih hread).2.2) hus⟩

theorem nest_of_fits (hv : v.Fits lengths) (hn : Nestable data.type (lengths.map Int.ofNat))
    (hdata : data.toList = elements lengths.length v) :
    nest data (lengths.map Int.ofNat) 0 = .ok (v, places lengths) := by
  have hnonneg : ∀ n ∈ lengths.map Int.ofNat, 0 ≤ n := by simp
  have hsize : data.size = places lengths := by
    rw [← length_toList, hdata, length_elements hv]
  have hfit : 0 + (elementTotal (lengths.map Int.ofNat)).toNat ≤ data.size := by
    rw [elementTotal_ofNat, Int.toNat_natCast]
    omega
  rcases nest_cases hnonneg hfit with ⟨-, u, hu⟩ | ⟨hno, -⟩
  · obtain ⟨hfits, -, hnext, helements⟩ := nest_fits hu
    have hall : (data.toList.drop 0).take (places lengths) = data.toList :=
      List.take_of_length_le (by rw [List.drop_zero, length_toList]; omega)
    obtain rfl := eq_of_elements hfits hv (helements.trans (hall.trans hdata))
    rw [hu, hnext, Nat.zero_add]
  · exact absurd hn hno

end Host

end VectorMachine
