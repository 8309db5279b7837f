import VectorMachine.Proofs.Host.Shapes
import VectorMachine.Proofs.Machine.Allocation

/-!
# Containers and host values

A rectangular host value becomes a container that gives the same value back, with its elements
widened, and a container that has been made from the value of another one shows the same elements.  A
value that is not rectangular is refused, provided that a buffer can be made for the lengths along its
first elements.  Where it cannot, or where these lengths describe more elements than 64 bits count, no
error is given.
-/

namespace VectorMachine.Host
set_option autoImplicit false

open Nested (Fits Of elements Rectangular)
open Store (elementTotal Formed)

variable {s t : Store} {c : CellId} {lengths : List Nat} {v : Nested} {ty : DataType} {d : Nat}
  {data : Lanes} {k : Kind}

/-! ### Elements -/

/-- The number that an element of an integer kind is. -/
def Kind.number? : (k : Kind) → k.Element → Option Int
  | .int, v | .int64, v => some v.toInt
  | .int8, v => some v.toInt
  | .int16, v => some v.toInt
  | .int32, v => some v.toInt
  | .uint, v => some v.toNat
  | .uint8, v => some v.toNat
  | .uint16, v => some v.toNat
  | .uint32, v => some v.toNat
  | .float32, _ | .float64, _ | .bool, _ | .string, _ | .uint64, _ | .record, _ | .complex, _ => none

theorem toInt_toInt64 (v : UInt64) : v.toInt64.toInt = wrap v.toNat := by
  have hpow : Nat.pow 2 64 = 2 ^ 64 := rfl
  rw [wrap, hpow, ← Int64.toInt_toBitVec, UInt64.toBitVec_toInt64, BitVec.toInt_eq_toNat_bmod]
  rfl

theorem wrap_toInt (v : Int64) : wrap v.toInt = v.toInt := by
  have hpow : Nat.pow 2 64 = 2 ^ 64 := rfl
  rw [wrap, hpow]
  exact Int64.toInt_bmod v

/-- A number with a sign is extended, and one without is taken as 64 bits. -/
theorem widen_cases {e : k.Element} {i : Int} (h : k.number? e = some i) :
    (∃ v : Int64, k.widen e = .int v ∧ v.toInt = i) ∨
      ∃ v : UInt64, k.widen e = .int v.toInt64 ∧ (v.toNat : Int) = i := by
  cases k <;> cases h
  case int => exact .inl ⟨e, rfl, rfl⟩
  case int64 => exact .inl ⟨e, rfl, rfl⟩
  case int8 => exact .inl ⟨_, rfl, Int8.toInt_toInt64 e⟩
  case int16 => exact .inl ⟨_, rfl, Int16.toInt_toInt64 e⟩
  case int32 => exact .inl ⟨_, rfl, Int32.toInt_toInt64 e⟩
  case uint => exact .inr ⟨e, rfl, rfl⟩
  case uint8 => exact .inr ⟨_, rfl, congrArg Int.ofNat (UInt8.toNat_toUInt64 e)⟩
  case uint16 => exact .inr ⟨_, rfl, congrArg Int.ofNat (UInt16.toNat_toUInt64 e)⟩
  case uint32 => exact .inr ⟨_, rfl, congrArg Int.ofNat (UInt32.toNat_toUInt64 e)⟩

theorem widen_number {e : k.Element} {i : Int} (h : k.number? e = some i) :
    ∃ v : Int64, k.widen e = .int v ∧ v.toInt = wrap i ∧ (i < 2 ^ 63 → v.toInt = i) := by
  rcases widen_cases h with ⟨v, hv, rfl⟩ | ⟨v, hv, rfl⟩
  · exact ⟨v, hv, (wrap_toInt v).symm, fun _ => rfl⟩
  · refine ⟨v.toInt64, hv, toInt_toInt64 v, fun hlt => ?_⟩
    rw [toInt_toInt64, wrap_of_lt (Int.natCast_nonneg _) hlt]

theorem type_widen (h : k.type? = some ty) (e : k.Element) : (k.widen e).type = ty := by
  cases k <;> cases h <;> rfl

theorem isConcrete_of_kind (h : k.type? = some ty) : ty.isConcrete = true := by
  cases k <;> cases h <;> rfl

theorem type?_kindOf (h : ty.isConcrete = true) : (kindOf ty).type? = some ty := by
  cases ty <;> first | rfl | cases h

theorem of_widen (h : k.type? = some ty) (x : Items k d) : x.widen.Of ty d := by
  induction d with
  | zero => exact type_widen h x
  | succ d ih =>
    intro v hv
    obtain ⟨y, -, rfl⟩ := List.mem_map.mp hv
    exact ih y

theorem filterMap_eq_self {α β : Type} {f : α → Option β} {g : β → α} {xs : List α}
    (h : ∀ x ∈ xs, ∃ y, f x = some y ∧ g y = x) : (xs.filterMap f).map g = xs := by
  induction xs with
  | nil => rfl
  | cons x xs ih =>
    obtain ⟨y, hy, hx⟩ := h x (by simp)
    rw [List.filterMap_cons_some hy, List.map_cons, hx, ih fun z hz => h z (by simp [hz])]

theorem lanesOf_of_type {xs : List Scalar} (hty : ty.isConcrete = true)
    (hxs : ∀ x ∈ xs, x.type = ty) :
    (lanesOf ty xs).type = ty ∧ (lanesOf ty xs).toList = xs := by
  constructor
  · cases ty <;> first | rfl | cases hty
  cases ty <;> try cases hty
  all_goals
    refine filterMap_eq_self fun x hx => ?_
    have hx := hxs x hx
    cases x <;> cases hx
    exact ⟨_, rfl, rfl⟩

theorem lanesOf_toList (data : Lanes) : lanesOf data.type data.toList = data := by
  cases data <;> simp [lanesOf, Lanes.type, Lanes.toList, List.filterMap_map]

/-! ### Making a container -/

theorem elementCount_of_isAllocatable (hty : ty.isConcrete = true)
    (h : Store.isAllocatable ty (elementTotal (lengths.map Int.ofNat)) = true) :
    elementCount (lengths.map Int.ofNat) = places lengths := by
  rw [elementTotal_ofNat] at h
  simp only [Store.isAllocatable, Bool.and_eq_true, decide_eq_true_eq] at h
  have hbytes : (1 : Int) ≤ Lanes.elementBytes ty := by
    cases ty <;> first | decide | cases hty
  have hroom : greatestAllocation < 2 ^ 63 := by decide
  have hone := Int.mul_le_mul_of_nonneg_left hbytes h.1
  have hcount : elementCount (lengths.map Int.ofNat) =
      wrap (elementTotal (lengths.map Int.ofNat)) := rfl
  rw [hcount, elementTotal_ofNat, wrap_of_lt h.1 (by omega)]

/-- With room for the lengths along the first elements, exactly the rectangular values become
containers, and any other one is refused. -/
theorem toContainer_cases (hs : s.Sound) (hk : k.type? = some ty) (hv : v.Of ty d)
    (hroom : Store.isAllocatable ty (elementTotal ((firstLengths d v).map Int.ofNat)) = true) :
    (v.Rectangular ∧ ∃ t, toContainer s k d v = .ok (.ok (s.cells.size, t)) ∧
      s.fresh.2.Puts s.cells.size ((firstLengths d v).map Int.ofNat) (lanesOf ty (elements d v)) t) ∨
    (¬ v.Rectangular ∧ ∃ n m, toContainer s k d v = .error (.ragged (typeName k d) n m)) := by
  have hty := isConcrete_of_kind hk
  have hcount := elementCount_of_isAllocatable hty hroom
  have hle := length_flatten_le (firstLengths d v) v
  have hd := length_firstLengths d v
  rw [elementTotal_ofNat] at hroom
  by_cases hrect : v.Rectangular
  · have hfits := (rectangular_iff hv).mp hrect
    have hflat := flatten_of_fits hfits
    have hlen := length_elements hfits
    rw [hd] at hflat hlen
    have hlanes := lanesOf_of_type hty (type_elements hv)
    have hsize : elementCount ((firstLengths d v).map Int.ofNat) ≤
        (lanesOf ty (elements d v)).size := by
      rw [hcount, ← length_toList, hlanes.2, hlen]
    have hset := Store.setData_eq_ok_iff.mpr
      ⟨hsize, (rfl : s.fresh.2.renew s.cells.size _ _ = _)⟩
    refine .inl ⟨hrect, _, ?_, Store.puts_renew ((Store.Touches.fresh Store.region_new).sound hs)
      (Store.isolated_fresh hs) hsize⟩
    simp only [toContainer, hk, hcount, hroom, hflat, hlen]
    simp [hset, Except.map]
  · have hstop := flatten_of_not_fits (hd.symm ▸ hv) fun hfits =>
      hrect ((rectangular_iff hv).mpr hfits)
    obtain ⟨⟨n, m⟩, hnm⟩ := Option.ne_none_iff_exists'.mp hstop
    refine .inr ⟨hrect, n, m, ?_⟩
    have hover : ¬ (places (firstLengths d v) : Int) < (flatten (firstLengths d v) v).1.length := by
      omega
    simp only [toContainer, hk, hcount, hroom, hnm]
    simp [hover]

end VectorMachine.Host

namespace VectorMachine

open Host (Nestable places settled firstLengths typeName ofContainer kindOf Kind Items)
open Store (elementTotal Formed)

variable {s t : Store} {c : CellId} {lengths : List Int} {data : Lanes}

theorem Store.Puts.shows (h : s.Puts c lengths data t) : t.buffer? c = some data ∧
    t.lengths c = lengths ∧ t.offset c = 0 ∧ t.size c = elementCount lengths := by
  obtain ⟨b, hcell, hb⟩ := h.cell_eq
  have hroot : t.root c = c := Store.root_eq_self h.isolated.target_eq
  simp [Store.buffer?, Store.lengths, Store.offset, Store.size, Store.lanes?, Store.rootCell, hroot,
    hcell, hb]

/-- What a container takes is what it gives to its host. -/
theorem Store.Puts.ofContainer_eq {ns : List Nat} {d : Nat} {v : Nested}
    (h : s.Puts c (ns.map Int.ofNat) data t) (hv : v.Fits ns) (hd : ns.length = d)
    (hdata : data.toList = Nested.elements d v)
    (hn : Nestable data.type (ns.map Int.ofNat)) :
    ofContainer t c = .ok (some ⟨data.type, d, v⟩) := by
  subst hd
  obtain ⟨hbuffer, hlengths, hoffset, -⟩ := h.shows
  simp only [ofContainer, hbuffer, hlengths, hoffset, Host.nest_of_fits hv hn hdata, Store.rank]
  simp [bind, Except.bind]

theorem Store.Puts.window_eq (h : s.Puts c lengths data t)
    (hsize : elementCount lengths = data.size) : t.window c = .ok data := by
  obtain ⟨hbuffer, -, hoffset, hcount⟩ := h.shows
  have hall : data.extract 0 data.size = data := by
    rw [← Host.lanesOf_toList (data.extract 0 data.size), Lanes.type_extract, Host.toList_extract,
      List.drop_zero, List.take_of_length_le (Nat.le_of_eq (Host.length_toList data)),
      Host.lanesOf_toList]
  have hoff : (t.rootCell c).offset = 0 := hoffset
  have hcell : (t.rootCell c).size = data.size := hcount.trans hsize
  simp [Store.window, hbuffer, hoff, hcell, hall]

namespace Host

/-- The lengths that the first elements of a value show. -/
def Items.shape {k : Kind} {d : Nat} (x : Items k d) : List Int :=
  (firstLengths d x.widen).map Int.ofNat

theorem exists_nat_lengths (hn : ∀ n ∈ lengths, 0 ≤ n) : ∃ ns : List Nat, lengths = ns.map Int.ofNat := by
  refine ⟨lengths.map Int.toNat, ?_⟩
  have hback : ∀ n ∈ lengths, (Int.ofNat ∘ Int.toNat) n = id n :=
    fun n h => Int.toNat_of_nonneg (hn n h)
  rw [List.map_map, List.map_congr_left hback, List.map_id]

/-- Elements with room for some lengths are nested along these. -/
theorem exists_nest {ns : List Nat} {o : Nat} (hroom : o + places ns ≤ data.size)
    (hnest : Nestable data.type (ns.map Int.ofNat)) :
    ∃ x, nest data (ns.map Int.ofNat) o = .ok (x, o + places ns) := by
  have hnonneg : ∀ n ∈ ns.map Int.ofNat, 0 ≤ n := by simp
  have hpart : o + (elementTotal (ns.map Int.ofNat)).toNat ≤ data.size := by
    rw [elementTotal_ofNat]
    exact hroom
  rcases nest_cases hnonneg hpart with ⟨-, x, hx⟩ | ⟨hno, -⟩
  · exact ⟨x, by rw [hx, elementTotal_ofNat, Int.toNat_natCast]⟩
  · exact absurd hnest hno

theorem window_eq_extract {n : Nat} (hb : s.buffer? c = some data) (hsize : (n : Int) = s.size c)
    (hfit : s.offset c + n ≤ data.size) : s.window c = .ok (data.extract (s.offset c) n) := by
  have hcell : (s.rootCell c).size = n := hsize.symm
  have hoff : (s.rootCell c).offset = s.offset c := rfl
  rw [Store.window, hb]
  simp only [hcell, hoff, Int.toNat_natCast]
  rw [if_neg (by omega)]

/-- A container made from the value of another one shows what that one shows. -/
theorem toContainer_ofContainer (hs : s.Formed) (hc : s.type c ≠ .void)
    (hn : ∀ n ∈ s.lengths c, 0 ≤ n) (htotal : elementTotal (s.lengths c) = s.size c)
    (hroom : Store.isAllocatable (s.type c) (s.size c) = true)
    (hnest : Nestable (s.type c) (s.lengths c)) :
    ∃ v c' t, ofContainer s c = .ok (some v) ∧
      toContainer s (kindOf v.type) v.depth v.content = .ok (.ok (c', t)) ∧
      t.Isolated c' ∧ t.type c' = s.type c ∧ t.lengths c' = settled (s.lengths c) ∧
      ∃ xs, s.window c = .ok xs ∧ t.window c' = .ok xs := by
  obtain ⟨_, data, -, -, hb, htype⟩ := Store.buffer_of_type hc
  obtain ⟨ns, hns⟩ := exists_nat_lengths hn
  have hplaces : (places ns : Int) = s.size c := by
    rw [← elementTotal_ofNat, ← hns, htotal]
  have hfit : s.offset c + places ns ≤ data.size := by
    have := hs.sound.fits hb
    omega
  obtain ⟨x, hx⟩ := exists_nest hfit (hns ▸ htype ▸ hnest)
  obtain ⟨hfits, hof, -, helements⟩ := nest_fits hx
  have hlengths := firstLengths_eq hfits
  have hkind := type?_kindOf (Lanes.isConcrete_type data)
  have hbuffer : Store.isAllocatable data.type
      (elementTotal ((firstLengths ns.length x).map Int.ofNat)) = true := by
    rw [hlengths, elementTotal_settled, elementTotal_ofNat, hplaces, htype]
    exact hroom
  have hvalue : ofContainer s c = .ok (some ⟨data.type, ns.length, x⟩) := by
    simp only [ofContainer, hb, hns, hx, Store.rank]
    simp [bind, Except.bind]
  rcases toContainer_cases hs.sound hkind hof hbuffer with ⟨-, t, ht, hputs⟩ | ⟨hno, -⟩
  · have hdata : lanesOf data.type (Nested.elements ns.length x) =
        data.extract (s.offset c) (places ns) := by
      rw [helements, ← toList_extract, ← Lanes.type_extract (s.offset c) (places ns) data,
        lanesOf_toList]
    rw [hdata, hlengths, ← hns] at hputs
    obtain ⟨hbuffer', hlengths', -, -⟩ := hputs.shows
    have hcount : elementCount (settled (s.lengths c)) =
        (data.extract (s.offset c) (places ns)).size := by
      have htotal' : elementCount (settled (s.lengths c)) = elementCount (s.lengths c) :=
        congrArg wrap (elementTotal_settled (s.lengths c))
      rw [htotal', ← hs.sound.size_eq hc, Lanes.size_extract hfit, hplaces]
    refine ⟨_, _, t, hvalue, ht, hputs.isolated, ?_, hlengths', _, window_eq_extract hb hplaces hfit,
      hputs.window_eq hcount⟩
    rw [Store.type, hbuffer']
    exact (Lanes.type_extract _ _ data).trans htype
  · exact absurd ⟨ns, hfits⟩ hno

/-- A value of a kind that containers hold, with room for the lengths along its first elements,
becomes a container if it is rectangular, and is refused if not.  The container shares nothing, and
gives the value back with its elements widened, which keeps all numbers below 2⁶³.  Conversely a
container can be made from the value of another one, if this value can be made, and shows the same
elements; its lengths are zero below the first dimension without places. -/
theorem conversion_round_trip (hs : s.Formed) :
    (∀ {k ty d} (x : Items k d), k.type? = some ty →
      Store.isAllocatable ty (elementTotal x.shape) = true →
      (x.widen.Rectangular → ∃ c t, x.toContainer s = .ok (.ok (c, t)) ∧ t.Isolated c ∧
        t.type c = ty ∧ t.lengths c = x.shape ∧
        (Nestable ty x.shape → ofContainer t c = .ok (some ⟨ty, d, x.widen⟩))) ∧
      (¬ x.widen.Rectangular → ∃ n m, x.toContainer s = .error (.ragged (typeName k d) n m))) ∧
    (∀ {k : Kind} {e : k.Element} {i : Int}, k.number? e = some i →
      ∃ v : Int64, k.widen e = .int v ∧ v.toInt = wrap i ∧ (i < 2 ^ 63 → v.toInt = i)) ∧
    ∀ {c}, s.type c ≠ .void → (∀ n ∈ s.lengths c, 0 ≤ n) →
      elementTotal (s.lengths c) = s.size c →
      Store.isAllocatable (s.type c) (s.size c) = true → Nestable (s.type c) (s.lengths c) →
      ∃ v c' t, ofContainer s c = .ok (some v) ∧
        toContainer s (kindOf v.type) v.depth v.content = .ok (.ok (c', t)) ∧
        t.Isolated c' ∧ t.type c' = s.type c ∧ t.lengths c' = settled (s.lengths c) ∧
        ∃ xs, s.window c = .ok xs ∧ t.window c' = .ok xs := by
  refine ⟨fun {k ty d} x hk hroom => ?_, widen_number, toContainer_ofContainer hs⟩
  have hof := of_widen hk x
  have hd := length_firstLengths d x.widen
  rcases toContainer_cases hs.sound hk hof hroom with ⟨hrect, t, ht, hputs⟩ | ⟨hno, hrefused⟩
  · refine ⟨fun _ => ⟨_, t, ht, hputs.isolated, ?_, hputs.shows.2.1, fun hnest => ?_⟩,
      fun hno => absurd hrect hno⟩
    all_goals
      obtain ⟨htype, hlist⟩ := lanesOf_of_type (isConcrete_of_kind hk) (type_elements hof)
    · rw [Store.type, hputs.shows.1]
      exact htype
    · have hfits := (rectangular_iff hof).mp hrect
      rw [hputs.ofContainer_eq hfits hd hlist (htype.symm ▸ hnest), htype]
  · exact ⟨fun hrect => absurd hrect hno, fun _ => hrefused⟩

/-- An array without elements, which shows no lengths to its host below the second dimension. -/
def hollow : Store := ({} : Store).fresh.2.renew 0 (.ints #[]) [2, 0, 3]

/-- Two rows of two bytes. -/
def rows : Items .int8 2 := [[1, 2], [3, 4]]

/-- Two rows, of which one has no element. -/
def halfRows : Items .int8 2 := [[1], []]

theorem conversion_round_trip_hollow : hollow.Formed ∧
    (∃ c t, rows.toContainer hollow = .ok (.ok (c, t)) ∧
      ofContainer t c = .ok (some ⟨.int, 2, .node [.node [.leaf (.int 1), .leaf (.int 2)],
        .node [.leaf (.int 3), .leaf (.int 4)]]⟩)) ∧
    (∃ n m, halfRows.toContainer hollow = .error (.ragged "[][]int8" n m)) ∧
    ∃ v c t, ofContainer hollow 0 = .ok (some v) ∧
      toContainer hollow (kindOf v.type) v.depth v.content = .ok (.ok (c, t)) ∧
      t.lengths c = [2, 0, 0] := by
  have hformed : hollow.Formed := by
    have hempty : Formed ({} : Store) :=
      ⟨Store.sound_empty, fun c => by simpa [Store.cell] using Store.sized_empty⟩
    have halters : Store.Alters Store.forming ({} : Store) hollow :=
      .tail (.single .fresh) (.renew trivial (by decide) (by decide))
    exact Store.Alters.formed halters hempty
  obtain ⟨hitems, -, hback⟩ := conversion_round_trip hformed
  refine ⟨hformed, ?_, ?_, ?_⟩
  · have hrows : rows.widen.Rectangular := ⟨[2, 2], by simp [rows, Items.widen, Nested.Fits]⟩
    obtain ⟨c, t, ht, -, -, -, hvalue⟩ := (hitems rows rfl (by decide +kernel)).1 hrows
    have hnest : Nestable .int rows.shape := by
      have hshape : rows.shape = [2, 2] := rfl
      simp [hshape, Nestable, Lanes.elementBytes, listBytes, greatestAllocation]
    exact ⟨c, t, ht, hvalue hnest⟩
  · refine (hitems halfRows rfl (by decide +kernel)).2 ?_
    rintro ⟨_ | ⟨n, _ | ⟨m, lengths⟩⟩, h⟩ <;>
      simp [halfRows, Items.widen, Nested.Fits] at h
    omega
  · have hlengths : hollow.lengths 0 = [2, 0, 3] := by decide +kernel
    have htype : hollow.type 0 = .int := by decide +kernel
    obtain ⟨v, c, t, hv, ht, -, -, hsettled, -⟩ := hback (c := 0) (by decide +kernel)
      (by rw [hlengths]; decide) (by decide +kernel) (by decide +kernel) (by
        rw [htype, hlengths]
        simp [Nestable, listBytes, greatestAllocation])
    exact ⟨v, c, t, hv, ht, by rw [hsettled, hlengths]; decide⟩

/-- Lists of two values each of which only the first goes on, down to two numbers. -/
def lopsided : (d : Nat) → Items .int64 (d + 1)
  | 0 => [1, 2]
  | d + 1 => [lopsided d, []]

/-- The first lengths of this value describe 2⁶⁴ elements, which 64 bits count as none. -/
example : (lopsided 63).toContainer {} = .ok (.error .breakdown) := rfl

end Host

end VectorMachine
