import VectorMachine.Proofs.Store.Isolation

/-!
# Elementwise instructions on scalars

Cells that hold scalars are read as arrays of one element, and what an elementwise instruction
makes of them is again one element without lengths.
-/

namespace VectorMachine.Store
set_option autoImplicit false

variable {s : Store} {a b : CellId} {o o' : Option Scalar} {v : Scalar} {t : DataType} {α β : Type}

theorem Holds.lanes_eq (h : s.Holds a (some v)) : s.lanes a = .ok (Lanes.ofScalar v) := by
  simp [lanes, h.window_eq, Except.mapError]

/-- The integer among scalars. -/
def int? : Option Scalar → Option Int64
  | some (.int v) => some v
  | _ => none

/-- The number that a scalar is read as a float. -/
def float? : Option Scalar → Option Float
  | some (.int v) => some (intToFloat v)
  | some (.float v) => some v
  | _ => none

def bool? : Option Scalar → Option Bool
  | some (.bool v) => some v
  | _ => none

theorem Holds.readInts_eq (h : s.Holds a o) : s.readInts a =
    (int? o).elim (refuse (.usedAs (s.shape a) .int)) fun v => .ok #[v] := by
  unfold readInts
  rw [h.type_eq]
  rcases o with _ | v
  · rfl
  · cases v
    case int v => simp [Scalar.type, h.lanes_eq, int?, Lanes.ofScalar]
    all_goals simp [Scalar.type, int?]

theorem Holds.readFloats_eq (h : s.Holds a o) : s.readFloats a =
    (float? o).elim (refuse (.usedAs (s.shape a) .float)) fun v => .ok #[v] := by
  unfold readFloats
  rw [h.type_eq]
  rcases o with _ | v
  · rfl
  · cases v
    case int v => simp [Scalar.type, h.lanes_eq, float?, Lanes.ofScalar]
    case float v => simp [Scalar.type, h.lanes_eq, float?, Lanes.ofScalar]
    all_goals simp [Scalar.type, float?]

theorem Holds.readBools_eq (h : s.Holds a o) : s.readBools a =
    (bool? o).elim (refuse (.usedAs (s.shape a) .bool)) fun v => .ok #[v] := by
  unfold readBools
  rw [h.type_eq]
  rcases o with _ | v
  · rfl
  · cases v
    case bool v => simp [Scalar.type, h.lanes_eq, bool?, Lanes.ofScalar]
    all_goals simp [Scalar.type, bool?]

/-- What gives only single elements of type `t`. -/
def Yields (r : Except Failure (List Int × Lanes)) (t : DataType) : Prop :=
  ∀ lengths data, r = .ok (lengths, data) → lengths = [] ∧ data.size = 1 ∧ data.type = t

theorem size_broadcast {n : Nat} {xs ys : Array α} (h : broadcast n xs = .ok ys) :
    ys.size = n := by
  unfold broadcast at h
  split at h
  · cases h
    assumption
  · split at h
    · cases h
      simp
    · cases h

theorem size_combine {f : α → α → β} {xs ys : Array α} {zs : Array β}
    (h : combine f [] xs ys = .ok zs) : zs.size = 1 := by
  obtain ⟨xs', hx, h⟩ := bind_eq_ok.mp h
  obtain ⟨ys', hy, h⟩ := bind_eq_ok.mp h
  cases h
  simp [size_broadcast hx, size_broadcast hy, elementCount_nil]

theorem Holds.broadcastLengths_eq (ha : s.Holds a o) (hb : s.Holds b o') :
    s.broadcastLengths a b = .ok [] := by
  simp [broadcastLengths, ha.rank_eq, hb.lengths_eq]

theorem yields_arithmetic {op : Arithmetic} (ha : s.Holds a o) (hb : s.Holds b o')
    (ht : t = .int ∨ t = .float) : Yields (s.arithmeticResult op t a b) t := by
  intro lengths data h
  unfold arithmeticResult at h
  rw [ha.broadcastLengths_eq hb, ok_bind] at h
  rcases ht with rfl | rfl
  · obtain ⟨xs, _, h⟩ := bind_eq_ok.mp h
    obtain ⟨ys, _, h⟩ := bind_eq_ok.mp h
    obtain ⟨_, _, h⟩ := bind_eq_ok.mp h
    obtain ⟨zs, hz, h⟩ := bind_eq_ok.mp h
    cases h
    exact ⟨rfl, size_combine hz, rfl⟩
  · obtain ⟨xs, _, h⟩ := bind_eq_ok.mp h
    obtain ⟨ys, _, h⟩ := bind_eq_ok.mp h
    obtain ⟨zs, hz, h⟩ := bind_eq_ok.mp h
    cases h
    exact ⟨rfl, size_combine hz, rfl⟩

theorem yields_compare {op : Comparison} (ha : s.Holds a o) (hb : s.Holds b o') :
    Yields (s.compareResult op t a b) .bool := by
  intro lengths data h
  unfold compareResult at h
  rw [ha.broadcastLengths_eq hb, ok_bind] at h
  cases t
  case int | float | string =>
    obtain ⟨xs, _, h⟩ := bind_eq_ok.mp h
    obtain ⟨ys, _, h⟩ := bind_eq_ok.mp h
    obtain ⟨zs, hz, h⟩ := bind_eq_ok.mp h
    cases h
    exact ⟨rfl, size_combine hz, rfl⟩
  case bool =>
    dsimp only at h
    split at h
    · cases h
    · obtain ⟨xs, _, h⟩ := bind_eq_ok.mp h
      obtain ⟨ys, _, h⟩ := bind_eq_ok.mp h
      obtain ⟨zs, hz, h⟩ := bind_eq_ok.mp h
      cases h
      exact ⟨rfl, size_combine hz, rfl⟩
  all_goals cases h

theorem size_of_elim {w : Option α} {e : Failure} {xs : Array α}
    (h : w.elim (Except.error e) (fun v => Except.ok #[v]) = .ok xs) : xs.size = 1 := by
  cases w with
  | none => cases h
  | some v =>
    cases h
    rfl

theorem Holds.size_readInts {xs : Array Int64} (ha : s.Holds a o) (h : s.readInts a = .ok xs) :
    xs.size = 1 :=
  size_of_elim (ha.readInts_eq.symm.trans h)

theorem Holds.size_readFloats {xs : Array Float} (ha : s.Holds a o)
    (h : s.readFloats a = .ok xs) : xs.size = 1 :=
  size_of_elim (ha.readFloats_eq.symm.trans h)

theorem Holds.size_readBools {xs : Array Bool} (ha : s.Holds a o) (h : s.readBools a = .ok xs) :
    xs.size = 1 :=
  size_of_elim (ha.readBools_eq.symm.trans h)

theorem Holds.size_readStrings {xs : Array String} (ha : s.Holds a o)
    (h : s.readStrings a = .ok xs) : xs.size = 1 := by
  unfold readStrings at h
  rw [ha.isVoid_eq] at h
  cases o with
  | none => cases h
  | some v =>
    rw [ha.lanes_eq] at h
    cases v <;> cases h <;> simp

theorem yields_connect {op : Connective} (ha : s.Holds a o) (hb : s.Holds b o') :
    Yields (s.connectResult op t a b) .bool := by
  intro lengths data h
  unfold connectResult at h
  split at h
  · cases h
  · obtain ⟨xs, hx, h⟩ := bind_eq_ok.mp h
    split at h
    · cases h
      exact ⟨ha.lengths_eq, ha.size_readBools hx, rfl⟩
    · rw [ha.broadcastLengths_eq hb, ok_bind] at h
      obtain ⟨ys, _, h⟩ := bind_eq_ok.mp h
      obtain ⟨zs, hz, h⟩ := bind_eq_ok.mp h
      cases h
      exact ⟨rfl, size_combine hz, rfl⟩

theorem Holds.readAs_ok {data : Lanes} (ha : s.Holds a o) (h : s.readAs t a = .ok data) :
    data.size = 1 ∧ data.type = t := by
  unfold readAs at h
  cases t
  case int =>
    obtain ⟨xs, hx, rfl⟩ := map_eq_ok.mp h
    exact ⟨ha.size_readInts hx, rfl⟩
  case float =>
    obtain ⟨xs, hx, rfl⟩ := map_eq_ok.mp h
    exact ⟨ha.size_readFloats hx, rfl⟩
  case bool =>
    obtain ⟨xs, hx, rfl⟩ := map_eq_ok.mp h
    exact ⟨ha.size_readBools hx, rfl⟩
  case string =>
    obtain ⟨xs, hx, rfl⟩ := map_eq_ok.mp h
    exact ⟨ha.size_readStrings hx, rfl⟩
  all_goals cases h

theorem yields_negate (ha : s.Holds a o) : Yields (s.negateResult t a) t := by
  intro lengths data h
  unfold negateResult at h
  cases t
  case int =>
    obtain ⟨xs, hx, h⟩ := bind_eq_ok.mp h
    cases h
    exact ⟨ha.lengths_eq, by simpa [Lanes.size] using ha.size_readInts hx, rfl⟩
  case float =>
    obtain ⟨xs, hx, h⟩ := bind_eq_ok.mp h
    cases h
    exact ⟨ha.lengths_eq, by simpa [Lanes.size] using ha.size_readFloats hx, rfl⟩
  all_goals cases h

theorem yields_complement (ha : s.Holds a o) : Yields (s.complementResult t a) .bool := by
  intro lengths data h
  unfold complementResult at h
  split at h
  · cases h
  · obtain ⟨xs, hx, h⟩ := bind_eq_ok.mp h
    cases h
    exact ⟨ha.lengths_eq, by simpa [Lanes.size] using ha.size_readBools hx, rfl⟩

theorem yields_move {intoScalar : Bool} (ha : s.Holds a o) :
    Yields (s.moveResult t intoScalar a) (if t.isConcrete then t else s.type a) := by
  intro lengths data h
  unfold moveResult at h
  split at h
  · cases h
  · dsimp only at h
    generalize (if t.isConcrete = true then t else s.type a) = t' at h ⊢
    cases intoScalar with
    | true =>
      simp only [if_true] at h
      split at h
      · cases h
      · obtain ⟨data', hd, heq⟩ := map_eq_ok.mp h
        cases heq
        exact ⟨rfl, ha.readAs_ok hd⟩
    | false =>
      obtain ⟨data', hd, heq⟩ := map_eq_ok.mp h
      cases heq
      exact ⟨ha.lengths_eq, ha.readAs_ok hd⟩

/-- Receiving a single element into a cell that is void or holds a scalar of its type. -/
theorem stores_receive {p : CellId} {t' : Store} {r : Except Failure (List Int × Lanes)}
    (hs : s.Sound) (hi : s.Isolated p) (ho : s.Holds p o) (hty : ∀ w, o = some w → w.type = t)
    (hr : Yields r t) (h : s.receive p r = .ok t') : ∃ v, v.type = t ∧ s.Stores p v t' := by
  obtain ⟨lengths, data, hrd, hd⟩ := receive_ok h
  obtain ⟨rfl, hsize, htype⟩ := hr lengths data hrd
  obtain ⟨v, rfl, hv⟩ := Lanes.eq_ofScalar hsize
  have hvt : v.type = t := hv.trans htype
  obtain ⟨t'', ht'', hst⟩ := deliver_holds hs hi ho fun w hw => (hty w hw).trans hvt.symm
  rw [hd] at ht''
  cases ht''
  exact ⟨v, hvt, hst⟩

end VectorMachine.Store
