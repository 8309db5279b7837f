import VectorMachine.Proofs.Store.Sharing

/-!
# Elementwise results

An arithmetic instruction, a comparison, a negation or a complement refuses its data for four
reasons and for no other.  Whatever it does not refuse it computes position by position: the element
at a position of the result is the operation on the elements there, with the element of a scalar at
every position.
-/

namespace VectorMachine
set_option autoImplicit false

/-- Whether elements of one type are read where another type is asked for. -/
def DataType.readsAs (source target : DataType) : Bool :=
  source.isConcrete && target.isConcrete &&
    (source == target || (source == .int && target == .float) || target == .string)

/-- An element read as one of a type: an int as a float, and everything as text. -/
def Scalar.as? : DataType → Scalar → Option Scalar
  | .int, .int v => some (.int v)
  | .float, .float v => some (.float v)
  | .float, .int v => some (.float (intToFloat v))
  | .bool, .bool v => some (.bool v)
  | .string, v => some (.string v.text)
  | _, _ => none

/-! ### Operations on elements -/

/-- Arithmetic on all integers; division rounds toward zero. -/
def Arithmetic.onIntegers : Arithmetic → Int → Int → Int
  | .add => (· + ·)
  | .sub => (· - ·)
  | .mul => (· * ·)
  | .div => Int.tdiv
  | .rem => Int.tmod

def Comparison.onIntegers : Comparison → Int → Int → Bool
  | .eq, x, y => x = y
  | .neq, x, y => x ≠ y
  | .gt, x, y => y < x
  | .lt, x, y => x < y
  | .geq, x, y => y ≤ x
  | .leq, x, y => x ≤ y

/-- Ints are computed modulo 2^64. -/
theorem Arithmetic.onInts_eq (op : Arithmetic) (x y : Int64) :
    op.onInts x y = Int64.ofInt (op.onIntegers x.toInt y.toInt) := by
  apply Int64.toInt_inj.mp
  cases op with
  | rem =>
    rw [Int64.toInt_ofInt, onIntegers, ← Int64.toInt_mod, Int64.toInt_bmod_size, onInts]
  | _ => simp [onInts, onIntegers, Int64.toInt_ofInt, Int64.toInt_div, Int64.size]

theorem Comparison.onInts_eq (op : Comparison) (x y : Int64) :
    op.onInts x y = op.onIntegers x.toInt y.toInt := by
  cases op <;> simp [onInts, onIntegers, Int64.lt_iff_toInt_lt, Int64.le_iff_toInt_le,
    Int64.toInt_inj, bne, beq_eq_decide]

/-- The operations of elementwise instructions. -/
inductive Lanewise where
  | arithmetic (op : Arithmetic)
  | compare (op : Comparison)
  | negate
  | complement
  deriving DecidableEq, Repr

def Opcode.lanewise? : Opcode → Option Lanewise
  | .arithmetic op => some (.arithmetic op)
  | .compare op => some (.compare op)
  | .negate => some .negate
  | .not => some .complement
  | _ => none

namespace Lanewise

/-- The number of sources. -/
def sources : Lanewise → Nat
  | .arithmetic _ | .compare _ => 2
  | .negate | .complement => 1

/-- The types that an operation is defined on. -/
def definedOn : Lanewise → DataType → Bool
  | .arithmetic _, .int | .arithmetic _, .float => true
  | .arithmetic op, .string => op = .add
  | .compare _, .int | .compare _, .float | .compare _, .string => true
  | .compare op, .bool => op = .eq ∨ op = .neq
  | .negate, .int | .negate, .float => true
  | .complement, .bool => true
  | _, _ => false

def resultType : Lanewise → DataType → DataType
  | .compare _, _ => .bool
  | _, t => t

/-- Whether a zero on the right is refused. -/
def divides (op : Lanewise) (t : DataType) : Bool :=
  t = .int ∧ (op = .arithmetic .div ∨ op = .arithmetic .rem)

/-- The operation on elements of one type. -/
def on? : Lanewise → List Scalar → Option Scalar
  | .arithmetic op, [.int x, .int y] => some (.int (Int64.ofInt (op.onIntegers x.toInt y.toInt)))
  | .arithmetic op, [.float x, .float y] => some (.float (op.onFloats x y))
  | .arithmetic .add, [.string x, .string y] => some (.string (x ++ y))
  | .compare op, [.int x, .int y] => some (.bool (op.onIntegers x.toInt y.toInt))
  | .compare op, [.float x, .float y] => some (.bool (op.onFloats x y))
  | .compare op, [.string x, .string y] => some (.bool (op.onStrings x y))
  | .compare .eq, [.bool x, .bool y] => some (.bool (x == y))
  | .compare .neq, [.bool x, .bool y] => some (.bool (x != y))
  | .negate, [.int x] => some (.int (Int64.ofInt (-x.toInt)))
  | .negate, [.float x] => some (.float (-x))
  | .complement, [.bool x] => some (.bool (!x))
  | _, _ => none

end Lanewise

namespace Store

variable {s t : Store} {a b c d : CellId} {cs : List CellId} {op : Lanewise} {ty : DataType}
  {α β : Type} {R R' : Prop} {V : α → Prop} {W : β → Prop} {lengths : List Int}

/-! ### What is computed -/

/-- The elements that a container shows, by their positions. -/
def shown? (s : Store) (c : CellId) (i : Nat) : Option Scalar :=
  ((s.window c).toOption).bind (·.get? i)

/-- What a source contributes to a position: the only element of a scalar, wherever it is. -/
def contribution? (s : Store) (ty : DataType) (i : Nat) (c : CellId) : Option Scalar :=
  (s.shown? c (if s.rank c = 0 then 0 else i)).bind (Scalar.as? ty)

/-- The lengths of the arrays among some containers, none if all are scalars. -/
def arrayLengths (s : Store) (cs : List CellId) : List Int :=
  ((cs.map s.lengths).find? (· ≠ [])).getD []

/-- Why an elementwise instruction refuses its sources. -/
inductive Refuses (s : Store) (op : Lanewise) (ty : DataType) (cs : List CellId) : Prop
  | undefined : op.definedOn ty = false → Refuses s op ty cs
  | unreadable {c : CellId} : c ∈ cs → (s.type c).readsAs ty = false → Refuses s op ty cs
  | lengths {a b : CellId} : a ∈ cs → b ∈ cs → s.rank a ≠ 0 → s.rank b ≠ 0 →
      s.lengths a ≠ s.lengths b → Refuses s op ty cs
  | zeroDivisor {b : CellId} {i : Nat} : op.divides ty = true → cs[1]? = some b →
      s.shown? b i = some (.int 0) → Refuses s op ty cs

/-- The element at a position of a result is the operation on what the sources contribute to it. -/
structure Computes (s : Store) (op : Lanewise) (ty : DataType) (cs : List CellId)
    (r : List Int × Lanes) : Prop where
  lengths_eq : r.1 = s.arrayLengths cs
  type_eq : r.2.type = op.resultType ty
  size_eq : r.2.size = (elementCount r.1).toNat
  lane : ∀ i < r.2.size, ∃ xs v, cs.mapM (s.contribution? ty i) = some xs ∧ op.on? xs = some v ∧
    r.2.get? i = some v

/-- What an elementwise instruction computes of its sources. -/
def lanewise (s : Store) (op : Lanewise) (ty : DataType) (cs : List CellId) :
    Except Failure (List Int × Lanes) :=
  match op, cs with
  | .arithmetic op, a :: b :: _ => s.arithmeticResult op ty a b
  | .compare op, a :: b :: _ => s.compareResult op ty a b
  | .negate, a :: _ => s.negateResult ty a
  | .complement, a :: _ => s.complementResult ty a
  | _, _ => .error (.abort .breakdown)

/-! ### Computations that decide -/

/-- A computation refuses the data exactly if `R` holds, and else gives a result with the property
`V`. -/
def Decides (R : Prop) (V : α → Prop) : Except Failure α → Prop
  | .ok a => ¬ R ∧ V a
  | .error (.data _) => R
  | .error (.abort _) => False

theorem Decides.bind {x : Except Failure α} {f : α → Except Failure β} (hx : Decides R V x)
    (hf : ∀ a, V a → Decides R' W (f a)) : Decides (R ∨ R') W (x >>= f) := by
  rcases x with (_ | _) | a
  · exact .inl hx
  · exact hx
  · have ha := hf a hx.2
    rw [ok_bind]
    revert ha
    rcases f a with (_ | _) | b
    · exact .inr
    · exact id
    · exact fun h => ⟨not_or.mpr ⟨hx.1, h.1⟩, h.2⟩

theorem Decides.congr {x : Except Failure α} (hx : Decides R V x) (h : R ↔ R') :
    Decides R' V x := by
  rcases x with (_ | _) | a
  · exact h.mp hx
  · exact hx
  · exact ⟨fun hr => hx.1 (h.mpr hr), hx.2⟩

/-- What follows refuses nothing. -/
theorem Decides.bind_total {x : Except Failure α} {f : α → Except Failure β} (hx : Decides R V x)
    (hf : ∀ a, V a → Decides False W (f a)) : Decides R W (x >>= f) :=
  (hx.bind hf).congr (by rw [or_false])

/-- A result comes only of data that are not refused. -/
theorem Decides.and_not {x : Except Failure α} (hx : Decides R V x) :
    Decides R (fun a => ¬ R ∧ V a) x := by
  rcases x with (_ | _) | a
  · exact hx
  · exact hx
  · exact ⟨hx.1, hx⟩

theorem decides_ok {a : α} (h : V a) : Decides False V (.ok a) := ⟨id, h⟩

theorem decides_refuse (cause : DataCause) (h : R) : Decides R V (refuse cause) := h

theorem decides_map {f : α → β} {x : Except Failure α} (hx : Decides R V x)
    (hf : ∀ a, V a → W (f a)) : Decides R W (x >>= fun a => .ok (f a)) :=
  (hx.bind fun a ha => decides_ok (hf a ha)).congr (or_iff_left id)

/-! ### Reading -/

/-- What is read of a container as one type: as many elements as it shows, each converted. -/
structure Reading (s : Store) (ty : DataType) (c : CellId) (inject : α → Scalar) (xs : Array α) :
    Prop where
  counted : s.Counted c xs.size
  lane : ∀ i, (s.shown? c i).bind (Scalar.as? ty) = xs[i]?.map inject

theorem shown?_of_window {data : Lanes} (h : s.window c = .ok data) (i : Nat) :
    s.shown? c i = data.get? i := by
  rw [shown?, h]
  rfl

theorem Reading.of_window {inject : α → Scalar} {xs : Array α} {data : Lanes}
    (hw : s.window c = .ok data) (hcount : s.Counted c xs.size)
    (h : ∀ i, (data.get? i).bind (Scalar.as? ty) = xs[i]?.map inject) :
    s.Reading ty c inject xs := by
  refine ⟨hcount, fun i => ?_⟩
  rw [shown?_of_window hw, h]

theorem Formed.decides_readInts (hs : s.Formed) :
    Decides ((s.type c).readsAs .int = false) (s.Reading .int c .int) (s.readInts c) := by
  unfold readInts
  split
  · rename_i ht
    apply decides_refuse
    revert ht
    cases s.type c <;> simp [DataType.readsAs]
  · rename_i ht
    rw [not_not] at ht
    obtain ⟨data, hw, htype, hcount⟩ := hs.exists_window (c := c) (by simp [ht])
    rw [ht] at htype
    cases data with
    | ints xs =>
      simp only [lanes, hw, Except.mapError, ok_bind]
      refine ⟨by simp [ht, DataType.readsAs, DataType.isConcrete], .of_window hw hcount fun i => ?_⟩
      cases hx : xs[i]? <;> simp [Lanes.get?, hx, Scalar.as?]
    | floats | bools | strings => cases htype

theorem Formed.decides_readFloats (hs : s.Formed) :
    Decides ((s.type c).readsAs .float = false) (s.Reading .float c .float) (s.readFloats c) := by
  unfold readFloats
  split
  · rename_i ht
    apply decides_refuse
    revert ht
    cases s.type c <;> simp [DataType.readsAs]
  · rename_i ht
    have ht : s.type c = .float ∨ s.type c = .int := by
      rw [not_and_or, not_not, not_not] at ht
      exact ht
    obtain ⟨data, hw, htype, hcount⟩ := hs.exists_window (c := c) (by
      rcases ht with h | h <;> simp [h])
    have hreads : (s.type c).readsAs .float ≠ false := by
      rcases ht with h | h <;> simp [h, DataType.readsAs, DataType.isConcrete]
    cases data with
    | ints xs =>
      simp only [lanes, hw, Except.mapError, ok_bind]
      refine ⟨hreads, .of_window hw (by simpa [Lanes.size] using hcount) fun i => ?_⟩
      cases hx : xs[i]? <;> simp [Lanes.get?, hx, Scalar.as?]
    | floats xs =>
      simp only [lanes, hw, Except.mapError, ok_bind]
      refine ⟨hreads, .of_window hw hcount fun i => ?_⟩
      cases hx : xs[i]? <;> simp [Lanes.get?, hx, Scalar.as?]
    | bools | strings => rcases ht with h | h <;> rw [h] at htype <;> cases htype

theorem Formed.decides_readBools (hs : s.Formed) :
    Decides ((s.type c).readsAs .bool = false) (s.Reading .bool c .bool) (s.readBools c) := by
  unfold readBools
  split
  · rename_i ht
    apply decides_refuse
    revert ht
    cases s.type c <;> simp [DataType.readsAs]
  · rename_i ht
    rw [not_not] at ht
    obtain ⟨data, hw, htype, hcount⟩ := hs.exists_window (c := c) (by simp [ht])
    rw [ht] at htype
    cases data with
    | bools xs =>
      simp only [lanes, hw, Except.mapError, ok_bind]
      refine ⟨by simp [ht, DataType.readsAs, DataType.isConcrete], .of_window hw hcount fun i => ?_⟩
      cases hx : xs[i]? <;> simp [Lanes.get?, hx, Scalar.as?]
    | ints | floats | strings => cases htype

theorem Formed.decides_readStrings (hs : s.Formed) :
    Decides ((s.type c).readsAs .string = false) (s.Reading .string c .string)
      (s.readStrings c) := by
  unfold readStrings
  split
  · rename_i ht
    apply decides_refuse
    simp only [isVoid, beq_iff_eq] at ht
    rw [ht]
    rfl
  · rename_i ht
    simp only [isVoid, beq_iff_eq] at ht
    obtain ⟨data, hw, htype, hcount⟩ := hs.exists_window ht
    have hreads : (s.type c).readsAs .string ≠ false := by
      rw [← htype]
      cases data <;> simp [Lanes.type, DataType.readsAs, DataType.isConcrete]
    simp only [lanes, hw, Except.mapError, ok_bind]
    cases data with
    | ints xs =>
      refine ⟨hreads, .of_window hw (by simpa [Lanes.size] using hcount) fun i => ?_⟩
      cases hx : xs[i]? <;> simp [Lanes.get?, hx, Scalar.as?]
    | floats xs =>
      refine ⟨hreads, .of_window hw (by simpa [Lanes.size] using hcount) fun i => ?_⟩
      cases hx : xs[i]? <;> simp [Lanes.get?, hx, Scalar.as?]
    | bools xs =>
      refine ⟨hreads, .of_window hw (by simpa [Lanes.size] using hcount) fun i => ?_⟩
      cases hx : xs[i]? <;> simp [Lanes.get?, hx, Scalar.as?]
    | strings xs =>
      refine ⟨hreads, .of_window hw hcount fun i => ?_⟩
      cases hx : xs[i]? <;> simp [Lanes.get?, hx, Scalar.as?, Scalar.text]

/-! ### Results -/

section

variable {inject : α → Scalar} {xs ys : Array α}

theorem Reading.size_of_rank (hx : s.Reading ty c inject xs) (h : s.rank c = 0) : xs.size = 1 := by
  rw [hx.counted.eq_lengths, List.eq_nil_of_length_eq_zero h, elementCount_nil]
  rfl

/-- A source that is an array or a scalar contributes to every position what it is broadcast to. -/
theorem Reading.broadcast (hx : s.Reading ty c inject xs)
    (h : s.rank c = 0 ∨ lengths = s.lengths c) :
    ∃ us, broadcast (elementCount lengths).toNat xs = .ok us ∧
      us.size = (elementCount lengths).toNat ∧
      ∀ i < (elementCount lengths).toNat, ∃ x, us[i]? = some x ∧
        s.contribution? ty i c = some (inject x) := by
  unfold Store.broadcast
  by_cases hsize : xs.size = (elementCount lengths).toNat
  · refine ⟨xs, if_pos hsize, hsize, fun i hi => ?_⟩
    have hlt : i < xs.size := by omega
    have hindex : (if s.rank c = 0 then 0 else i) = i := by
      split
      · rename_i hr
        have hone := hx.size_of_rank hr
        omega
      · rfl
    refine ⟨xs[i], Array.getElem?_eq_getElem hlt, ?_⟩
    rw [contribution?, hindex, hx.lane, Array.getElem?_eq_getElem hlt]
    rfl
  · have hr : s.rank c = 0 := by
      rcases h with h | rfl
      · exact h
      · exact absurd hx.counted.eq_lengths hsize
    have hlt : 0 < xs.size := by
      have hone := hx.size_of_rank hr
      omega
    refine ⟨Array.replicate (elementCount lengths).toNat xs[0], ?_, by simp, fun i hi => ?_⟩
    · simp only [hsize, if_false, Array.getElem?_eq_getElem hlt]
    · refine ⟨xs[0], by simp [hi], ?_⟩
      rw [contribution?, if_pos hr, hx.lane, Array.getElem?_eq_getElem hlt]
      rfl

theorem arrayLengths_pair : s.arrayLengths [a, b] =
    if s.rank a = 0 then s.lengths b else s.lengths a := by
  unfold arrayLengths rank
  cases ha : s.lengths a with
  | nil => cases hb : s.lengths b <;> simp [ha, hb]
  | cons n ns => simp [ha]

theorem arrayLengths_single : s.arrayLengths [a] = s.lengths a := by
  unfold arrayLengths
  cases ha : s.lengths a <;> simp [ha]

theorem decides_broadcastLengths :
    Decides (s.rank a ≠ 0 ∧ s.rank b ≠ 0 ∧ s.lengths a ≠ s.lengths b)
      (fun ls => ls = s.arrayLengths [a, b] ∧ (s.rank a = 0 ∨ ls = s.lengths a) ∧
        (s.rank b = 0 ∨ ls = s.lengths b))
      (s.broadcastLengths a b) := by
  unfold broadcastLengths
  rw [arrayLengths_pair]
  split
  · rename_i ha
    exact ⟨fun h => h.1 ha, rfl, .inl ha, .inr rfl⟩
  · rename_i ha
    split
    · rename_i h
      exact ⟨fun hne => h.elim hne.2.1 hne.2.2, rfl, .inr rfl, h⟩
    · rename_i h
      rw [not_or] at h
      exact decides_refuse _ ⟨ha, h.1, h.2⟩

/-- Combining two sources computes from what both contribute to each position. -/
theorem Reading.combine {f : α → α → β}
    (hls : (s.rank a = 0 ∨ lengths = s.lengths a) ∧ (s.rank b = 0 ∨ lengths = s.lengths b))
    (hx : s.Reading ty a inject xs) (hy : s.Reading ty b inject ys) :
    ∃ zs, Store.combine f lengths xs ys = .ok zs ∧ zs.size = (elementCount lengths).toNat ∧
      ∀ i < (elementCount lengths).toNat, ∃ x y, s.contribution? ty i a = some (inject x) ∧
        s.contribution? ty i b = some (inject y) ∧ zs[i]? = some (f x y) := by
  obtain ⟨us, hus, husize, hu⟩ := hx.broadcast hls.1
  obtain ⟨vs, hvs, hvsize, hv⟩ := hy.broadcast hls.2
  refine ⟨Array.zipWith f us vs, by simp only [Store.combine, hus, hvs, ok_bind],
    by simp [husize, hvsize], fun i hi => ?_⟩
  obtain ⟨x, hux, hx⟩ := hu i hi
  obtain ⟨y, hvy, hy⟩ := hv i hi
  refine ⟨x, y, hx, hy, ?_⟩
  rw [Array.getElem?_zipWith, hux, hvy]

/-- Combining two sources computes the operation, position by position. -/
theorem decides_combine {f : α → α → β} {inject' : β → Scalar} {wrap : Array β → Lanes}
    (hls : lengths = s.arrayLengths [a, b] ∧ (s.rank a = 0 ∨ lengths = s.lengths a) ∧
      (s.rank b = 0 ∨ lengths = s.lengths b))
    (hx : s.Reading ty a inject xs) (hy : s.Reading ty b inject ys)
    (htype : ∀ zs, (wrap zs).type = op.resultType ty) (hsize : ∀ zs, (wrap zs).size = zs.size)
    (hget : ∀ zs i, (wrap zs).get? i = zs[i]?.map inject')
    (hon : ∀ x y, op.on? [inject x, inject y] = some (inject' (f x y))) :
    Decides False (s.Computes op ty [a, b])
      (combine f lengths xs ys >>= fun zs => .ok (lengths, wrap zs)) := by
  obtain ⟨zs, hzs, hcount, hlane⟩ := hx.combine (f := f) hls.2 hy
  simp only [hzs, ok_bind]
  refine ⟨id, hls.1, htype _, (hsize _).trans hcount, fun i hi => ?_⟩
  rw [hsize, hcount] at hi
  obtain ⟨x, y, hx, hy, hz⟩ := hlane i hi
  refine ⟨[inject x, inject y], inject' (f x y), by simp [hx, hy], hon x y, ?_⟩
  rw [hget, hz]
  rfl

theorem refuses_pair : s.Refuses op ty [a, b] ↔ op.definedOn ty = false ∨
    (s.rank a ≠ 0 ∧ s.rank b ≠ 0 ∧ s.lengths a ≠ s.lengths b) ∨
    (s.type a).readsAs ty = false ∨ (s.type b).readsAs ty = false ∨
    (op.divides ty = true ∧ ∃ i, s.shown? b i = some (.int 0)) := by
  constructor
  · rintro (h | ⟨hc, h⟩ | ⟨hc, hd, hrc, hrd, h⟩ | ⟨h, hb, hi⟩)
    · exact .inl h
    · rcases List.mem_pair.mp hc with rfl | rfl
      · exact .inr (.inr (.inl h))
      · exact .inr (.inr (.inr (.inl h)))
    · rcases List.mem_pair.mp hc with rfl | rfl <;> rcases List.mem_pair.mp hd with rfl | rfl
      · exact absurd rfl h
      · exact .inr (.inl ⟨hrc, hrd, h⟩)
      · exact .inr (.inl ⟨hrd, hrc, h.symm⟩)
      · exact absurd rfl h
    · cases hb
      exact .inr (.inr (.inr (.inr ⟨h, _, hi⟩)))
  · rintro (h | ⟨ha, hb, h⟩ | h | h | ⟨h, i, hi⟩)
    · exact .undefined h
    · exact .lengths (a := a) (b := b) (by simp) (by simp) ha hb h
    · exact .unreadable (c := a) (by simp) h
    · exact .unreadable (c := b) (by simp) h
    · exact .zeroDivisor h rfl hi

theorem refuses_single (hop : op.divides ty = false) : s.Refuses op ty [a] ↔
    op.definedOn ty = false ∨ (s.type a).readsAs ty = false := by
  constructor
  · rintro (h | ⟨hc, h⟩ | ⟨hc, hd, -, -, h⟩ | ⟨h, -, -⟩)
    · exact .inl h
    · rw [List.mem_singleton.mp hc] at h
      exact .inr h
    · rw [List.mem_singleton.mp hc, List.mem_singleton.mp hd] at h
      exact absurd rfl h
    · rw [hop] at h
      cases h
  · rintro (h | h)
    · exact .undefined h
    · exact .unreadable (c := a) (by simp) h

theorem decides_checkDivisors {op : Arithmetic} {ys : Array Int64}
    (hy : s.Reading .int b .int ys) :
    Decides ((Lanewise.arithmetic op).divides .int = true ∧ ∃ i, s.shown? b i = some (.int 0))
      (fun _ => True) (checkDivisors op ys) := by
  have hzero : (∃ i, s.shown? b i = some (.int 0)) ↔ 0 ∈ ys := by
    rw [Array.mem_iff_getElem?]
    refine exists_congr fun i => ?_
    have hlane := hy.lane i
    cases hv : s.shown? b i with
    | none => cases hx : ys[i]? <;> simp [hv, hx] at hlane ⊢
    | some v => cases v <;> cases hx : ys[i]? <;> simp_all [Scalar.as?]
  have hadmits : ys.all op.admitsDivisor = true ↔ ¬ (op.divides = true ∧ (0 : Int64) ∈ ys) := by
    simp only [Array.all_eq_true_iff_forall_mem, Arithmetic.admitsDivisor]
    cases op.divides <;> simp
    exact ⟨fun h hz => h 0 hz rfl, fun h x hx hz => h (hz ▸ hx)⟩
  have hdivides : (Lanewise.arithmetic op).divides .int = op.divides := by cases op <;> rfl
  rw [hzero, hdivides]
  unfold checkDivisors
  split
  · rename_i h
    exact ⟨hadmits.mp h, trivial⟩
  · rename_i h
    exact decides_refuse _ (not_not.mp fun hn => h (hadmits.mpr hn))

end

/-- Reasons to refuse that come one after another are those of a pair of sources. -/
theorem Decides.pair {x : Except Failure α} {Z : Prop} (hop : op.definedOn ty = true)
    (hz : op.divides ty = true ∧ (∃ i, s.shown? b i = some (.int 0)) ↔ Z)
    (hx : Decides ((s.rank a ≠ 0 ∧ s.rank b ≠ 0 ∧ s.lengths a ≠ s.lengths b) ∨
      (s.type a).readsAs ty = false ∨ (s.type b).readsAs ty = false ∨ Z) V x) :
    Decides (s.Refuses op ty [a, b]) V x := by
  refine hx.congr ?_
  rw [refuses_pair, hop, hz]
  simp

theorem decides_undefined {f : List Int → Except Failure α} (hop : op.definedOn ty = false)
    (hf : ∀ ls, ∃ cause, f ls = refuse cause) :
    Decides (s.Refuses op ty [a, b]) V (s.broadcastLengths a b >>= f) := by
  have hrefuses : s.Refuses op ty [a, b] := .undefined hop
  refine (decides_broadcastLengths.bind fun ls _ => ?_).congr
    (iff_of_true (.inr trivial) hrefuses)
  obtain ⟨cause, hcause⟩ := hf ls
  rw [hcause]
  exact decides_refuse cause trivial

theorem Formed.decides_arithmeticResult (hs : s.Formed) (op : Arithmetic) :
    Decides (s.Refuses (.arithmetic op) ty [a, b]) (s.Computes (.arithmetic op) ty [a, b])
      (s.arithmeticResult op ty a b) := by
  cases ty with
  | int =>
    apply Decides.pair rfl Iff.rfl
    refine decides_broadcastLengths.bind fun ls hls => ?_
    refine hs.decides_readInts.bind fun xs hxs => hs.decides_readInts.bind fun ys hys => ?_
    refine ((decides_checkDivisors hys).bind fun _ _ => ?_).congr (or_iff_left id)
    exact decides_combine hls hxs hys (fun _ => rfl) (fun _ => rfl) (fun _ _ => rfl)
      fun x y => by rw [op.onInts_eq]; rfl
  | float =>
    apply Decides.pair (Z := False) rfl (by simp [Lanewise.divides])
    refine decides_broadcastLengths.bind fun ls hls => ?_
    refine hs.decides_readFloats.bind fun xs hxs => hs.decides_readFloats.bind fun ys hys => ?_
    exact decides_combine hls hxs hys (fun _ => rfl) (fun _ => rfl) (fun _ _ => rfl)
      fun _ _ => rfl
  | string =>
    by_cases hop : op = .add
    · subst hop
      apply Decides.pair (Z := False) rfl (by simp [Lanewise.divides])
      refine decides_broadcastLengths.bind fun ls hls => ?_
      refine hs.decides_readStrings.bind fun xs hxs => hs.decides_readStrings.bind fun ys hys => ?_
      exact decides_combine hls hxs hys (fun _ => rfl) (fun _ => rfl) (fun _ _ => rfl)
        fun _ _ => rfl
    · refine decides_undefined (by simp [Lanewise.definedOn, hop]) fun ls => ?_
      simp only [ne_eq, hop, not_false_eq_true, if_true]
      exact ⟨_, rfl⟩
  | bool | void | any => exact decides_undefined rfl fun _ => ⟨_, rfl⟩

theorem Formed.decides_compareResult (hs : s.Formed) (op : Comparison) :
    Decides (s.Refuses (.compare op) ty [a, b]) (s.Computes (.compare op) ty [a, b])
      (s.compareResult op ty a b) := by
  have hdivides : (Lanewise.compare op).divides ty = true ∧
      (∃ i, s.shown? b i = some (.int 0)) ↔ False := by simp [Lanewise.divides]
  cases ty with
  | int =>
    apply Decides.pair rfl hdivides
    refine decides_broadcastLengths.bind fun ls hls => ?_
    refine hs.decides_readInts.bind fun xs hxs => hs.decides_readInts.bind fun ys hys => ?_
    exact decides_combine hls hxs hys (fun _ => rfl) (fun _ => rfl) (fun _ _ => rfl)
      fun x y => by rw [op.onInts_eq]; rfl
  | float =>
    apply Decides.pair rfl hdivides
    refine decides_broadcastLengths.bind fun ls hls => ?_
    refine hs.decides_readFloats.bind fun xs hxs => hs.decides_readFloats.bind fun ys hys => ?_
    exact decides_combine hls hxs hys (fun _ => rfl) (fun _ => rfl) (fun _ _ => rfl)
      fun _ _ => rfl
  | string =>
    apply Decides.pair rfl hdivides
    refine decides_broadcastLengths.bind fun ls hls => ?_
    refine hs.decides_readStrings.bind fun xs hxs => hs.decides_readStrings.bind fun ys hys => ?_
    exact decides_combine hls hxs hys (fun _ => rfl) (fun _ => rfl) (fun _ _ => rfl)
      fun _ _ => rfl
  | bool =>
    cases hop : op.onBools? with
    | none =>
      have hundefined : (Lanewise.compare op).definedOn .bool = false := by
        cases op <;> first | rfl | cases hop
      refine decides_undefined hundefined fun ls => ?_
      simp only [hop]
      exact ⟨_, rfl⟩
    | some f =>
      have hdefined : (Lanewise.compare op).definedOn .bool = true := by
        cases op <;> first | rfl | cases hop
      apply Decides.pair hdefined hdivides
      refine decides_broadcastLengths.bind fun ls hls => ?_
      simp only [hop]
      refine hs.decides_readBools.bind fun xs hxs => hs.decides_readBools.bind fun ys hys => ?_
      refine decides_combine hls hxs hys (fun _ => rfl) (fun _ => rfl) (fun _ _ => rfl)
        fun _ _ => ?_
      cases op <;> cases hop <;> rfl
  | void | any => exact decides_undefined rfl fun _ => ⟨_, rfl⟩

/-- The elements of one source, changed one by one. -/
theorem Reading.computes {inject : α → Scalar} {inject' : β → Scalar} {xs : Array α} {f : α → β}
    {wrap : Array β → Lanes} (hx : s.Reading ty a inject xs)
    (htype : ∀ zs, (wrap zs).type = op.resultType ty) (hsize : ∀ zs, (wrap zs).size = zs.size)
    (hget : ∀ zs i, (wrap zs).get? i = zs[i]?.map inject')
    (hon : ∀ x, op.on? [inject x] = some (inject' (f x))) :
    s.Computes op ty [a] (s.lengths a, wrap (xs.map f)) := by
  refine ⟨arrayLengths_single.symm, htype _, ?_, fun i hi => ?_⟩
  · rw [hsize, Array.size_map]
    exact hx.counted.eq_lengths
  · rw [hsize, Array.size_map] at hi
    have hlane : s.contribution? ty i a = some (inject xs[i]) := by
      rw [contribution?, hx.lane]
      split
      · rename_i hr
        have hone := hx.size_of_rank hr
        have hzero : i = 0 := by omega
        subst hzero
        rw [Array.getElem?_eq_getElem hi]
        rfl
      · rw [Array.getElem?_eq_getElem hi]
        rfl
    refine ⟨[inject xs[i]], inject' (f xs[i]), by simp [hlane], hon _, ?_⟩
    rw [hget, Array.getElem?_map, Array.getElem?_eq_getElem hi]
    rfl

theorem ofInt_neg (x : Int64) : -x = Int64.ofInt (-x.toInt) := by
  apply Int64.toInt_inj.mp
  rw [Int64.toInt_neg, Int64.toInt_ofInt]

theorem Formed.decides_negateResult (hs : s.Formed) :
    Decides (s.Refuses .negate ty [a]) (s.Computes .negate ty [a]) (s.negateResult ty a) := by
  cases ty with
  | int =>
    refine (decides_map hs.decides_readInts fun xs hxs => ?_).congr ?_
    · exact hxs.computes (fun _ => rfl) (fun _ => rfl) (fun _ _ => rfl) fun x => by
        rw [ofInt_neg]
        rfl
    · rw [refuses_single rfl]
      simp [Lanewise.definedOn]
  | float =>
    refine (decides_map hs.decides_readFloats fun xs hxs => ?_).congr ?_
    · exact hxs.computes (fun _ => rfl) (fun _ => rfl) (fun _ _ => rfl) fun _ => rfl
    · rw [refuses_single rfl]
      simp [Lanewise.definedOn]
  | bool | string | void | any => exact decides_refuse _ (.undefined rfl)

theorem Formed.decides_complementResult (hs : s.Formed) :
    Decides (s.Refuses .complement ty [a]) (s.Computes .complement ty [a])
      (s.complementResult ty a) := by
  unfold complementResult
  split
  · rename_i hty
    apply decides_refuse
    apply Refuses.undefined
    revert hty
    cases ty <;> simp [Lanewise.definedOn]
  · rename_i hty
    rw [not_not] at hty
    subst hty
    refine (decides_map hs.decides_readBools fun xs hxs => ?_).congr ?_
    · exact hxs.computes (fun _ => rfl) (fun _ => rfl) (fun _ _ => rfl) fun _ => rfl
    · rw [refuses_single rfl]
      simp [Lanewise.definedOn]

/-- An elementwise instruction refuses its data for the four reasons and for no other, and computes
its result position by position otherwise. -/
theorem Formed.decides_lanewise (hs : s.Formed) (ty : DataType) (hcs : cs.length = op.sources) :
    Decides (s.Refuses op ty cs) (s.Computes op ty cs) (s.lanewise op ty cs) := by
  cases op with
  | arithmetic op =>
    obtain ⟨a, b, rfl⟩ := List.length_eq_two.mp hcs
    exact hs.decides_arithmeticResult op
  | compare op =>
    obtain ⟨a, b, rfl⟩ := List.length_eq_two.mp hcs
    exact hs.decides_compareResult op
  | negate =>
    obtain ⟨a, rfl⟩ := List.length_eq_one_iff.mp hcs
    exact hs.decides_negateResult
  | complement =>
    obtain ⟨a, rfl⟩ := List.length_eq_one_iff.mp hcs
    exact hs.decides_complementResult

end Store

end VectorMachine
