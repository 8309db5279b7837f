import Mathlib.Algebra.Group.Int.Defs
import VectorMachine.Proofs.Store.Isolation
import VectorMachine.Proofs.Store.Separation
import VectorMachine.Proofs.Store.Views

/-!
# Reading never breaks down

In a well formed store every container shows a part of its buffer that is there, and as many
elements as its lengths say.  So whatever an instruction reads, it gets elements or refuses the
data; what remains is that an allocation is impossible, or that the lengths of an array do not
describe the number of its elements, because their product does not fit 64 bits.
-/

namespace VectorMachine
set_option autoImplicit false

/-- A fault that an operation raises. -/
def Abort.IsFault (operation : String) : Abort → Prop
  | .fault f => f.operation = operation
  | _ => False

/-- The lengths of a cell describe its number of elements, which is not negative, and zero at most
if it is void. -/
structure Cell.Sized (x : Cell) : Prop where
  size_eq : x.lengths ≠ [] → x.size = elementCount x.lengths
  nonneg : ∀ {i}, x.buffer = some i → 0 ≤ x.size
  void : x.buffer = none → x.size ≤ 0

theorem wrap_of_lt {i : Int} (h₀ : 0 ≤ i) (h : i < 2 ^ 63) : wrap i = i := by
  have hpow : Nat.pow 2 64 = 18446744073709551616 := rfl
  rw [wrap, hpow]
  exact Int.bmod_eq_of_le_mul_two (by omega) (by omega)

namespace Store

variable {s t : Store} {a b c d : CellId} {α β : Type} {E : Abort → Prop} {V : α → Prop}
  {W : β → Prop} {ty : DataType} {lengths : List Int}

/-- A sound store in which the size of every cell is what it should be. -/
structure Formed (s : Store) : Prop where
  sound : s.Sound
  sized : ∀ c, (s.cell c).Sized

/-- A computation gives a result with the property `V`, or refuses the data, or stops for a reason
in `E`. -/
def Answers (E : Abort → Prop) (V : α → Prop) : Except Failure α → Prop
  | .ok a => V a
  | .error (.data _) => True
  | .error (.abort a) => E a

theorem Answers.bind {x : Except Failure α} {f : α → Except Failure β} (hx : Answers E V x)
    (hf : ∀ a, V a → Answers E W (f a)) : Answers E W (x >>= f) := by
  rcases x with (_ | _) | a
  · exact hx
  · exact hx
  · exact hf a hx

theorem Answers.map {x : Except Failure α} {f : α → β} (hx : Answers E V x)
    (hf : ∀ a, V a → W (f a)) : Answers E W (x.map f) := by
  rcases x with (_ | _) | a
  · exact hx
  · exact hx
  · exact hf a hx

theorem Answers.mono {E' : Abort → Prop} {V' : α → Prop} {x : Except Failure α}
    (hx : Answers E V x) (hE : ∀ a, E a → E' a) (hV : ∀ a, V a → V' a) : Answers E' V' x := by
  rcases x with (_ | _) | a
  · exact hx
  · exact hE _ hx
  · exact hV a hx

theorem answers_mapError {x : Except Abort α} (hok : ∀ a, x = .ok a → V a)
    (herr : ∀ e, x = .error e → E e) : Answers E V (x.mapError .abort) := by
  cases x with
  | ok a => exact hok a rfl
  | error e => exact herr e rfl

/-- Nothing aborts. -/
abbrev Never : Abort → Prop := fun _ => False

theorem Answers.of_never {x : Except Failure α} (hx : Answers Never V x) : Answers E V x :=
  hx.mono (fun _ => False.elim) fun _ => id

/-! ### Elements -/

/-- A container that is not void shows a part of a buffer of its type. -/
theorem buffer_of_type (h : s.type c ≠ .void) : ∃ i data, (s.rootCell c).buffer = some i ∧
    s.buffers[i]? = some data ∧ s.buffer? c = some data ∧ data.type = s.type c := by
  cases hb : s.buffer? c with
  | none => simp [type, hb] at h
  | some data =>
    obtain ⟨i, hi, hdata⟩ := Option.bind_eq_some_iff.mp hb
    exact ⟨i, data, hi, hdata, rfl, by simp [type, hb]⟩

theorem Sound.size_eq (hs : s.Sound) (h : s.type c ≠ .void) :
    s.size c = elementCount (s.lengths c) := by
  obtain ⟨i, data, hi, hdata, -, -⟩ := buffer_of_type h
  exact (hs.shows_buffer hi hdata).size_eq

theorem Sound.fits (hs : s.Sound) {data : Lanes} (h : s.buffer? c = some data) :
    (s.offset c : Int) + s.size c ≤ data.size := by
  obtain ⟨i, hi, hdata⟩ := Option.bind_eq_some_iff.mp h
  exact (hs.shows_buffer hi hdata).fits

/-- A number of elements is what the size and the lengths of a container say. -/
structure Counted (s : Store) (c : CellId) (n : Nat) : Prop where
  eq_size : n = (s.size c).toNat
  eq_lengths : n = (elementCount (s.lengths c)).toNat

theorem Formed.exists_window (hs : s.Formed) (h : s.type c ≠ .void) : ∃ data,
    s.window c = .ok data ∧ data.type = s.type c ∧ s.Counted c data.size := by
  obtain ⟨i, data, hi, hdata, hb, -⟩ := buffer_of_type h
  have hfit := hs.sound.fits hb
  have hpos : 0 ≤ (s.rootCell c).size := (hs.sized _).nonneg hi
  simp only [offset, size] at hfit
  have hw : s.window c = .ok (data.extract (s.rootCell c).offset (s.rootCell c).size.toNat) := by
    simp only [window, hb]
    rw [if_neg (by omega)]
  obtain ⟨htype, hsize⟩ := window_ok hs.sound hw
  exact ⟨_, hw, htype.symm, by rw [hs.sound.size_eq h, hsize], hsize⟩

theorem Formed.answers_readInts (hs : s.Formed) :
    Answers Never (fun xs => s.Counted c xs.size) (s.readInts c) := by
  unfold readInts
  split
  · trivial
  · rename_i ht
    rw [not_not] at ht
    obtain ⟨data, hw, htype, hsize⟩ := hs.exists_window (c := c) (by simp [ht])
    rw [ht] at htype
    cases data <;> cases htype
    simpa [lanes, hw, Answers, Except.mapError, Lanes.size] using hsize

theorem Formed.answers_readFloats (hs : s.Formed) :
    Answers Never (fun xs => s.Counted c xs.size) (s.readFloats c) := by
  unfold readFloats
  split
  · trivial
  · rename_i ht
    have ht : s.type c = .float ∨ s.type c = .int := by
      rw [not_and_or, not_not, not_not] at ht
      exact ht
    obtain ⟨data, hw, htype, hsize⟩ := hs.exists_window (c := c) (by rcases ht with h | h <;> simp [h])
    rcases ht with ht | ht <;> rw [ht] at htype <;> cases data <;> cases htype <;>
      simpa [lanes, hw, Answers, Except.mapError, Lanes.size] using hsize

theorem Formed.answers_readBools (hs : s.Formed) :
    Answers Never (fun xs => s.Counted c xs.size) (s.readBools c) := by
  unfold readBools
  split
  · trivial
  · rename_i ht
    rw [not_not] at ht
    obtain ⟨data, hw, htype, hsize⟩ := hs.exists_window (c := c) (by simp [ht])
    rw [ht] at htype
    cases data <;> cases htype
    simpa [lanes, hw, Answers, Except.mapError, Lanes.size] using hsize

theorem Formed.answers_readStrings (hs : s.Formed) :
    Answers Never (fun xs => s.Counted c xs.size) (s.readStrings c) := by
  unfold readStrings
  split
  · trivial
  · rename_i ht
    obtain ⟨data, hw, htype, hsize⟩ := hs.exists_window (c := c) (by simpa [isVoid] using ht)
    cases data <;> simpa [lanes, hw, Answers, Except.mapError, Lanes.size] using hsize

theorem Formed.answers_readAs (hs : s.Formed) : Answers Never
    (fun data => s.Counted c data.size) (s.readAs ty c) := by
  unfold readAs
  cases ty with
  | int => exact hs.answers_readInts.map fun _ h => h
  | float => exact hs.answers_readFloats.map fun _ h => h
  | bool => exact hs.answers_readBools.map fun _ h => h
  | string => exact hs.answers_readStrings.map fun _ h => h
  | void | any => trivial

/-- A scalar accessor succeeds on a container of its type that has an element. -/
theorem Sound.exists_scalar (hs : s.Sound) (operation : String) (ht : s.type c = ty)
    (hty : ty ≠ .void) (hsize : 1 ≤ s.size c) :
    ∃ v, s.scalarAs operation c ty = .ok v ∧ v.type = ty := by
  obtain ⟨i, data, -, -, hb, htype⟩ := buffer_of_type (s := s) (c := c) (by rw [ht]; exact hty)
  have hfit := hs.fits hb
  have hlt : s.offset c < data.size := by omega
  obtain ⟨v, hv, hvt⟩ : ∃ v, data.get? (s.offset c) = some v ∧ v.type = data.type := by
    cases data <;> simp only [Lanes.size] at hlt <;> simp [Lanes.get?, hlt, Scalar.type, Lanes.type]
  refine ⟨v, ?_, hvt.trans (htype.trans ht)⟩
  simp [scalarAs, ht, hb, hv]

theorem Sound.exists_int (hs : s.Sound) (ht : s.type c = .int) (hsize : 1 ≤ s.size c) :
    ∃ v, s.int c = .ok v := by
  obtain ⟨v, hv, htype⟩ := hs.exists_scalar (accessorName .int) ht (by decide) hsize
  cases v with
  | int v => exact ⟨v, by simp [int, scalar, hv]⟩
  | float | bool | string => cases htype

theorem Sound.exists_string (hs : s.Sound) (ht : s.type c = .string) (hsize : 1 ≤ s.size c) :
    ∃ v, s.string c = .ok v := by
  obtain ⟨v, hv, htype⟩ := hs.exists_scalar (accessorName .string) ht (by decide) hsize
  cases v with
  | string v => exact ⟨v, by simp [string, scalar, hv]⟩
  | int | float | bool => cases htype

theorem Sound.size_of_rank (hs : s.Sound) (ht : s.type c ≠ .void) (hr : s.rank c = 0) :
    s.size c = 1 := by
  rw [hs.size_eq ht, List.eq_nil_of_length_eq_zero hr, elementCount_nil]

theorem Sound.int_of_scalar (hs : s.Sound) (ht : s.type c = .int) (hr : s.rank c = 0) :
    ∃ v, s.int c = .ok v := by
  have hsize := hs.size_of_rank (c := c) (by simp [ht]) hr
  exact hs.exists_int ht (by omega)

theorem Lanes.type_of_get? {data : Lanes} {i : Nat} {v : Scalar} (h : data.get? i = some v) :
    v.type = data.type := by
  cases data <;> simp only [Lanes.get?, Option.map_eq_some_iff] at h <;> obtain ⟨_, -, rfl⟩ := h <;>
    rfl

theorem scalarAs_type {operation : String} {v : Scalar}
    (h : s.scalarAs operation c ty = .ok v) : v.type = ty := by
  unfold scalarAs at h
  split at h
  · cases h
  · rename_i ht
    rw [not_not] at ht
    split at h
    · rename_i w hw
      cases h
      obtain ⟨data, hb, hv⟩ := Option.bind_eq_some_iff.mp hw
      rw [Lanes.type_of_get? hv, ← ht]
      simp [type, hb]
    · cases h

theorem scalarAs_error {operation : String} {e : Abort}
    (h : s.scalarAs operation c ty = .error e) : e.IsFault operation := by
  unfold scalarAs at h
  split at h
  · cases h
    rfl
  · split at h
    · cases h
    · cases h
      rfl

theorem int_error {e : Abort} (h : s.int c = .error e) : e.IsFault (accessorName .int) := by
  unfold int scalar at h
  cases hv : s.scalarAs (accessorName .int) c .int with
  | error e' =>
    rw [hv] at h
    cases h
    exact scalarAs_error hv
  | ok v =>
    have htype := scalarAs_type hv
    cases v with
    | int v => simp [hv] at h
    | float | bool | string => cases htype

theorem string_error {e : Abort} (h : s.string c = .error e) :
    e.IsFault (accessorName .string) := by
  unfold string scalar at h
  cases hv : s.scalarAs (accessorName .string) c .string with
  | error e' =>
    rw [hv] at h
    cases h
    exact scalarAs_error hv
  | ok v =>
    have htype := scalarAs_type hv
    cases v with
    | string v => simp [hv] at h
    | int | float | bool => cases htype

/-! ### Allocation -/

/-- The ways in which an allocation is impossible. -/
inductive Unallocatable : Abort → Prop
  | negative {n : Int} : n < 0 → Unallocatable
      (.fault { operation := "alloc", detail := "negative length " ++ toString n })
  | oversized : Unallocatable .oversized

theorem alloc_error {e : Abort} (hty : ty.isConcrete = true)
    (h : s.alloc c ty lengths = .error e) : Unallocatable e := by
  unfold alloc at h
  split at h
  · cases h
  · split at h
    · rename_i n hn
      cases h
      exact .negative (by simpa using List.find?_some hn)
    · simp only [hty, Bool.not_true, Bool.false_eq_true, if_false] at h
      split at h
      · cases h
        exact .oversized
      · rename_i hal
        split at h
        · rename_i data hdata
          simp only [isAllocatable, Bool.not_eq_true', Bool.not_eq_false, Bool.and_eq_true,
            decide_eq_true_eq] at hal
          have hsize := Lanes.size_zeros? hdata
          simp only [setData] at h
          rw [if_neg (by omega)] at h
          cases h
        · cases h
          exact .oversized

theorem answers_alloc (hty : ty.isConcrete = true) :
    Answers Unallocatable (fun _ => True) ((s.alloc c ty lengths).mapError .abort) :=
  answers_mapError (fun _ _ => trivial) fun _ => alloc_error hty

theorem answers_deliver (data : Lanes) :
    Answers Unallocatable (fun _ => True) (s.deliver c lengths data) := by
  refine Answers.bind (V := fun _ => True) ?_ fun _ _ => trivial
  unfold prepare
  split
  · trivial
  · exact answers_alloc data.isConcrete_type

/-- An instruction that delivers a result can only fail to allocate, besides what its result fails
for. -/
theorem answers_receive {r : Except Failure (List Int × Lanes)} (hE : ∀ e, Unallocatable e → E e)
    (hr : Answers E (fun _ => True) r) : Answers E (fun _ => True) (s.receive c r) :=
  hr.bind fun x _ => (answers_deliver x.2).mono hE fun _ _ => trivial

theorem answers_allocateLike :
    Answers Unallocatable (fun _ => True) (s.allocateLike ty c d) := by
  simp only [allocateLike]
  generalize (if ty.isConcrete then ty else s.type d) = ty'
  split
  · trivial
  · rename_i hty
    exact answers_alloc (by simpa using hty)

theorem Formed.answers_readLength (hs : s.Formed) :
    Answers Never (fun _ => True) (s.readLength c) := by
  unfold readLength
  split
  · trivial
  · rename_i h
    rw [not_or, not_not, not_not] at h
    obtain ⟨v, hv⟩ := hs.sound.exists_int h.1 (by omega)
    simp only [hv, Except.mapError, ok_bind]
    split <;> trivial

theorem answers_mapM {f : α → Except Failure β} (hf : ∀ a, Answers E (fun _ => True) (f a))
    (xs : List α) : Answers E (fun _ => True) (xs.mapM f) := by
  induction xs with
  | nil => trivial
  | cons x xs ih =>
    rw [List.mapM_cons]
    exact (hf x).bind fun _ _ => ih.bind fun _ _ => trivial

theorem Formed.answers_allocate (hs : s.Formed) {cs : List CellId} :
    Answers Unallocatable (fun _ => True) (s.allocate ty c cs) := by
  unfold allocate
  split
  · trivial
  · rename_i hty
    refine (answers_mapM (fun _ => hs.answers_readLength) cs).of_never.bind fun _ _ => ?_
    exact answers_alloc (by simpa using hty)

/-! ### Results -/

theorem answers_broadcastLengths : Answers Never
    (fun ls => (s.rank a = 0 ∨ ls = s.lengths a) ∧ (s.rank b = 0 ∨ ls = s.lengths b))
    (s.broadcastLengths a b) := by
  unfold broadcastLengths
  split
  · rename_i ha
    exact ⟨.inl ha, .inr rfl⟩
  · split
    · rename_i h
      exact ⟨.inr rfl, h⟩
    · trivial

/-- A source is as long as the result, or has a single element. -/
theorem exists_broadcast {xs : Array α} (hxs : s.Counted c xs.size)
    (h : s.rank c = 0 ∨ lengths = s.lengths c) :
    ∃ ys, broadcast (elementCount lengths).toNat xs = .ok ys := by
  unfold broadcast
  split
  · exact ⟨xs, rfl⟩
  · rename_i hne
    rcases h with h | rfl
    · have hone := hxs.eq_lengths
      rw [List.eq_nil_of_length_eq_zero h, elementCount_nil] at hone
      have hlt : 0 < xs.size := by simp [hone]
      exact ⟨_, by rw [Array.getElem?_eq_getElem hlt]⟩
    · exact absurd hxs.eq_lengths hne

theorem answers_combine {xs ys : Array α} {f : α → α → β} (hxs : s.Counted a xs.size)
    (hys : s.Counted b ys.size)
    (h : (s.rank a = 0 ∨ lengths = s.lengths a) ∧ (s.rank b = 0 ∨ lengths = s.lengths b)) :
    Answers Never (fun _ => True) (combine f lengths xs ys) := by
  obtain ⟨us, hus⟩ := exists_broadcast hxs h.1
  obtain ⟨vs, hvs⟩ := exists_broadcast hys h.2
  simp [combine, hus, hvs, Answers]

theorem Formed.answers_arithmeticResult (hs : s.Formed) (op : Arithmetic) :
    Answers Never (fun _ => True) (s.arithmeticResult op ty a b) := by
  refine answers_broadcastLengths.bind fun ls hls => ?_
  cases ty with
  | int =>
    refine hs.answers_readInts.bind fun xs hxs => hs.answers_readInts.bind fun ys hys => ?_
    refine Answers.bind (V := fun _ => True) ?_ fun _ _ =>
      (answers_combine hxs hys hls).bind fun _ _ => trivial
    unfold checkDivisors
    split <;> trivial
  | float =>
    refine hs.answers_readFloats.bind fun xs hxs => hs.answers_readFloats.bind fun ys hys => ?_
    exact (answers_combine hxs hys hls).bind fun _ _ => trivial
  | string =>
    dsimp only
    split
    · trivial
    · refine hs.answers_readStrings.bind fun xs hxs => hs.answers_readStrings.bind fun ys hys => ?_
      exact (answers_combine hxs hys hls).bind fun _ _ => trivial
  | bool | void | any => trivial

theorem Formed.answers_compareResult (hs : s.Formed) (op : Comparison) :
    Answers Never (fun _ => True) (s.compareResult op ty a b) := by
  refine answers_broadcastLengths.bind fun ls hls => ?_
  cases ty with
  | int =>
    refine hs.answers_readInts.bind fun xs hxs => hs.answers_readInts.bind fun ys hys => ?_
    exact (answers_combine hxs hys hls).bind fun _ _ => trivial
  | float =>
    refine hs.answers_readFloats.bind fun xs hxs => hs.answers_readFloats.bind fun ys hys => ?_
    exact (answers_combine hxs hys hls).bind fun _ _ => trivial
  | string =>
    refine hs.answers_readStrings.bind fun xs hxs => hs.answers_readStrings.bind fun ys hys => ?_
    exact (answers_combine hxs hys hls).bind fun _ _ => trivial
  | bool =>
    cases op.onBools? with
    | none => trivial
    | some f =>
      refine hs.answers_readBools.bind fun xs hxs => hs.answers_readBools.bind fun ys hys => ?_
      exact (answers_combine hxs hys hls).bind fun _ _ => trivial
  | void | any => trivial

theorem Formed.answers_connectResult (hs : s.Formed) (op : Connective) :
    Answers Never (fun _ => True) (s.connectResult op ty a b) := by
  unfold connectResult
  split
  · trivial
  · refine hs.answers_readBools.bind fun xs hxs => ?_
    split
    · trivial
    · refine answers_broadcastLengths.bind fun ls hls => hs.answers_readBools.bind fun ys hys => ?_
      exact (answers_combine hxs hys hls).bind fun _ _ => trivial

theorem Formed.answers_negateResult (hs : s.Formed) :
    Answers Never (fun _ => True) (s.negateResult ty a) := by
  cases ty with
  | int => exact hs.answers_readInts.bind fun _ _ => trivial
  | float => exact hs.answers_readFloats.bind fun _ _ => trivial
  | bool | string | void | any => trivial

theorem Formed.answers_complementResult (hs : s.Formed) :
    Answers Never (fun _ => True) (s.complementResult ty a) := by
  unfold complementResult
  split
  · trivial
  · exact hs.answers_readBools.bind fun _ _ => trivial

theorem Formed.answers_moveResult (hs : s.Formed) (intoScalar : Bool) :
    Answers Never (fun _ => True) (s.moveResult ty intoScalar a) := by
  simp only [moveResult]
  generalize (if ty.isConcrete then ty else s.type a) = ty'
  split
  · trivial
  · split
    · split
      · trivial
      · exact hs.answers_readAs.map fun _ _ => trivial
    · exact hs.answers_readAs.map fun _ _ => trivial

theorem answers_mapM_array {f : α → Except Failure β} (hf : ∀ a, Answers E (fun _ => True) (f a))
    (xs : Array α) : Answers E (fun _ => True) (xs.mapM f) := by
  rw [Array.mapM_eq_mapM_toList]
  exact (answers_mapM hf xs.toList).map fun _ _ => trivial

theorem answers_textToInt (text : String) : Answers Never (fun _ => True) (textToInt text) := by
  unfold textToInt
  split
  · trivial
  · split
    · trivial
    · split <;> trivial

theorem answers_textToFloat (text : String) :
    Answers Never (fun _ => True) (textToFloat text) := by
  unfold textToFloat
  split <;> trivial

theorem Formed.answers_castLanes (hs : s.Formed) (hc : s.type c ≠ .void) :
    Answers Never (fun _ => True) (s.castLanes ty c) := by
  obtain ⟨data, hw, -, -⟩ := hs.exists_window hc
  simp only [castLanes, lanes, hw, Except.mapError, ok_bind]
  cases ty with
  | int =>
    cases data with
    | strings xs => exact (answers_mapM_array answers_textToInt xs).map fun _ _ => trivial
    | ints | floats | bools => trivial
  | float =>
    cases data with
    | strings xs => exact (answers_mapM_array answers_textToFloat xs).map fun _ _ => trivial
    | ints | floats | bools => trivial
  | bool => cases data <;> trivial
  | string => exact hs.answers_readStrings.map fun _ _ => trivial
  | void | any => trivial

theorem Formed.answers_castResult (hs : s.Formed) (into : Shape) :
    Answers Never (fun _ => True) (s.castResult ty into a) := by
  unfold castResult
  split
  · trivial
  · rename_i hvoid
    split
    · trivial
    · exact (hs.answers_castLanes (by simpa [isVoid] using hvoid)).map fun _ _ => trivial

theorem Formed.answers_fillResult (hs : s.Formed) (into : Shape) :
    Answers Never (fun _ => True) (s.fillResult ty into a) := by
  unfold fillResult
  split
  · trivial
  · split
    · trivial
    · rename_i hsize
      rw [not_not] at hsize
      refine hs.answers_readAs.bind fun data hdata => ?_
      have hone : data.size = 1 := by
        rw [hdata.eq_size, hsize]
        rfl
      obtain ⟨v, rfl, -⟩ := Lanes.eq_ofScalar hone
      cases v <;> trivial

/-! ### Elements of arrays -/

/-- The number of elements that lengths describe, however large. -/
def elementTotal (lengths : List Int) : Int := lengths.foldr (· * ·) 1

theorem elementTotal_pos (h : ∀ n ∈ lengths, 0 < n) : 0 < elementTotal lengths := by
  induction lengths with
  | nil => decide
  | cons n ls ih =>
    exact Int.mul_pos (h n (by simp)) (ih fun k hk => h k (by simp [hk]))

/-- An index that is computed lies in the array, unless the number of elements does not fit
64 bits. -/
theorem Formed.answers_flatIndexFrom (hs : s.Formed) (indices : List CellId) (flat : Int)
    (h : indices.length = lengths.length) :
    Answers Never (fun k => (∀ n ∈ lengths, 0 < n) ∧ ∀ rows : Int, 0 ≤ flat → flat < rows →
      rows * elementTotal lengths < 2 ^ 63 → 0 ≤ k ∧ k < rows * elementTotal lengths)
      (s.flatIndexFrom flat lengths indices) := by
  induction lengths generalizing flat indices with
  | nil =>
    refine ⟨by simp, fun rows h₀ hlt _ => ⟨h₀, ?_⟩⟩
    simpa [elementTotal] using hlt
  | cons n ls ih =>
    rcases indices with _ | ⟨c, cs⟩
    · cases h
    simp only [flatIndexFrom]
    split
    · trivial
    · rename_i hc
      rw [not_or, not_not, not_not] at hc
      obtain ⟨v, hv⟩ := hs.sound.exists_int hc.1 (by omega)
      simp only [hv, Except.mapError, ok_bind]
      split
      · trivial
      · rename_i hi
        rw [not_or, Int.not_lt, Int.not_le] at hi
        refine (ih cs _ (by simpa using h)).mono (fun _ => id) fun k hin => ?_
        obtain ⟨hpos, hk⟩ := hin
        have hn : 0 < n := Int.lt_of_le_of_lt hi.1 hi.2
        refine ⟨by simpa using ⟨hn, hpos⟩, fun rows h₀ hlt hbound => ?_⟩
        have htotal := elementTotal_pos hpos
        have heq : rows * elementTotal (n :: ls) = rows * n * elementTotal ls :=
          (Int.mul_assoc _ _ _).symm
        rw [heq] at hbound ⊢
        -- the rows above are no more than all elements, so nothing has overflowed yet
        have hrow : (flat + 1) * n ≤ rows * n :=
          Int.mul_le_mul_of_nonneg_right (by omega) (Int.le_of_lt hn)
        have hflat : 0 ≤ flat * n := Int.mul_nonneg h₀ (Int.le_of_lt hn)
        rw [Int.add_mul, Int.one_mul] at hrow
        have hall : rows * n * 1 ≤ rows * n * elementTotal ls :=
          Int.mul_le_mul_of_nonneg_left htotal (by omega)
        rw [Int.mul_one] at hall
        rw [wrap_of_lt (by omega) (by omega)] at hk
        exact hk (rows * n) (by omega) (by omega) hbound

theorem Formed.answers_flatIndex (hs : s.Formed) {indices : List CellId} :
    Answers Never (fun k => indices.length = s.rank a ∧
      (elementTotal (s.lengths a) < 2 ^ 63 →
        0 ≤ k ∧ k < elementTotal (s.lengths a))) (s.flatIndex a indices) := by
  unfold flatIndex
  split
  · trivial
  · rename_i hrank
    rw [not_not] at hrank
    refine (hs.answers_flatIndexFrom indices 0 hrank).mono (fun _ => id) fun k hin => ?_
    refine ⟨hrank, fun hlt => ?_⟩
    simpa using hin.2 1 (by decide) (by decide) (by simpa using hlt)

/-- Taking an element fails because the lengths of the array multiply past 64 bits. -/
def Unindexable (lengths : List Int) (e : Abort) : Prop :=
  2 ^ 63 ≤ elementTotal lengths ∧ e.IsFault "element view"

/-- An index inside an array can be shown. -/
theorem Formed.setElementView_error (hs : s.Formed) {i : Int} {e : Abort}
    (h : s.setElementView c a i = .error e) :
    ¬ (0 ≤ i ∧ i < s.size a) ∧ e.IsFault "element view" := by
  simp only [setElementView] at h
  split at h
  · rename_i hi
    cases h
    exact ⟨fun hin => by simp only [size] at hin; omega, rfl⟩
  · rename_i hi
    rw [not_or, Int.not_lt, Int.not_le] at hi
    cases hb : s.buffer? a with
    | none =>
      -- nothing can be inside a void array
      have hnone : (s.rootCell a).buffer = none := by
        cases hr : (s.rootCell a).buffer with
        | none => rfl
        | some j => simp [buffer?, lanes?, hr, hs.sound.buffer_lt hr] at hb
      have := (hs.sized _).void hnone
      simp only [rootCell] at hi
      omega
    | some data =>
      have hfit := hs.sound.fits hb
      simp only [bufferSize, hb, Option.elim_some, offset, size] at h hfit
      rw [if_neg (by omega)] at h
      cases h

theorem Formed.unindexable (hs : s.Formed) {i : Int} {e : Abort} (hne : s.lengths a ≠ [])
    (hi : elementTotal (s.lengths a) < 2 ^ 63 → 0 ≤ i ∧ i < elementTotal (s.lengths a))
    (h : s.setElementView c a i = .error e) : Unindexable (s.lengths a) e := by
  obtain ⟨hout, hf⟩ := hs.setElementView_error h
  refine ⟨Int.not_lt.mp fun hlt => hout ?_, hf⟩
  have hin := hi hlt
  have hsize : s.size a = elementTotal (s.lengths a) := by
    refine ((hs.sized _).size_eq hne).trans ?_
    exact wrap_of_lt (i := elementTotal (s.lengths a)) (by omega) hlt
  rwa [hsize]

theorem ne_nil_of_index {indices : List CellId} (h : indices ≠ [])
    (hlen : indices.length = s.rank a) : s.lengths a ≠ [] := by
  intro hnil
  rw [rank, hnil] at hlen
  exact h (List.eq_nil_of_length_eq_zero hlen)

theorem Formed.answers_referElement (hs : s.Formed) {indices : List CellId}
    (h : indices ≠ []) : Answers (Unindexable (s.lengths a)) (fun _ => True)
      (s.referElement c a indices) := by
  refine hs.answers_flatIndex.of_never.bind fun i hi => ?_
  exact answers_mapError (fun _ _ => trivial) fun e he =>
    hs.unindexable (ne_nil_of_index h hi.1) hi.2 he

/-! ### Edits keep a store well formed -/

/-- Whatever keeps a store well formed. -/
def forming : Grant where
  stores _ := True
  frees _ := True
  links s _ d := d < s.cells.size
  views _ _ _ := True
  hosts s t := s.cells.size ≤ t.cells.size ∧ (s.Sound → t.Sound) ∧
    (s.Formed → ∀ c, (t.cell c).Sized)

theorem sized_empty : ({} : Cell).Sized := ⟨by simp, by simp, by simp⟩

theorem sized_setCell {f : Cell → Cell} (h : ∀ d, (s.cell d).Sized) (hf : (f (s.cell c)).Sized) :
    ∀ d, ((s.setCell c f).cell d).Sized := by
  intro d
  rw [cell_setCell]
  split
  · rename_i hcd
    exact hcd.1 ▸ hf
  · exact h d

theorem sized_relinked {x : Cell} (h : x.Sized) (target : Option CellId) :
    ({ x with target := target } : Cell).Sized :=
  ⟨h.size_eq, h.nonneg, h.void⟩

theorem sized_presented {x : Cell} {i : Option BufferId} {offset : Nat}
    (hpos : i ≠ none → 0 ≤ elementCount lengths) (hvoid : i = none → elementCount lengths ≤ 0) :
    (presented x i offset lengths).Sized :=
  ⟨fun _ => rfl, fun {j} hj => hpos (by rw [show i = some j from hj]; simp), hvoid⟩

theorem Edit.formed (he : Edit forming s t) (h : s.Formed) : t.Formed := by
  refine ⟨he.sound (g := forming) id (fun ht => ht.2.1) h.sound, ?_⟩
  cases he with
  | fresh => exact fun d => by simpa using h.sized d
  | renew _ hpos _ => exact sized_setCell h.sized (sized_presented (fun _ => hpos) (by simp))
  | clear _ hn => exact sized_setCell h.sized (sized_presented (by simp) fun _ => hn)
  | write => exact fun d => by simpa using h.sized d
  | free => exact sized_setCell h.sized sized_empty
  | link =>
    unfold Store.link
    dsimp only
    split
    · exact h.sized
    · exact sized_setCell h.sized (sized_relinked (h.sized _) _)
  | @view c array data offset _ hb _ =>
    refine sized_setCell h.sized (sized_presented (fun _ => by decide) fun hnone => ?_)
    simp [buffer?, lanes?, hnone] at hb
  | host ht => exact ht.2.2 h

theorem Alters.formed (ha : Alters forming s t) (h : s.Formed) : t.Formed :=
  Alters.keeps Edit.formed ha h

theorem Formed.unlink (h : s.Formed) (c : CellId) : (s.unlink c).Formed :=
  ⟨(Touches.unlink region_true trivial).sound h.sound,
    sized_setCell h.sized (sized_relinked (h.sized _) _)⟩

theorem Formed.unlinkAll (h : s.Formed) (cs : List CellId) : (cs.foldl Store.unlink s).Formed := by
  induction cs generalizing s with
  | nil => exact h
  | cons c cs ih => exact ih (h.unlink c)

theorem Holds.sized {o : Option Scalar} (h : s.Holds c o) : (s.cell c).Sized := by
  cases o with
  | none =>
    change s.cell c = {} at h
    exact h ▸ sized_empty
  | some v =>
    obtain ⟨i, hi, -⟩ := h
    rw [hi]
    exact ⟨by simp, by simp, by simp⟩

/-- Reading an element fails only in an array whose elements cannot be numbered. -/
theorem Formed.answers_elementResult (hs : s.Formed) {indices : List CellId}
    (h : indices ≠ []) : Answers (Unindexable (s.lengths a)) (fun _ => True)
      (s.elementResult ty a indices) := by
  refine hs.answers_flatIndex.of_never.bind fun i hi => ?_
  have hs' : s.fresh.2.Formed := Edit.formed .fresh hs
  have hroot : s.fresh.2.root a = s.root a :=
    root_congr hs.sound.grounded (fun _ => by rw [cell_fresh]) a
  have hlengths : s.fresh.2.lengths a = s.lengths a := by
    rw [lengths, rootCell, hroot, cell_fresh]
    rfl
  dsimp only
  refine Answers.bind (V := fun t => t.Formed) (answers_mapError (fun t ht => ?_)
    fun e he => ?_) fun t ht => ?_
  · exact Edit.formed (.of_setElementView trivial ht) hs'
  · rw [← hlengths]
    exact hs'.unindexable (hlengths ▸ ne_nil_of_index h hi.1) (hlengths ▸ hi.2) he
  · exact ht.answers_readAs.of_never.map fun _ _ => trivial

end Store

end VectorMachine
