import VectorMachine.Proofs.Store.Formed

/-!
# The fields of a container

Whatever sequence of operations is applied to containers, the fields of each of them describe a part
of its buffer: as many elements as the product of its lengths, from an offset that only a scalar can
have.  The lengths handed in must not be negative, and their product must fit 64 bits.

An operation faults for the reasons of `Operation.Faults` and for no other, and then every container
is as before.
-/

namespace VectorMachine.Store
set_option autoImplicit false

variable {s t : Store} {c d : CellId} {ty : DataType} {lengths : List Int}

/-- Lengths that describe a number of elements in 64 bits. -/
structure Countable (lengths : List Int) : Prop where
  nonneg : ∀ n ∈ lengths, 0 ≤ n
  total_lt : elementTotal lengths < 2 ^ 63

theorem elementTotal_nonneg (h : ∀ n ∈ lengths, 0 ≤ n) : 0 ≤ elementTotal lengths := by
  induction lengths with
  | nil => decide
  | cons n ls ih =>
    exact Int.mul_nonneg (h n (by simp)) (ih fun k hk => h k (by simp [hk]))

theorem Countable.total_nonneg (h : Countable lengths) : 0 ≤ elementTotal lengths :=
  elementTotal_nonneg h.nonneg

theorem Countable.count_eq (h : Countable lengths) : elementCount lengths = elementTotal lengths :=
  wrap_of_lt h.total_nonneg h.total_lt

theorem countable_nil : Countable [] := ⟨by simp, by decide⟩

/-! ### What the fields say -/

/-- The fields of a container describe a part of its buffer. -/
structure Describes (s : Store) (x : Cell) : Prop where
  void : x.buffer = none → x.size = 0 ∧ x.offset = 0
  shown : ∀ {i}, x.buffer = some i → ∃ data, s.buffers[i]? = some data ∧
    x.size = elementTotal x.lengths ∧ x.offset + x.size ≤ data.size
  scalar : x.offset ≠ 0 → x.lengths = []
  countable : Countable x.lengths

/-- The fields of every container do. -/
def Represented (s : Store) : Prop := ∀ c, s.Describes (s.cell c)

theorem describes_empty : s.Describes {} :=
  ⟨fun _ => ⟨rfl, rfl⟩, by simp, fun h => absurd rfl h, countable_nil⟩

/-- What a container's fields say needs only the sizes of the buffers. -/
theorem Describes.of_sizes {x : Cell} (h : s.Describes x)
    (hsize : ∀ {i : BufferId} {data : Lanes}, s.buffers[i]? = some data →
      ∃ data', t.buffers[i]? = some data' ∧ data'.size = data.size) : t.Describes x := by
  refine ⟨h.void, fun hi => ?_, h.scalar, h.countable⟩
  obtain ⟨data, hdata, hcount, hfit⟩ := h.shown hi
  obtain ⟨data', hdata', heq⟩ := hsize hdata
  exact ⟨data', hdata', hcount, by rw [heq]; exact hfit⟩

theorem Describes.retarget {x : Cell} (h : s.Describes x) (r : Option CellId) :
    s.Describes { x with target := r } :=
  ⟨h.void, h.shown, h.scalar, h.countable⟩

theorem Represented.root (h : s.Represented) (c : CellId) : s.Describes (s.rootCell c) := h _

theorem Represented.setCell (h : s.Represented) {f : Cell → Cell}
    (hf : ∀ x, s.Describes x → s.Describes (f x)) : (s.setCell c f).Represented := by
  intro d
  suffices hd : s.Describes ((s.setCell c f).cell d) from hd.of_sizes fun hx => ⟨_, hx, rfl⟩
  rw [cell_setCell]
  split
  · exact hf _ (h d)
  · exact h d

theorem Represented.fresh (h : s.Represented) : s.fresh.2.Represented := by
  intro d
  rw [cell_fresh]
  exact (h d).of_sizes fun hx => ⟨_, hx, rfl⟩

theorem Represented.pushBuffer (h : s.Represented) (data : Lanes) :
    (s.pushBuffer data).Represented := fun d =>
  (h d).of_sizes fun hx => by
    rw [buffers_pushBuffer_of_lt data (Array.getElem?_eq_some_iff.mp hx).choose]
    exact ⟨_, hx, rfl⟩

theorem Represented.write (h : s.Represented) (data : Lanes) : (s.write c data).Represented := by
  intro d
  rw [cell_write]
  refine (h d).of_sizes fun {i old} hx => ?_
  unfold Store.write
  split
  · exact ⟨_, hx, rfl⟩
  · rename_i b _
    rw [Array.getElem?_modify]
    split
    · exact ⟨_, by rw [hx]; rfl, Lanes.size_overwrite _ _ _⟩
    · exact ⟨_, hx, rfl⟩

/-- A container may show elements that are there, from an offset if it is a scalar. -/
theorem Represented.present (h : s.Represented) {i : BufferId} {data : Lanes} {offset : Nat}
    (hdata : s.buffers[i]? = some data) (hl : Countable lengths)
    (hfit : offset + elementTotal lengths ≤ data.size) (hoff : offset ≠ 0 → lengths = []) :
    (s.present c (some i) offset lengths).Represented := by
  refine h.setCell fun x _ => ⟨by simp, fun hi => ?_, hoff, hl⟩
  cases hi
  exact ⟨data, hdata, hl.count_eq, by rw [hl.count_eq]; exact hfit⟩

theorem Represented.renew (h : s.Represented) {data : Lanes} (hl : Countable lengths)
    (hfit : elementTotal lengths ≤ data.size) : (s.renew c data lengths).Represented :=
  (h.pushBuffer data).present (buffers_pushBuffer_self data) hl (by simpa using hfit)
    fun hne => absurd rfl hne

/-! ### Making a container void or zero -/

/-- An array of this type and these lengths can be made: elements only of a concrete type, and no
more bytes than an allocation takes. -/
def Makeable (ty : DataType) (lengths : List Int) : Prop :=
  if ty.isConcrete then elementTotal lengths * Lanes.elementBytes ty ≤ greatestAllocation
  else elementTotal lengths = 0

theorem find?_neg_eq_none (hl : Countable lengths) : lengths.find? (· < 0) = none := by
  rw [List.find?_eq_none]
  intro n hn
  simpa using hl.nonneg n hn

/-- An allocation that is not needed changes nothing; any other one gives the root zero elements, or
makes it void. -/
theorem alloc_eq (hl : Countable lengths) (ha : s.isAllocated c ty lengths = false)
    (hm : Makeable ty lengths) : ty.isConcrete = false ∧
        s.alloc c ty lengths = .ok (s.present c none 0 lengths) ∨
      ∃ data : Lanes, data.size = elementTotal lengths ∧
        s.alloc c ty lengths = .ok (s.renew c data lengths) := by
  have hcount := hl.count_eq
  have hnonneg := hl.total_nonneg
  unfold Makeable at hm
  unfold alloc
  rw [if_neg (by simp [ha]), find?_neg_eq_none hl]
  by_cases hty : ty.isConcrete = true
  · rw [if_pos hty] at hm
    obtain ⟨data, hdata⟩ := Option.isSome_iff_exists.mp
      ((Lanes.zeros?_isSome ty (elementCount lengths).toNat).trans hty)
    have hsize := Lanes.size_zeros? hdata
    refine .inr ⟨data, by omega, ?_⟩
    have hfits : isAllocatable ty (elementCount lengths) = true := by
      simp only [isAllocatable, Bool.and_eq_true, decide_eq_true_eq]
      rw [hcount]
      exact ⟨hnonneg, hm⟩
    simp only [hty, hfits, hdata, Bool.not_true, Bool.false_eq_true, if_false]
    exact setData_eq_ok_iff.mpr ⟨by omega, rfl⟩
  · rw [if_neg hty] at hm
    simp only [Bool.not_eq_true] at hty
    refine .inl ⟨hty, ?_⟩
    simp only [hty, Bool.not_false, if_true]
    exact setVoid_eq_ok_iff.mpr ⟨by omega, rfl⟩

theorem alloc_of_not_makeable (hl : Countable lengths) (ha : s.isAllocated c ty lengths = false)
    (hm : ¬ Makeable ty lengths) : ∃ e, s.alloc c ty lengths = .error e := by
  have hcount := hl.count_eq
  have hnonneg := hl.total_nonneg
  unfold Makeable at hm
  unfold alloc
  rw [if_neg (by simp [ha]), find?_neg_eq_none hl]
  by_cases hty : ty.isConcrete = true
  · rw [if_pos hty] at hm
    refine ⟨.oversized, ?_⟩
    have hfits : isAllocatable ty (elementCount lengths) = false := by
      simp only [isAllocatable, Bool.and_eq_false_iff, decide_eq_false_iff_not]
      rw [hcount]
      exact .inr hm
    simp [hty, hfits]
  · rw [if_neg hty] at hm
    simp only [Bool.not_eq_true] at hty
    simp only [hty, Bool.not_false, if_true, setVoid]
    rw [if_pos (by omega)]
    exact ⟨_, rfl⟩

/-- Exactly when an allocation faults. -/
theorem alloc_error_iff (hl : Countable lengths) : (∃ e, s.alloc c ty lengths = .error e) ↔
    s.isAllocated c ty lengths = false ∧ ¬ Makeable ty lengths := by
  constructor
  · rintro ⟨e, he⟩
    have ha : s.isAllocated c ty lengths = false := by
      by_contra ha
      simp [alloc, Bool.not_eq_false _ ▸ ha] at he
    refine ⟨ha, fun hm => ?_⟩
    rcases alloc_eq hl ha hm with ⟨-, h⟩ | ⟨data, -, h⟩ <;> rw [h] at he <;> cases he
  · rintro ⟨ha, hm⟩
    exact alloc_of_not_makeable hl ha hm

theorem Represented.alloc (h : s.Represented) (hl : Countable lengths)
    (ha : s.alloc c ty lengths = .ok t) : t.Represented := by
  by_cases hsame : s.isAllocated c ty lengths = true
  · simp only [Store.alloc, hsame, if_true] at ha
    cases ha
    exact h
  simp only [Bool.not_eq_true] at hsame
  by_cases hm : Makeable ty lengths
  · rcases alloc_eq hl hsame hm with ⟨hty, h'⟩ | ⟨data, hsize, h'⟩
    · rw [h'] at ha
      cases ha
      have htotal : elementTotal lengths = 0 := by simpa [Makeable, hty] using hm
      exact h.setCell fun x _ => ⟨fun _ => ⟨hl.count_eq.trans htotal, rfl⟩, by simp,
        fun hne => absurd rfl hne, hl⟩
    · rw [h'] at ha
      cases ha
      exact h.renew hl (Int.le_of_eq hsize.symm)
  · obtain ⟨e, he⟩ := alloc_of_not_makeable (c := c) hl hsame hm
    rw [he] at ha
    cases ha

/-! ### Operations -/

/-- What a program can do to its containers. -/
inductive Operation where
  | newArray (ty : DataType) (lengths : List Int)
  | alloc (c : CellId) (ty : DataType) (lengths : List Int)
  | setData (c : CellId) (data : Lanes) (lengths : List Int)
  | setScalar (c : CellId) (x : Scalar)
  | setElementView (c array : CellId) (index : Int)
  | link (c target : CellId)
  | unlink (c : CellId)
  | clone (c : CellId)
  | free (c : CellId)

namespace Operation

variable {o : Operation}

/-- The lengths that are handed in are countable. -/
def Admits : Operation → Prop
  | .newArray _ lengths | .alloc _ _ lengths | .setData _ _ lengths => Countable lengths
  | _ => True

def apply (s : Store) : Operation → Except Abort Store
  | .newArray ty lengths => s.fresh.2.alloc s.fresh.1 ty lengths
  | .alloc c ty lengths => s.alloc c ty lengths
  | .setData c data lengths => s.setData c data lengths
  | .setScalar c x => s.setScalar c x
  | .setElementView c array index => s.setElementView c array index
  | .link c target => .ok (s.link c target)
  | .unlink c => .ok (s.unlink c)
  | .clone c => (s.clone c).map (·.2)
  | .free c => .ok (s.free c)

/-- Why an operation faults. -/
def Faults (s : Store) : Operation → Prop
  | .newArray ty lengths =>
    s.fresh.2.isAllocated s.fresh.1 ty lengths = false ∧ ¬ Makeable ty lengths
  | .alloc c ty lengths => s.isAllocated c ty lengths = false ∧ ¬ Makeable ty lengths
  | .setData _ data lengths => data.size < elementTotal lengths
  | .setScalar c x =>
    s.isVoid c = false ∧ (s.type c ≠ x.type ∨ s.bufferSize c ≤ s.offset c)
  | .setElementView _ array index => index < 0 ∨ s.size array ≤ index
  | .clone c => s.isVoid c = false ∧ ¬ Makeable (s.type c) (s.lengths c)
  | .link .. | .unlink _ | .free _ => False

end Operation

/-- The store after an operation; one that faults leaves it as it is. -/
def perform (s : Store) (o : Operation) : Store :=
  match o.apply s with
  | .ok t => t
  | .error _ => s

/-- Nothing of an operation's result is kept if it faults. -/
theorem perform_of_error {o : Operation} {e : Abort} (h : o.apply s = .error e) :
    s.perform o = s := by
  simp [perform, h]

/-! ### When operations fault -/

theorem Lanes.get?_eq_none_iff {data : Lanes} {i : Nat} : data.get? i = none ↔ data.size ≤ i := by
  cases data <;> simp [Lanes.get?, Lanes.size]

theorem scalarAs_error_iff {operation : String} (hty : ty ≠ .void) :
    (∃ e, s.scalarAs operation c ty = .error e) ↔ s.type c ≠ ty ∨ s.bufferSize c ≤ s.offset c := by
  unfold scalarAs
  by_cases ht : s.type c = ty
  · rw [if_neg (by simp [ht])]
    obtain ⟨i, data, -, -, hb, -⟩ := buffer_of_type (s := s) (c := c) (by rw [ht]; exact hty)
    simp only [hb, Option.bind_some, ht, ne_eq, not_true, false_or, bufferSize, Option.elim_some]
    rw [← Lanes.get?_eq_none_iff]
    cases data.get? (s.offset c) <;> simp
  · rw [if_pos ht]
    simp [ht]

theorem setScalar_error_iff {x : Scalar} : (∃ e, s.setScalar c x = .error e) ↔
    s.isVoid c = false ∧ (s.type c ≠ x.type ∨ s.bufferSize c ≤ s.offset c) := by
  have hty : x.type ≠ .void := by cases x <;> simp [Scalar.type]
  unfold setScalar
  by_cases hv : s.isVoid c = true
  · rw [if_pos hv]
    simp [setData, elementCount_nil, hv]
  · have hscalar : (∃ e, s.scalarAs ("set " ++ accessorName x.type) c x.type = .error e) ↔ _ :=
      scalarAs_error_iff hty
    rw [if_neg hv, ← hscalar]
    simp only [Bool.not_eq_true] at hv
    cases s.scalarAs ("set " ++ accessorName x.type) c x.type <;> simp [hv]

/-- The elements that a container shows are there. -/
theorem Represented.exists_window (h : s.Represented) (hv : s.isVoid c = false) :
    ∃ data, s.window c = .ok data := by
  obtain ⟨i, data, hi, hdata, hb, -⟩ := buffer_of_type (s := s) (c := c) (by simpa [isVoid] using hv)
  obtain ⟨data', hdata', hsize, hfit⟩ := (h.root c).shown hi
  have hnonneg := (h.root c).countable.total_nonneg
  rw [hdata] at hdata'
  cases hdata'
  simp only [window, hb]
  rw [if_neg (by omega)]
  exact ⟨_, rfl⟩

/-- Whatever lies inside the size of a container can be shown. -/
theorem Represented.setElementView_error_iff (h : s.Represented) {array : CellId} {index : Int} :
    (∃ e, s.setElementView c array index = .error e) ↔ index < 0 ∨ s.size array ≤ index := by
  simp only [setElementView, size]
  split
  · rename_i hi
    simp [hi]
  · rename_i hi
    simp only [hi, iff_false]
    cases hb : (s.rootCell array).buffer with
    | none =>
      have hsize := ((h.root array).void hb).1
      omega
    | some i =>
      obtain ⟨data, hdata, -, hfit⟩ := (h.root array).shown hb
      have hsize : s.bufferSize array = data.size := by
        simp [bufferSize, buffer?, lanes?, hb, hdata]
      rw [if_neg (by omega)]
      simp

theorem isAllocated_fresh (hty : ty ≠ .void) :
    s.fresh.2.isAllocated s.cells.size ty lengths = false := by
  have hcell : s.fresh.2.cell s.cells.size = {} := by
    rw [cell_fresh, cell_of_le (Nat.le_refl _)]
  have hroot : s.fresh.2.rootCell s.cells.size = {} := by
    rw [rootCell, root_eq_self (by rw [hcell]), hcell]
  simp [isAllocated, type, buffer?, lanes?, hroot, hty.symm]

theorem Represented.clone_error_iff (h : s.Represented) : (∃ e, s.clone c = .error e) ↔
    s.isVoid c = false ∧ ¬ Makeable (s.type c) (s.lengths c) := by
  simp only [clone]
  by_cases hv : s.isVoid c = true
  · simp [hv]
  simp only [Bool.not_eq_true] at hv
  obtain ⟨data, hw⟩ := h.exists_window hv
  have hne : s.type c ≠ .void := by simpa [isVoid] using hv
  have hl : Countable (s.lengths c) := (h.root c).countable
  have halloc : (∃ e, s.fresh.2.alloc s.fresh.1 (s.type c) (s.lengths c) = .error e) ↔ _ :=
    alloc_error_iff hl
  simp only [fresh_fst, isAllocated_fresh hne, true_and] at halloc
  simp only [hv, Bool.false_eq_true, if_false, true_and, hw]
  rw [← halloc]
  simp only [fresh_fst]
  cases s.fresh.2.alloc s.cells.size (s.type c) (s.lengths c) <;> simp

/-- An operation faults for the reasons listed, and for no other. -/
theorem Represented.error_iff (h : s.Represented) {o : Operation} (ho : o.Admits) :
    (∃ e, o.apply s = .error e) ↔ o.Faults s := by
  cases o with
  | newArray ty lengths => exact alloc_error_iff ho
  | alloc c ty lengths => exact alloc_error_iff ho
  | setData c data lengths =>
    have hcount := Countable.count_eq ho
    simp only [Operation.apply, Operation.Faults, setData]
    split <;> simp <;> omega
  | setScalar c x => exact setScalar_error_iff
  | setElementView c array index => exact h.setElementView_error_iff
  | clone c =>
    simp only [Operation.apply, Operation.Faults, ← h.clone_error_iff]
    cases s.clone c <;> simp [Except.map]
  | link c target | unlink c | free c => simp [Operation.apply, Operation.Faults]

/-! ### Sequences of operations -/

/-- An operation that succeeds leaves fields that describe parts of buffers. -/
theorem Represented.apply (h : s.Represented) {o : Operation} (ho : o.Admits)
    (ht : o.apply s = .ok t) : t.Represented := by
  cases o with
  | newArray ty lengths => exact h.fresh.alloc ho ht
  | alloc c ty lengths => exact h.alloc ho ht
  | setData c data lengths =>
    obtain ⟨hfit, rfl⟩ := setData_eq_ok_iff.mp ht
    exact h.renew ho (by rw [← Countable.count_eq ho]; exact hfit)
  | setScalar c x =>
    simp only [Operation.apply, setScalar] at ht
    split at ht
    · obtain ⟨hfit, rfl⟩ := setData_eq_ok_iff.mp ht
      exact h.renew countable_nil (by simp [elementTotal])
    · obtain ⟨_, -, ht⟩ := bind_eq_ok.mp ht
      cases ht
      exact h.write _
  | setElementView c array index =>
    obtain ⟨data, hb, hi, -, hfit, rfl⟩ := setElementView_ok ht
    obtain ⟨i, hi, hdata⟩ := Option.bind_eq_some_iff.mp hb
    rw [hi]
    exact h.present hdata countable_nil (by simp [elementTotal]; omega) fun _ => rfl
  | link c target =>
    simp only [Operation.apply, Store.link, Except.ok.injEq] at ht
    split at ht
    · cases ht
      exact h
    · cases ht
      exact h.setCell fun x hx => hx.retarget _
  | unlink c =>
    cases ht
    exact h.setCell fun x hx => hx.retarget _
  | clone c =>
    obtain ⟨⟨d, u⟩, hu, rfl⟩ := map_eq_ok.mp ht
    simp only [clone] at hu
    split at hu
    · cases hu
      exact h.fresh
    · obtain ⟨s₁, ha, hu⟩ := bind_eq_ok.mp hu
      obtain ⟨data, -, hu⟩ := bind_eq_ok.mp hu
      cases hu
      exact (h.fresh.alloc (h.root c).countable ha).write data
  | free c =>
    cases ht
    exact h.setCell fun _ _ => describes_empty

theorem Represented.perform (h : s.Represented) {o : Operation} (ho : o.Admits) :
    (s.perform o).Represented := by
  unfold Store.perform
  split
  · rename_i t ht
    exact h.apply ho ht
  · exact h

theorem Represented.performAll (h : s.Represented) {os : List Operation}
    (hos : ∀ o ∈ os, o.Admits) : (os.foldl Store.perform s).Represented := by
  induction os generalizing s with
  | nil => exact h
  | cons o os ih =>
    exact ih (h.perform (hos o (by simp))) fun o' ho' => hos o' (by simp [ho'])

theorem represented_freshMany (n : Nat) : (({} : Store).freshMany n).2.Represented := by
  intro c
  rw [cell_freshMany]
  exact describes_empty

/-- Start with void containers and apply any operations with countable lengths.  Then a void
container has size and offset zero; any other one shows as many elements as the product of its
lengths, all inside its buffer, and has an offset only if it is a scalar.  The next operation faults
exactly for the reasons of `Operation.Faults`, and every container is then as before. -/
theorem fields_of_performed (n : Nat) (os : List Operation) (hos : ∀ o ∈ os, o.Admits) :
    let s := os.foldl perform (({} : Store).freshMany n).2
    (∀ c, ((s.cell c).buffer = none → (s.cell c).size = 0 ∧ (s.cell c).offset = 0) ∧
      (∀ i, (s.cell c).buffer = some i → ∃ data, s.buffers[i]? = some data ∧
        (s.cell c).size = elementTotal (s.cell c).lengths ∧
        (s.cell c).offset + (s.cell c).size ≤ data.size ∧
        ((s.cell c).offset ≠ 0 → (s.cell c).lengths = []))) ∧
    ∀ o : Operation, o.Admits → ((∃ e, o.apply s = .error e) ↔ o.Faults s) ∧
      (o.Faults s → s.perform o = s) := by
  intro s
  have h : s.Represented := (represented_freshMany n).performAll hos
  refine ⟨fun c => ⟨(h c).void, fun i hi => ?_⟩, fun o ho => ?_⟩
  · obtain ⟨data, hdata, hsize, hfit⟩ := (h c).shown hi
    exact ⟨data, hdata, hsize, hfit, (h c).scalar⟩
  · refine ⟨h.error_iff ho, fun hf => ?_⟩
    obtain ⟨e, he⟩ := (h.error_iff ho).mpr hf
    exact perform_of_error he

/-- The second of two containers shows the last element of the first; an array of elements without a
type is then refused. -/
theorem fields_of_performed_view :
    let os : List Operation := [.setData 0 (.ints #[7, 8, 9]) [3], .setElementView 1 0 2]
    let s := os.foldl perform (({} : Store).freshMany 2).2
    (∀ o ∈ os, o.Admits) ∧ (s.cell 1).offset = 2 ∧ (s.cell 1).lengths = [] ∧
      (Operation.newArray .any [4]).Faults s ∧ s.perform (.newArray .any [4]) = s := by
  intro os s
  have hos : ∀ o ∈ os, o.Admits := by
    intro o ho
    rcases List.mem_pair.mp ho with rfl | rfl
    · exact ⟨by decide, by decide⟩
    · trivial
  obtain ⟨hcells, hnext⟩ := fields_of_performed 2 os hos
  have hoff : (s.cell 1).offset = 2 := rfl
  have hfault : (Operation.newArray .any [4]).Faults s := ⟨rfl, by simp [Makeable, elementTotal, DataType.isConcrete]⟩
  obtain ⟨_, -, -, -, hscalar⟩ := (hcells 1).2 0 rfl
  exact ⟨hos, hoff, hscalar (by rw [hoff]; decide), hfault,
    (hnext (.newArray .any [4]) ⟨by decide, by decide⟩).2 hfault⟩

end VectorMachine.Store
