import Mathlib.Logic.Relation
import VectorMachine.Proofs.Store.Regions
import VectorMachine.Interpreter.Elementwise
import VectorMachine.Interpreter.Transfer

/-!
# What the operations on containers change

Every operation that succeeds is a sequence of a few elementary edits: a new void cell, a new buffer
for the root of its destination, elements written into the buffer of that root, a cut or new link,
and a view of an element.  What an invariant of stores needs is that these edits keep it.  From
this, each operation touches only the region of its destination; an element view touches the
region of its array as well.
-/

namespace VectorMachine.Store
set_option autoImplicit false

variable {s t : Store} {c d : CellId} {C : CellId → Prop}

/-- The root of `c` with a new buffer that holds `data`. -/
def renew (s : Store) (c : CellId) (data : Lanes) (lengths : List Int) : Store :=
  (s.pushBuffer data).present c (some s.buffers.size) 0 lengths

theorem Touches.renew (h : s.Region C) (hc : C c) {data : Lanes} {lengths : List Int}
    (hfit : elementCount lengths ≤ data.size) : Touches C s (s.renew c data lengths) := by
  refine .present h hc (cells_pushBuffer data) (by simp)
    (fun i hi => buffers_pushBuffer_of_lt data hi) (fun i hi => ?_) fun i hi => ?_
  · cases hi
    exact .inr (Nat.le_refl _)
  · cases hi
    exact ⟨data, buffers_pushBuffer_self data, by simpa using hfit⟩

/-! ### Edits -/

/-- What a computation may do to containers: which it may store into, free, link to which, or make
show an element of which, and what host code may do besides. -/
structure Grant where
  stores : CellId → Prop
  frees : CellId → Prop := fun _ => False
  links : Store → CellId → CellId → Prop := fun _ _ _ => False
  views : Store → CellId → CellId → Prop := fun _ _ _ => False
  hosts : Store → Store → Prop := fun _ _ => False

/-- An elementary change of a store. -/
inductive Edit (g : Grant) (s : Store) : Store → Prop
  | fresh : Edit g s s.fresh.2
  | renew {c : CellId} {data : Lanes} {lengths : List Int} : g.stores c →
      0 ≤ elementCount lengths → elementCount lengths ≤ data.size →
      Edit g s (s.renew c data lengths)
  | clear {c : CellId} {lengths : List Int} : g.stores c → elementCount lengths ≤ 0 →
      Edit g s (s.present c none 0 lengths)
  | write {c : CellId} {data : Lanes} : g.stores c → Edit g s (s.write c data)
  | free {c : CellId} : g.frees c → Edit g s (s.free c)
  | link {c d : CellId} : g.links s c d → Edit g s (s.link c d)
  | view {c array : CellId} {data : Lanes} {offset : Nat} : g.views s c array →
      s.buffer? array = some data → offset + 1 ≤ data.size →
      Edit g s (s.present c (s.rootCell array).buffer offset [])
  | host {t : Store} : g.hosts s t → Edit g s t

/-- A sequence of elementary changes. -/
abbrev Alters (g : Grant) : Store → Store → Prop := Relation.ReflTransGen (Edit g)

theorem Alters.keeps {g : Grant} {I : Store → Prop} (hI : ∀ {s t}, Edit g s t → I s → I t)
    (h : Alters g s t) (hs : I s) : I t := by
  induction h with
  | refl => exact hs
  | tail _ he ih => exact hI he ih

/-- Host code loses no cell. -/
def Grant.Grows (g : Grant) : Prop := ∀ {s t}, g.hosts s t → s.cells.size ≤ t.cells.size

theorem Edit.size_le {g : Grant} (hg : g.Grows) (h : Edit g s t) :
    s.cells.size ≤ t.cells.size := by
  cases h with
  | fresh => simp
  | link =>
    simp only [Store.link]
    split <;> simp
  | host ht => exact hg ht
  | renew | clear | write | free | view => simp [Store.renew, present, Store.free]

theorem Alters.size_le {g : Grant} (hg : g.Grows) (h : Alters g s t) :
    s.cells.size ≤ t.cells.size := by
  induction h with
  | refl => exact Nat.le_refl _
  | tail _ he ih => exact Nat.le_trans ih (he.size_le hg)

/-- What may be done reaches no further than a region. -/
structure Grant.Within (g : Grant) (C : CellId → Prop) : Prop where
  stores : ∀ {c}, g.stores c → C c
  frees : ∀ {c}, g.frees c → C c
  links : ∀ {s c d}, g.links s c d → C c ∧ C d ∧ d < s.cells.size
  views : ∀ {s c a}, g.views s c a → C c ∧ C a
  hosts : ∀ {s t}, s.Region C → g.hosts s t → Touches C s t

theorem elementCount_nil : elementCount [] = 1 := by decide

theorem Edit.touches {g : Grant} (hg : g.Within C) (h : s.Region C) (he : Edit g s t) :
    Touches C s t := by
  cases he with
  | fresh => exact .fresh h
  | renew hc _ hfit => exact .renew h (hg.stores hc) hfit
  | clear hc _ =>
    exact .present h (hg.stores hc) rfl (Nat.le_refl _) (fun _ _ => rfl) (by simp) (by simp)
  | write hc => exact .write h (hg.stores hc) _
  | free hc => exact .free h (hg.frees hc)
  | link hl =>
    obtain ⟨hc, hd, hlt⟩ := hg.links hl
    exact .link h hc hd hlt
  | @view c array data offset hv hb hfit =>
    obtain ⟨hc, ha⟩ := hg.views hv
    refine .present h hc rfl (Nat.le_refl _) (fun _ _ => rfl) (fun j hj => ?_) fun j hj => ?_
    · exact .inl ⟨_, h.root ha, hj⟩
    · simp only [buffer?, lanes?, hj, Option.bind_some] at hb
      refine ⟨data, hb, ?_⟩
      rw [elementCount_nil]
      omega
  | host ht => exact hg.hosts h ht

theorem Alters.touches {g : Grant} (hg : g.Within C) (h : s.Region C) (ha : Alters g s t) :
    Touches C s t := by
  induction ha with
  | refl => exact .refl h
  | tail _ he ih => exact ih.trans (he.touches hg (ih.region h))

/-- Storing into a region, and nothing else. -/
theorem Grant.within_stores : ({ stores := C } : Grant).Within C :=
  ⟨id, False.elim, False.elim, False.elim, fun _ => False.elim⟩

/-! ### Operations -/

theorem setData_eq_ok_iff {data : Lanes} {lengths : List Int} :
    s.setData c data lengths = .ok t ↔
      elementCount lengths ≤ data.size ∧ s.renew c data lengths = t := by
  unfold setData
  split
  · rename_i h
    simp only [reduceCtorEq, false_iff, not_and]
    omega
  · rename_i h
    simp only [Except.ok.injEq, renew, pushBuffer]
    exact ⟨fun ht => ⟨by omega, ht⟩, fun ht => ht.2⟩

theorem setVoid_eq_ok_iff {lengths : List Int} :
    s.setVoid c lengths = .ok t ↔ elementCount lengths ≤ 0 ∧ s.present c none 0 lengths = t := by
  unfold setVoid
  split
  · rename_i h
    simp only [reduceCtorEq, false_iff, not_and]
    omega
  · rename_i h
    simp only [Except.ok.injEq]
    exact ⟨fun ht => ⟨by omega, ht⟩, fun ht => ht.2⟩

/-- An allocation of a concrete type keeps the root or gives it zero elements of that type. -/
theorem alloc_ok {ty : DataType} {lengths : List Int} (hty : ty.isConcrete = true)
    (h : s.alloc c ty lengths = .ok t) :
    t = s ∧ s.isAllocated c ty lengths = true ∨
      ∃ data : Lanes, Lanes.zeros? ty (elementCount lengths).toNat = some data ∧
        0 ≤ elementCount lengths ∧ t = s.renew c data lengths := by
  unfold alloc at h
  split at h
  · rename_i ha
    exact .inl ⟨(Except.ok.inj h).symm, ha⟩
  · split at h
    · cases h
    · simp only [hty, Bool.not_true, Bool.false_eq_true, if_false] at h
      split at h
      · cases h
      · rename_i hal
        split at h
        · rename_i data hz
          obtain ⟨_, rfl⟩ := setData_eq_ok_iff.mp h
          simp only [isAllocatable, Bool.not_eq_true', Bool.not_eq_false, Bool.and_eq_true,
            decide_eq_true_eq] at hal
          exact .inr ⟨data, hz, hal.1, rfl⟩
        · cases h

theorem Alters.of_alloc {g : Grant} (hc : g.stores c) {ty : DataType} {lengths : List Int}
    (ha : s.alloc c ty lengths = .ok t) : Alters g s t := by
  by_cases hty : ty.isConcrete = true
  · rcases alloc_ok hty ha with ⟨rfl, _⟩ | ⟨data, hz, hn, rfl⟩
    · exact .refl
    · refine .single (.renew hc hn ?_)
      rw [Lanes.size_zeros? hz]
      omega
  · unfold alloc at ha
    split at ha
    · cases ha
      exact .refl
    · split at ha
      · cases ha
      · simp only [hty, Bool.not_false, if_true] at ha
        obtain ⟨hn, rfl⟩ := setVoid_eq_ok_iff.mp ha
        exact .single (.clear hc hn)

theorem Touches.of_alloc (h : s.Region C) (hc : C c) {ty : DataType} {lengths : List Int}
    (ha : s.alloc c ty lengths = .ok t) : Touches C s t :=
  (Alters.of_alloc hc ha).touches Grant.within_stores h

theorem mapError_eq_ok {ε ε' α : Type} {f : ε → ε'} {x : Except ε α} {a : α} :
    x.mapError f = .ok a ↔ x = .ok a := by
  cases x <;> simp [Except.mapError]

theorem map_eq_ok {ε α β : Type} {f : α → β} {x : Except ε α} {b : β} :
    x.map f = .ok b ↔ ∃ a, x = .ok a ∧ f a = b := by
  cases x <;> simp [Except.map]

@[simp] theorem ok_bind {ε α β : Type} (a : α) (f : α → Except ε β) :
    ((Except.ok a : Except ε α) >>= f) = f a := rfl

@[simp] theorem error_bind {ε α β : Type} (e : ε) (f : α → Except ε β) :
    ((Except.error e : Except ε α) >>= f) = .error e := rfl

theorem bind_eq_ok {ε α β : Type} {x : Except ε α} {f : α → Except ε β} {b : β} :
    (x >>= f) = .ok b ↔ ∃ a, x = .ok a ∧ f a = .ok b := by
  cases x with
  | error e => simp [bind, Except.bind]
  | ok a => simp [bind, Except.bind]

/-- A delivery shapes its root, if need be, and writes into it. -/
theorem deliver_ok {lengths : List Int} {data : Lanes} (h : s.deliver c lengths data = .ok t) :
    ∃ s₁, (s₁ = s ∧ s.type c = data.type ∧ s.lengths c = lengths ∨
        s.alloc c data.type lengths = .ok s₁) ∧ t = s₁.write c data := by
  obtain ⟨s₁, hs₁, ht⟩ := bind_eq_ok.mp h
  cases ht
  refine ⟨s₁, ?_, rfl⟩
  unfold prepare at hs₁
  split at hs₁
  · rename_i hsame
    cases hs₁
    exact .inl ⟨rfl, hsame⟩
  · exact .inr (mapError_eq_ok.mp hs₁)

theorem Alters.of_deliver {g : Grant} (hc : g.stores c) {lengths : List Int} {data : Lanes}
    (hd : s.deliver c lengths data = .ok t) : Alters g s t := by
  obtain ⟨s₁, hs₁, rfl⟩ := deliver_ok hd
  rcases hs₁ with ⟨rfl, _⟩ | ha
  · exact .single (.write hc)
  · exact (of_alloc hc ha).tail (.write hc)

theorem receive_ok {r : Except Failure (List Int × Lanes)} (h : s.receive c r = .ok t) :
    ∃ lengths data, r = .ok (lengths, data) ∧ s.deliver c lengths data = .ok t := by
  obtain ⟨⟨lengths, data⟩, hr, ht⟩ := bind_eq_ok.mp h
  exact ⟨lengths, data, hr, ht⟩

theorem Alters.of_receive {g : Grant} (hc : g.stores c) {r : Except Failure (List Int × Lanes)}
    (hr : s.receive c r = .ok t) : Alters g s t := by
  obtain ⟨lengths, data, _, hd⟩ := receive_ok hr
  exact of_deliver hc hd

theorem Touches.of_receive (h : s.Region C) (hc : C c) {r : Except Failure (List Int × Lanes)}
    (hr : s.receive c r = .ok t) : Touches C s t :=
  (Alters.of_receive hc hr).touches Grant.within_stores h

theorem Alters.of_allocate {g : Grant} (hc : g.stores c) {ty : DataType} {lengths : List CellId}
    (ha : s.allocate ty c lengths = .ok t) : Alters g s t := by
  unfold allocate at ha
  split at ha
  · cases ha
  · obtain ⟨ns, _, hn⟩ := bind_eq_ok.mp ha
    exact of_alloc hc (mapError_eq_ok.mp hn)

theorem Touches.of_allocate (h : s.Region C) (hc : C c) {ty : DataType} {lengths : List CellId}
    (ha : s.allocate ty c lengths = .ok t) : Touches C s t :=
  (Alters.of_allocate hc ha).touches Grant.within_stores h

theorem Alters.of_allocateLike {g : Grant} (hc : g.stores c) {ty : DataType} {like : CellId}
    (ha : s.allocateLike ty c like = .ok t) : Alters g s t := by
  simp only [allocateLike] at ha
  generalize (if ty.isConcrete then ty else s.type like) = ty' at ha
  split at ha
  · cases ha
  · exact of_alloc hc (mapError_eq_ok.mp ha)

theorem Touches.of_allocateLike (h : s.Region C) (hc : C c) {ty : DataType} {like : CellId}
    (ha : s.allocateLike ty c like = .ok t) : Touches C s t :=
  (Alters.of_allocateLike hc ha).touches Grant.within_stores h

/-- An element view shows the buffer of the array's root. -/
theorem setElementView_ok {array : CellId} {i : Int} (h : s.setElementView c array i = .ok t) :
    ∃ data, s.buffer? array = some data ∧ 0 ≤ i ∧ i < (s.rootCell array).size ∧
      (s.rootCell array).offset + i.toNat + 1 ≤ data.size ∧
      t = s.present c (s.rootCell array).buffer ((s.rootCell array).offset + i.toNat) [] := by
  simp only [setElementView] at h
  split at h
  · cases h
  · rename_i hi
    split at h
    · cases h
    · rename_i hfit
      cases h
      cases hb : s.buffer? array with
      | none => simp [bufferSize, hb] at hfit
      | some data =>
        simp only [bufferSize, hb, Option.elim_some] at hfit
        exact ⟨data, rfl, by omega, by omega, by omega, rfl⟩

theorem Edit.of_setElementView {g : Grant} {array : CellId} {i : Int} (hv : g.views s c array)
    (ht : s.setElementView c array i = .ok t) : Edit g s t := by
  obtain ⟨data, hb, _, _, hfit, rfl⟩ := setElementView_ok ht
  exact .view hv hb hfit

theorem Edit.of_referElement {g : Grant} {array : CellId} {indices : List CellId}
    (hv : g.views s c array) (ht : s.referElement c array indices = .ok t) : Edit g s t := by
  obtain ⟨i, _, hi⟩ := bind_eq_ok.mp ht
  exact .of_setElementView hv (mapError_eq_ok.mp hi)

theorem Touches.of_setElementView (h : s.Region C) (hc : C c) {array : CellId} (ha : C array)
    {i : Int} (hv : s.setElementView c array i = .ok t) : Touches C s t := by
  have he : Edit { stores := C, views := fun _ d a => C d ∧ C a } s t :=
    .of_setElementView ⟨hc, ha⟩ hv
  exact he.touches ⟨id, False.elim, False.elim, id, fun _ => False.elim⟩ h

theorem Touches.of_referElement (h : s.Region C) (hc : C c) {array : CellId} (ha : C array)
    {indices : List CellId} (hv : s.referElement c array indices = .ok t) : Touches C s t := by
  obtain ⟨i, _, hi⟩ := bind_eq_ok.mp hv
  exact .of_setElementView h hc ha (mapError_eq_ok.mp hi)

theorem freshMany_succ (n : Nat) : (s.freshMany (n + 1)).2 = (s.freshMany n).2.fresh.2 := by
  simp [freshMany, fresh, Array.replicate_succ]

@[simp] theorem size_cells_freshMany (n : Nat) :
    (s.freshMany n).2.cells.size = s.cells.size + n := by
  simp [freshMany]

theorem cell_freshMany (n : Nat) : (s.freshMany n).2.cell c = s.cell c := by
  induction n with
  | zero => simp [freshMany]
  | succ n ih => rw [freshMany_succ, cell_fresh, ih]

theorem Alters.freshMany {g : Grant} (n : Nat) : Alters g s (s.freshMany n).2 := by
  induction n with
  | zero => simpa [Store.freshMany] using Relation.ReflTransGen.refl
  | succ n ih =>
    rw [freshMany_succ]
    exact ih.tail .fresh

theorem Touches.freshMany (h : s.Region C) (n : Nat) : Touches C s (s.freshMany n).2 :=
  (Alters.freshMany n).touches Grant.within_stores h

theorem Alters.ofScalar {g : Grant} (hnew : g.stores s.cells.size) (x : Scalar) :
    Alters g s (s.ofScalar x).2 :=
  .tail (.single .fresh) (.renew hnew (by decide) (by simp [elementCount_nil]))

theorem Touches.ofScalar (h : s.Region C) (x : Scalar) : Touches C s (s.ofScalar x).2 :=
  (Alters.ofScalar (h.fresh (Nat.le_refl _)) x).touches Grant.within_stores h

theorem Alters.of_clone {g : Grant} (hnew : g.stores s.cells.size) {x : CellId × Store}
    (hc : s.clone c = .ok x) : Alters g s x.2 := by
  have h₁ : Alters g s s.fresh.2 := .single .fresh
  simp only [clone] at hc
  split at hc
  · cases hc
    exact h₁
  · obtain ⟨s₁, ha, hc⟩ := bind_eq_ok.mp hc
    obtain ⟨data, _, hc⟩ := bind_eq_ok.mp hc
    cases hc
    exact (h₁.trans (of_alloc hnew ha)).tail (.write hnew)

theorem Touches.of_clone (h : s.Region C) {x : CellId × Store} (hc : s.clone c = .ok x) :
    Touches C s x.2 :=
  (Alters.of_clone (h.fresh (Nat.le_refl _)) hc).touches Grant.within_stores h

theorem region_true : s.Region fun _ => True := ⟨fun _ => trivial, fun _ _ => trivial⟩

theorem clone_new {x : CellId × Store} (hc : s.clone c = .ok x) :
    x.1 = s.cells.size ∧ x.1 < x.2.cells.size := by
  simp only [clone] at hc
  split at hc
  · cases hc
    simp
  · obtain ⟨s₁, ha, hc⟩ := bind_eq_ok.mp hc
    obtain ⟨data, _, hc⟩ := bind_eq_ok.mp hc
    cases hc
    have hle := (Touches.of_alloc region_true trivial ha).cells_le
    rw [size_cells_fresh] at hle
    exact ⟨rfl, by simpa using Nat.lt_of_succ_le hle⟩

theorem Alters.of_setScalar {g : Grant} (hc : g.stores c) {x : Scalar}
    (hx : s.setScalar c x = .ok t) : Alters g s t := by
  unfold setScalar at hx
  split at hx
  · obtain ⟨hfit, rfl⟩ := setData_eq_ok_iff.mp hx
    exact .single (.renew hc (by decide) hfit)
  · obtain ⟨_, _, hx⟩ := bind_eq_ok.mp hx
    cases hx
    exact .single (.write hc)

theorem Touches.of_setScalar (h : s.Region C) (hc : C c) {x : Scalar}
    (hx : s.setScalar c x = .ok t) : Touches C s t :=
  (Alters.of_setScalar hc hx).touches Grant.within_stores h

end VectorMachine.Store
