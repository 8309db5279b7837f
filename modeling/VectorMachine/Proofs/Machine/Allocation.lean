import VectorMachine.Proofs.Store.Isolation
import VectorMachine.Memory

/-!
# New memories

The cells of a new memory are new, one after another: the locals, the registers, and the
constants, each of which holds the scalar that its text stands for.  All of them are isolated.
-/

namespace VectorMachine
set_option autoImplicit false

namespace Store

variable {s t u : Store} {c : CellId} {v : Scalar}

/-- `t` arises from `s` by adding isolated cells. -/
structure Adds (s t : Store) : Prop where
  touches : Touches (fun c => s.cells.size ≤ c) s t
  isolated : ∀ c, s.cells.size ≤ c → c < t.cells.size → t.Isolated c

theorem region_new : s.Region fun c => s.cells.size ≤ c where
  fresh hc := hc
  closed hc hd := by simp [cell_of_le hc] at hd

theorem Adds.refl : Adds s s :=
  ⟨.refl region_new, fun _ h h' => absurd h' (Nat.not_lt.mpr h)⟩

theorem Adds.size_le (h : Adds s t) : s.cells.size ≤ t.cells.size := h.touches.cells_le

theorem Adds.isolated_old (h : Adds s t) (hs : s.Sound) (hc : s.Isolated c) : t.Isolated c :=
  hc.of_touches h.touches hs (Nat.not_le.mpr hc.lt)

theorem Adds.holds_old (h : Adds s t) (hs : s.Sound) (hc : s.Isolated c) {o : Option Scalar}
    (ho : s.Holds c o) : t.Holds c o :=
  ho.of_touches hc h.touches hs (Nat.not_le.mpr hc.lt)

theorem Adds.trans (hs : s.Sound) (h : Adds s t) (h' : Adds t u) : Adds s u := by
  have ht : Touches (fun c => s.cells.size ≤ c) t u := by
    have h₁ := h'.touches
    have hle := h.size_le
    refine ⟨h₁.cells_le, h₁.buffers_le, fun {c} hc => h₁.cell_eq fun hn => hc (Nat.le_trans hle hn),
      fun {b} hb hn => h₁.buffer_eq hb fun c hc => hn c (Nat.le_trans hle hc), fun {c d} hc hd => ?_,
      fun {c b} hc hb => ?_, h₁.sound⟩
    · by_cases hn : t.cells.size ≤ c
      · exact Nat.le_trans hle (h₁.target_mem hn hd)
      · rw [h₁.cell_eq hn] at hd
        exact h.touches.target_mem hc hd
    · by_cases hn : t.cells.size ≤ c
      · rcases h₁.buffer_mem hn hb with ⟨c₀, hc₀, hb₀⟩ | hnew
        · exact .inl ⟨c₀, Nat.le_trans hle hc₀, hb₀⟩
        · exact .inr hnew
      · rw [h₁.cell_eq hn] at hb
        exact .inl ⟨c, hc, hb⟩
  refine ⟨h.touches.trans ht, fun c hc hlt => ?_⟩
  by_cases hn : c < t.cells.size
  · exact h'.isolated_old (h.touches.sound hs) (h.isolated c hc hn)
  · exact h'.isolated c (Nat.not_lt.mp hn) hlt

theorem isolated_fresh (hs : s.Sound) : s.fresh.2.Isolated s.cells.size := by
  have hcell : s.fresh.2.cell s.cells.size = {} := by rw [cell_fresh, cell_of_le (Nat.le_refl _)]
  refine ⟨by simp, by rw [hcell], fun c hc => ?_, fun {c b} _ hb => by simp [hcell] at hb⟩
  rw [cell_fresh] at hc
  exact Nat.lt_irrefl _ (hs.target_lt hc)

theorem Adds.fresh (hs : s.Sound) : Adds s s.fresh.2 := by
  refine ⟨.fresh region_new, fun c hc hlt => ?_⟩
  rw [size_cells_fresh] at hlt
  obtain rfl : c = s.cells.size := by omega
  exact isolated_fresh hs

theorem Adds.freshMany (hs : s.Sound) (n : Nat) : Adds s (s.freshMany n).2 := by
  induction n with
  | zero => simpa [Store.freshMany] using Adds.refl (s := s)
  | succ n ih =>
    rw [freshMany_succ]
    exact ih.trans hs (.fresh (ih.touches.sound hs))

theorem stores_ofScalar (hs : s.Sound) : s.fresh.2.Stores s.cells.size v (s.ofScalar v).2 :=
  stores_renew ((Touches.fresh region_new).sound hs) (isolated_fresh hs)

theorem size_cells_ofScalar (hs : s.Sound) : (s.ofScalar v).2.cells.size = s.cells.size + 1 := by
  rw [(stores_ofScalar hs).size_eq, size_cells_fresh]

theorem Adds.ofScalar (hs : s.Sound) (v : Scalar) : Adds s (s.ofScalar v).2 := by
  refine ⟨.ofScalar region_new v, fun c hc hlt => ?_⟩
  rw [size_cells_ofScalar hs] at hlt
  obtain rfl : c = s.cells.size := by omega
  exact (stores_ofScalar hs).isolated

end Store

namespace Memory

variable {s t : Store} {m : Memory}

/-- Consecutive cells from `k` on. -/
def consecutive (k n : Nat) : Array CellId := (Array.range n).map (k + ·)

@[simp] theorem size_consecutive (k n : Nat) : (consecutive k n).size = n := by
  simp [consecutive]

theorem getElem?_consecutive (k n i : Nat) :
    (consecutive k n)[i]? = if i < n then some (k + i) else none := by
  simp only [consecutive, Array.getElem?_map, Array.getElem?_range]
  split <;> simp

theorem le_of_mem_consecutive {k n c : Nat} (h : c ∈ consecutive k n) : k ≤ c := by
  simp only [consecutive, Array.mem_map] at h
  obtain ⟨i, -, rfl⟩ := h
  exact Nat.le_add_right k i

theorem push_consecutive (k n : Nat) :
    #[k] ++ consecutive (k + 1) n = consecutive k (n + 1) := by
  apply Array.ext_getElem?
  intro i
  rw [Array.getElem?_append, getElem?_consecutive, getElem?_consecutive]
  cases i with
  | zero => simp
  | succ i =>
    simp only [List.size_toArray, List.length_cons, List.length_nil]
    rw [if_neg (by omega)]
    split <;> split <;> simp_all <;> omega

/-- The number of cells for the addresses up to `greatest`. -/
def extentSize (greatest : Int) : Nat := (wrap (greatest + 1)).toNat

theorem voidCells_ok {greatest : Int} {cs : Array CellId}
    (h : voidCells s greatest = .ok (cs, t)) :
    cs = consecutive s.cells.size (extentSize greatest) ∧
      t = (s.freshMany (extentSize greatest)).2 := by
  unfold voidCells at h
  dsimp only at h
  split at h
  · rename_i hn
    cases h
    have : extentSize greatest = 0 := Int.toNat_of_nonpos hn
    simp [this, consecutive, Store.freshMany]
  · split at h
    · cases h
    · cases h
      exact ⟨rfl, rfl⟩

/-- What the allocation of constants does with one immediate. -/
def addConstant (x : Array CellId × Store) (text : String) :
    Except Literal.ImmediateError (Array CellId × Store) := do
  let v ← Literal.decodeImmediate text
  .ok (x.1.push (x.2.ofScalar v).1, (x.2.ofScalar v).2)

theorem constantCells_eq (texts : List String) :
    constantCells s texts = texts.foldlM addConstant (#[], s) := rfl

theorem constantCells_ok {texts : List String} {cs : Array CellId} (hs : s.Sound)
    (h : constantCells s texts = .ok (cs, t)) :
    cs = consecutive s.cells.size texts.length ∧ s.Adds t ∧
      t.cells.size = s.cells.size + texts.length ∧
      ∃ vs, List.Forall₂ (fun text v => Literal.decodeImmediate text = .ok v) texts vs ∧
        ∀ i v, vs[i]? = some v → t.Holds (s.cells.size + i) (some v) := by
  -- the fold adds to the cells that it has made so far
  suffices H : ∀ (done : Array CellId) (s : Store), s.Sound →
      texts.foldlM addConstant (done, s) = .ok (cs, t) →
      cs = done ++ consecutive s.cells.size texts.length ∧ s.Adds t ∧
        t.cells.size = s.cells.size + texts.length ∧
        ∃ vs, List.Forall₂ (fun text v => Literal.decodeImmediate text = .ok v) texts vs ∧
          ∀ i v, vs[i]? = some v → t.Holds (s.cells.size + i) (some v) by
    simpa using H #[] s hs (constantCells_eq texts ▸ h)
  clear h hs
  induction texts with
  | nil =>
    intro done s hs h
    cases h
    refine ⟨by simp [consecutive], .refl, by simp, [], .nil, by simp⟩
  | cons text texts ih =>
    intro done s hs h
    rw [List.foldlM_cons] at h
    obtain ⟨⟨cs₁, s₁⟩, h₁, h⟩ := Store.bind_eq_ok.mp h
    obtain ⟨v, hv, h₁⟩ := Store.bind_eq_ok.mp h₁
    cases h₁
    have hadd := Store.Adds.ofScalar hs v
    have hs₁ := hadd.touches.sound hs
    have hst := Store.stores_ofScalar (v := v) hs
    obtain ⟨hcs, hadd', hsize, vs, hvs, hholds⟩ := ih _ _ hs₁ h
    rw [Store.size_cells_ofScalar hs] at hcs hsize hholds
    refine ⟨?_, hadd.trans hs hadd', by simp only [List.length_cons]; omega, v :: vs,
      .cons hv hvs, fun i w hw => ?_⟩
    · rw [hcs, List.length_cons, ← push_consecutive, ← Array.append_assoc]
      rfl
    · cases i with
      | zero =>
        cases hw
        exact hadd'.holds_old hs₁ hst.isolated hst.holds
      | succ i =>
        have := hholds i w hw
        rwa [Nat.add_assoc, Nat.add_comm 1] at this

theorem exists_constantCells {texts : List String}
    (h : ∀ text ∈ texts, ∃ v, Literal.decodeImmediate text = .ok v) :
    ∃ r, constantCells s texts = .ok r := by
  rw [constantCells_eq]
  generalize (#[], s) = x
  induction texts generalizing x with
  | nil => exact ⟨_, rfl⟩
  | cons text texts ih =>
    obtain ⟨v, hv⟩ := h text (by simp)
    obtain ⟨r, hr⟩ := ih (fun text' ht => h text' (by simp [ht]))
      (x.1.push (x.2.ofScalar v).1, (x.2.ofScalar v).2)
    refine ⟨r, ?_⟩
    rw [List.foldlM_cons, addConstant, hv]
    exact hr

theorem decodes_of_constantCells {texts : List String} {r : Array CellId × Store}
    (h : constantCells s texts = .ok r) :
    ∀ text ∈ texts, ∃ v, Literal.decodeImmediate text = .ok v := by
  rw [constantCells_eq] at h
  generalize (#[], s) = x at h
  induction texts generalizing x with
  | nil => simp
  | cons text texts ih =>
    rw [List.foldlM_cons] at h
    obtain ⟨x₁, h₁, h⟩ := Store.bind_eq_ok.mp h
    obtain ⟨v, hv, -⟩ := Store.bind_eq_ok.mp h₁
    intro text' ht
    rcases List.mem_cons.mp ht with rfl | ht
    · exact ⟨v, hv⟩
    · exact ih x₁ h text' ht

theorem voidCells_again {greatest : Int} {r : Array CellId × Store}
    (h : voidCells s greatest = .ok r) (t : Store) : ∃ r', voidCells t greatest = .ok r' := by
  unfold voidCells at h ⊢
  dsimp only at h ⊢
  split
  · exact ⟨_, rfl⟩
  · rename_i hn
    rw [if_neg hn] at h
    split
    · rename_i hlarge
      rw [if_pos hlarge] at h
      cases h
    · exact ⟨_, rfl⟩

/-- Whether an allocation succeeds does not depend on what is there before. -/
theorem allocate_again {layout : Layout} {globals : Array CellId} {r : Memory × Store}
    (h : allocate s layout globals = .ok r) (t : Store) (globals' : Array CellId) :
    ∃ m' t', allocate t layout globals' = .ok (m', t') := by
  obtain ⟨⟨ls, s₁⟩, h₁, h⟩ := Store.bind_eq_ok.mp h
  obtain ⟨⟨rs, s₂⟩, h₂, h⟩ := Store.bind_eq_ok.mp h
  obtain ⟨⟨cs, s₃⟩, h₃, -⟩ := Store.bind_eq_ok.mp h
  obtain ⟨⟨ls', t₁⟩, h₁'⟩ := voidCells_again (Store.mapError_eq_ok.mp h₁) t
  obtain ⟨⟨rs', t₂⟩, h₂'⟩ := voidCells_again (Store.mapError_eq_ok.mp h₂) t₁
  obtain ⟨⟨cs', t₃⟩, h₃'⟩ := exists_constantCells (s := t₂)
    (decodes_of_constantCells (Store.mapError_eq_ok.mp h₃))
  refine ⟨{ globals := globals', locals := ls', constants := cs', registers := rs' }, t₃, ?_⟩
  simp [allocate, h₁', h₂', h₃', Except.mapError]

/-- What an allocation gives. -/
structure Allocated (s : Store) (layout : Layout) (globals : Array CellId) (m : Memory)
    (t : Store) : Prop where
  globals_eq : m.globals = globals
  locals_eq : m.locals = consecutive s.cells.size (extentSize layout.greatestLocal)
  registers_eq : m.registers =
    consecutive (s.cells.size + m.locals.size) (extentSize layout.greatestRegister)
  constants_eq : m.constants =
    consecutive (s.cells.size + m.locals.size + m.registers.size) layout.immediates.length
  stack_eq : m.stack = #[]
  adds : s.Adds t
  size_eq : t.cells.size =
    s.cells.size + m.locals.size + m.registers.size + layout.immediates.length
  void : ∀ c, s.cells.size ≤ c → c < s.cells.size + m.locals.size + m.registers.size →
    t.Holds c none
  values : ∃ vs, List.Forall₂ (fun text v => Literal.decodeImmediate text = .ok v)
    layout.immediates vs ∧ ∀ i v, vs[i]? = some v →
      t.Holds (s.cells.size + m.locals.size + m.registers.size + i) (some v)

theorem allocated {layout : Layout} {globals : Array CellId} (hs : s.Sound)
    (h : allocate s layout globals = .ok (m, t)) : Allocated s layout globals m t := by
  obtain ⟨⟨ls, s₁⟩, h₁, h⟩ := Store.bind_eq_ok.mp h
  obtain ⟨⟨rs, s₂⟩, h₂, h⟩ := Store.bind_eq_ok.mp h
  obtain ⟨⟨cs, s₃⟩, h₃, h⟩ := Store.bind_eq_ok.mp h
  cases h
  obtain ⟨rfl, rfl⟩ := voidCells_ok (Store.mapError_eq_ok.mp h₁)
  obtain ⟨rfl, rfl⟩ := voidCells_ok (Store.mapError_eq_ok.mp h₂)
  have hadd₁ := Store.Adds.freshMany hs (extentSize layout.greatestLocal)
  have hs₁ := hadd₁.touches.sound hs
  have hadd₂ := Store.Adds.freshMany hs₁ (extentSize layout.greatestRegister)
  have hs₂ := hadd₂.touches.sound hs₁
  obtain ⟨rfl, hadd₃, hsize, hvs⟩ := constantCells_ok hs₂ (Store.mapError_eq_ok.mp h₃)
  simp only [Store.size_cells_freshMany] at hsize hvs ⊢
  have hadd₁₂ := hadd₁.trans hs hadd₂
  refine ⟨rfl, rfl, by simp, by simp, rfl, hadd₁₂.trans hs hadd₃, by simpa using hsize,
    fun c hc hlt => ?_, by simpa using hvs⟩
  simp only [size_consecutive] at hlt
  refine hadd₃.holds_old hs₂ (hadd₁₂.isolated c hc (by simpa using hlt)) ?_
  simp [Store.Holds, Store.cell_freshMany, Store.cell_of_le hc]

end Memory

end VectorMachine
