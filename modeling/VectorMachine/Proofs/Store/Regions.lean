import VectorMachine.Proofs.Store.Links

/-!
# Sound stores and the reach of a change

A store is sound if its links and buffers exist, its chains end, and every cell with a buffer
shows a part of it that its lengths describe.  A region is a set of cells that no link leaves;
a change that touches only a region leaves every other cell, and every buffer that only other
cells show, as it was, and lets no cell of the region reach outside.
-/

namespace VectorMachine.Store
set_option autoImplicit false

variable {s t u : Store} {c d : CellId} {C : CellId → Prop}

/-- The lengths of a cell describe a part of the buffer `xs`. -/
structure Shows (x : Cell) (xs : Lanes) : Prop where
  size_eq : x.size = elementCount x.lengths
  fits : (x.offset : Int) + x.size ≤ xs.size

structure Sound (s : Store) : Prop where
  grounded : s.Grounded
  target_lt : ∀ {c d}, (s.cell c).target = some d → d < s.cells.size
  buffer_lt : ∀ {c b}, (s.cell c).buffer = some b → b < s.buffers.size
  shows_buffer : ∀ {c b xs}, (s.cell c).buffer = some b → s.buffers[b]? = some xs →
    Shows (s.cell c) xs

theorem sound_empty : ({} : Store).Sound :=
  ⟨fun c => ⟨c, .here rfl⟩, fun h => by simp [Store.cell] at h, fun h => by simp [Store.cell] at h,
    fun h => by simp [Store.cell] at h⟩

/-- A set of cells that no link leaves and that has room for all new cells. -/
structure Region (s : Store) (C : CellId → Prop) : Prop where
  fresh : ∀ {c}, s.cells.size ≤ c → C c
  closed : ∀ {c d}, C c → (s.cell c).target = some d → C d

/-- `t` arises from `s` by changes in the region `C` alone. -/
structure Touches (C : CellId → Prop) (s t : Store) : Prop where
  cells_le : s.cells.size ≤ t.cells.size
  buffers_le : s.buffers.size ≤ t.buffers.size
  cell_eq : ∀ {c}, ¬ C c → t.cell c = s.cell c
  buffer_eq : ∀ {b}, b < s.buffers.size → (∀ c, C c → (s.cell c).buffer ≠ some b) →
    t.buffers[b]? = s.buffers[b]?
  target_mem : ∀ {c d}, C c → (t.cell c).target = some d → C d
  buffer_mem : ∀ {c b}, C c → (t.cell c).buffer = some b →
    (∃ c₀, C c₀ ∧ (s.cell c₀).buffer = some b) ∨ s.buffers.size ≤ b
  sound : s.Sound → t.Sound

theorem Region.follow (h : s.Region C) (hc : C c) (n : Nat) : C (s.follow n c) := by
  induction n generalizing c with
  | zero => exact hc
  | succ n ih =>
    simp only [Store.follow]
    split
    · exact hc
    · rename_i d hd
      exact ih (h.closed hc hd)

theorem Region.root (h : s.Region C) (hc : C c) : C (s.root c) := h.follow hc _

theorem Touches.region (h : Touches C s t) (hs : s.Region C) : t.Region C where
  fresh hc := hs.fresh (Nat.le_trans h.cells_le hc)
  closed := h.target_mem

theorem Touches.refl (h : s.Region C) : Touches C s s where
  cells_le := Nat.le_refl _
  buffers_le := Nat.le_refl _
  cell_eq _ := rfl
  buffer_eq _ _ := rfl
  target_mem := h.closed
  buffer_mem hc hb := .inl ⟨_, hc, hb⟩
  sound := id

theorem Touches.trans (h : Touches C s t) (h' : Touches C t u) : Touches C s u where
  cells_le := Nat.le_trans h.cells_le h'.cells_le
  buffers_le := Nat.le_trans h.buffers_le h'.buffers_le
  cell_eq hc := (h'.cell_eq hc).trans (h.cell_eq hc)
  buffer_eq {b} hb hn := by
    have hn' : ∀ c, C c → (t.cell c).buffer ≠ some b := by
      intro c hc hcb
      rcases h.buffer_mem hc hcb with ⟨c₀, hc₀, hb₀⟩ | hle
      · exact hn c₀ hc₀ hb₀
      · exact absurd hb (Nat.not_lt.mpr hle)
    exact (h'.buffer_eq (Nat.lt_of_lt_of_le hb h.buffers_le) hn').trans (h.buffer_eq hb hn)
  target_mem := h'.target_mem
  buffer_mem hc hb := by
    rcases h'.buffer_mem hc hb with ⟨c₀, hc₀, hb₀⟩ | hle
    · exact h.buffer_mem hc₀ hb₀
    · exact .inr (Nat.le_trans h.buffers_le hle)
  sound hs := h'.sound (h.sound hs)

/-! ### Elementary changes -/

theorem follow_of_cells_eq (h : t.cells = s.cells) (n : Nat) (c : CellId) :
    t.follow n c = s.follow n c := by
  have hcell : ∀ d, t.cell d = s.cell d := fun d => by simp [cell, h]
  induction n generalizing c with
  | zero => rfl
  | succ n ih => simp only [follow, hcell, ih]

theorem root_of_cells_eq (h : t.cells = s.cells) (c : CellId) : t.root c = s.root c := by
  simp only [root, h, follow_of_cells_eq h]

/-- The store with one more buffer. -/
def pushBuffer (s : Store) (data : Lanes) : Store := { s with buffers := s.buffers.push data }

@[simp] theorem cell_pushBuffer (data : Lanes) : (s.pushBuffer data).cell c = s.cell c := rfl

@[simp] theorem cells_pushBuffer (data : Lanes) : (s.pushBuffer data).cells = s.cells := rfl

@[simp] theorem root_pushBuffer (data : Lanes) : (s.pushBuffer data).root c = s.root c :=
  root_of_cells_eq (cells_pushBuffer data) c

@[simp] theorem size_buffers_pushBuffer (data : Lanes) :
    (s.pushBuffer data).buffers.size = s.buffers.size + 1 := by
  simp [pushBuffer]

theorem buffers_pushBuffer_self (data : Lanes) :
    (s.pushBuffer data).buffers[s.buffers.size]? = some data := by
  simp [pushBuffer]

theorem buffers_pushBuffer_of_lt (data : Lanes) {b : BufferId} (h : b < s.buffers.size) :
    (s.pushBuffer data).buffers[b]? = s.buffers[b]? := by
  simp [pushBuffer, Array.getElem?_push, Nat.ne_of_lt h]

/-- The cell that shows `lengths` elements of buffer `b` from `offset` on. -/
def presented (x : Cell) (b : Option BufferId) (offset : Nat) (lengths : List Int) : Cell :=
  { x with buffer := b, size := elementCount lengths, lengths := lengths, offset := offset }

theorem present_eq (b : Option BufferId) (offset : Nat) (lengths : List Int) :
    s.present c b offset lengths =
      s.setCell (s.root c) fun x => presented x b offset lengths := rfl

theorem Touches.fresh (h : s.Region C) : Touches C s s.fresh.2 where
  cells_le := by simp
  buffers_le := Nat.le_refl _
  cell_eq _ := cell_fresh
  buffer_eq _ _ := rfl
  target_mem hc hd := h.closed hc (by simpa using hd)
  buffer_mem hc hb := .inl ⟨_, hc, by simpa using hb⟩
  sound hs := {
    grounded := hs.grounded.congr fun _ => by simp
    target_lt := fun hd => by simpa using Nat.lt_succ_of_lt (hs.target_lt (by simpa using hd))
    buffer_lt := fun hb => hs.buffer_lt (by simpa using hb)
    shows_buffer := fun hb hx => by simpa using hs.shows_buffer (by simpa using hb) hx }

/-- Shaping a root anew, from a buffer that its region already shows or that is new. -/
theorem Touches.present (h : s.Region C) (hc : C c) (hcells : t.cells = s.cells)
    (hle : s.buffers.size ≤ t.buffers.size)
    (hold : ∀ i, i < s.buffers.size → t.buffers[i]? = s.buffers[i]?)
    {b : Option BufferId} {offset : Nat} {lengths : List Int}
    (hb : ∀ i, b = some i → (∃ c₀, C c₀ ∧ (s.cell c₀).buffer = some i) ∨ s.buffers.size ≤ i)
    (hx : ∀ i, b = some i → ∃ xs, t.buffers[i]? = some xs ∧
      (offset : Int) + elementCount lengths ≤ xs.size) :
    Touches C s (t.present c b offset lengths) := by
  have hsame : ∀ d, t.cell d = s.cell d := fun d => by simp [cell, hcells]
  have hcell := @cell_setCell t (s.root c)
  simp only [hsame, hcells] at hcell
  rw [present_eq, root_of_cells_eq hcells]
  refine ⟨by simp [hcells], hle, ?_, fun {b} hlt _ => hold b hlt, ?_, ?_, ?_⟩
  · intro d hd
    have hne : s.root c ≠ d := fun hr => hd (hr ▸ h.root hc)
    rw [hcell, if_neg fun hr => hne hr.1]
  · intro d e hd he
    rw [hcell] at he
    split at he <;> exact h.closed hd he
  · intro d i hd hi
    rw [hcell] at hi
    split at hi
    · exact hb i hi
    · exact .inl ⟨d, hd, hi⟩
  · intro hs
    refine ⟨hs.grounded.congr fun d => ?_, fun {d e} he => ?_, fun {d i} hi => ?_,
      fun {d i xs} hi hxs => ?_⟩
    · rw [hcell]
      split <;> rfl
    · rw [hcell] at he
      simp only [size_cells_setCell, hcells]
      split at he <;> exact hs.target_lt he
    · rw [hcell] at hi
      split at hi
      · obtain ⟨xs, hxs, _⟩ := hx i hi
        exact (Array.getElem?_eq_some_iff.mp hxs).1
      · exact Nat.lt_of_lt_of_le (hs.buffer_lt hi) hle
    · rw [hcell] at hi ⊢
      split at hi
      · rename_i hr
        obtain ⟨ys, hys, hfit⟩ := hx i hi
        rw [buffers_setCell, hys] at hxs
        cases hxs
        rw [if_pos hr]
        exact ⟨rfl, hfit⟩
      · rename_i hr
        rw [buffers_setCell, hold i (hs.buffer_lt hi)] at hxs
        rw [if_neg hr]
        exact hs.shows_buffer hi hxs

@[simp] theorem cells_write (data : Lanes) : (s.write c data).cells = s.cells := by
  unfold write
  split <;> rfl

@[simp] theorem cell_write (data : Lanes) : (s.write c data).cell d = s.cell d := by
  simp [cell]

theorem Touches.write (h : s.Region C) (hc : C c) (data : Lanes) : Touches C s (s.write c data) := by
  unfold Store.write
  split
  · exact .refl h
  · rename_i b hb
    have hbuf : ∀ i, i ≠ b → (s.buffers.modify b (Lanes.overwrite (s.offset c) · data))[i]? =
        s.buffers[i]? := by
      intro i hi
      simp [Array.getElem?_modify, Ne.symm hi]
    refine ⟨Nat.le_refl _, by simp, fun _ => rfl, ?_, h.closed, fun hd hi => .inl ⟨_, hd, hi⟩, ?_⟩
    · intro i _ hn
      refine hbuf i fun hib => ?_
      subst hib
      exact hn _ (h.root hc) hb
    · intro hs
      refine ⟨hs.grounded.congr fun _ => rfl, hs.target_lt, fun hi => ?_, fun {d i xs} hi hx => ?_⟩
      · simpa using hs.buffer_lt hi
      · by_cases hib : i = b
        · subst hib
          simp only [Array.getElem?_modify, if_true, Option.map_eq_some_iff] at hx
          obtain ⟨ys, hy, rfl⟩ := hx
          have := hs.shows_buffer hi hy
          exact ⟨this.size_eq, by rw [Lanes.size_overwrite]; exact this.fits⟩
        · rw [hbuf i hib] at hx
          exact hs.shows_buffer hi hx

/-- Changes of a cell that keep its buffer and its shape, and link it inside the region. -/
theorem Touches.retarget (h : s.Region C) (hc : C c) {r : Option CellId}
    (hr : ∀ e, r = some e → C e) (hs' : s.Sound → ∀ e, r = some e →
      e < s.cells.size ∧ e ≠ c ∧ (s.cell e).target = none) :
    Touches C s (s.setCell c fun x => { x with target := r }) := by
  have hcell := @cell_setCell s c
  refine ⟨by simp, Nat.le_refl _, ?_, fun _ _ => rfl, ?_, ?_, ?_⟩
  · intro e he
    exact cell_setCell_of_ne _ fun hec => he (hec ▸ hc)
  · intro e f he hf
    rw [hcell] at hf
    split at hf
    · exact hr f hf
    · exact h.closed he hf
  · intro e i he hi
    rw [hcell] at hi
    split at hi <;> exact .inl ⟨e, he, hi⟩
  · intro hs
    refine ⟨?_, fun {e f} hf => ?_, fun {e i} hi => ?_, fun {e i xs} hi hx => ?_⟩
    · cases r with
      | none =>
        refine hs.grounded.cut fun e => ?_
        rw [hcell]
        split
        · exact .inr rfl
        · exact .inl rfl
      | some r =>
        obtain ⟨_, hne, hrn⟩ := hs' hs r rfl
        by_cases hlt : c < s.cells.size
        · refine hs.grounded.relink hrn hne ?_ fun e he => ?_
          · rw [cell_setCell_self _ hlt]
          · rw [cell_setCell_of_ne _ he]
        · refine hs.grounded.congr fun e => ?_
          have hne : ¬ (c = e ∧ e < s.cells.size) := fun he => hlt (he.1 ▸ he.2)
          rw [hcell, if_neg hne]
    · rw [hcell] at hf
      split at hf
      · simpa using (hs' hs f hf).1
      · simpa using hs.target_lt hf
    · rw [hcell] at hi
      split at hi <;> exact hs.buffer_lt hi
    · rw [hcell] at hi ⊢
      split at hi
      · rename_i he
        rw [if_pos he]
        have := hs.shows_buffer hi hx
        exact ⟨this.size_eq, this.fits⟩
      · rename_i he
        rw [if_neg he]
        exact hs.shows_buffer hi hx

theorem Touches.link (h : s.Region C) (hc : C c) (hd : C d) (hlt : d < s.cells.size) :
    Touches C s (s.link c d) := by
  simp only [Store.link]
  split
  · exact .refl h
  · rename_i hne
    refine .retarget h hc (fun e he => ?_) fun hs e he => ?_
    · cases he
      exact h.root hd
    · cases he
      exact ⟨(hs.grounded.leads_root d).lt (fun _ _ => hs.target_lt) hlt, hne,
        hs.grounded.target_root d⟩

theorem Touches.unlink (h : s.Region C) (hc : C c) : Touches C s (s.unlink c) :=
  .retarget h hc (fun _ he => by cases he) fun _ _ he => by cases he

theorem Touches.free (h : s.Region C) (hc : C c) : Touches C s (s.free c) := by
  have hcell := @cell_setCell s c
  unfold Store.free
  refine ⟨by simp, Nat.le_refl _, ?_, fun _ _ => rfl, ?_, ?_, ?_⟩
  · intro e he
    exact cell_setCell_of_ne _ fun hec => he (hec ▸ hc)
  · intro e f he hf
    rw [hcell] at hf
    split at hf
    · cases hf
    · exact h.closed he hf
  · intro e i he hi
    rw [hcell] at hi
    split at hi
    · cases hi
    · exact .inl ⟨e, he, hi⟩
  · intro hs
    refine ⟨hs.grounded.cut fun e => ?_, fun {e f} hf => ?_, fun {e i} hi => ?_,
      fun {e i xs} hi hx => ?_⟩
    · rw [hcell]
      split
      · exact .inr rfl
      · exact .inl rfl
    · rw [hcell] at hf
      split at hf
      · cases hf
      · simpa using hs.target_lt hf
    · rw [hcell] at hi
      split at hi
      · cases hi
      · exact hs.buffer_lt hi
    · rw [hcell] at hi ⊢
      split at hi
      · cases hi
      · rename_i he
        rw [if_neg he]
        exact hs.shows_buffer hi hx

end VectorMachine.Store
