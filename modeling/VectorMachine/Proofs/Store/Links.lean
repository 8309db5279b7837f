import Mathlib.Data.Finset.Card
import Mathlib.Data.Finset.Range
import VectorMachine.Store.Basic

/-!
# Links between cells

What the elementary changes of a store do to its cells, and where chains of links end.  A store
is grounded if every chain ends; the bounded search for a root then finds the end of the chain,
because a chain passes every cell at most once.
-/

namespace VectorMachine.Store
set_option autoImplicit false

variable {s t : Store} {a b c d r : CellId}

theorem cell_of_le (h : s.cells.size ≤ c) : s.cell c = {} := by
  simp [cell, Array.getElem?_eq_none h]

theorem lt_of_cell_ne (h : s.cell c ≠ {}) : c < s.cells.size :=
  Nat.lt_of_not_le fun hle => h (cell_of_le hle)

theorem lt_of_target (h : (s.cell c).target = some d) : c < s.cells.size :=
  lt_of_cell_ne fun h' => by simp [h'] at h

theorem lt_of_buffer {i : BufferId} (h : (s.cell c).buffer = some i) : c < s.cells.size :=
  lt_of_cell_ne fun h' => by simp [h'] at h

theorem cell_setCell (f : Cell → Cell) :
    (s.setCell c f).cell d = if c = d ∧ d < s.cells.size then f (s.cell d) else s.cell d := by
  simp only [cell, setCell, Array.getElem?_modify]
  by_cases hcd : c = d
  · by_cases hd : d < s.cells.size
    · simp [hcd, hd]
    · simp [hcd, hd]
  · simp [hcd]

theorem cell_setCell_self (f : Cell → Cell) (h : c < s.cells.size) :
    (s.setCell c f).cell c = f (s.cell c) := by
  simp [cell_setCell, h]

theorem cell_setCell_of_ne (f : Cell → Cell) (h : d ≠ c) :
    (s.setCell c f).cell d = s.cell d := by
  simp [cell_setCell, Ne.symm h]

@[simp] theorem size_cells_setCell (f : Cell → Cell) :
    (s.setCell c f).cells.size = s.cells.size := by
  simp [setCell]

@[simp] theorem buffers_setCell (f : Cell → Cell) : (s.setCell c f).buffers = s.buffers := rfl

@[simp] theorem fresh_fst : s.fresh.1 = s.cells.size := rfl

@[simp] theorem size_cells_fresh : s.fresh.2.cells.size = s.cells.size + 1 := by
  simp [fresh]

@[simp] theorem buffers_fresh : s.fresh.2.buffers = s.buffers := rfl

@[simp] theorem cell_fresh : s.fresh.2.cell c = s.cell c := by
  simp only [cell, fresh, Array.getElem?_push]
  split
  · rename_i h
    simp [h]
  · rfl

/-- `s.Leads c r`: the chain of links from `c` ends at `r`. -/
inductive Leads (s : Store) : CellId → CellId → Prop where
  | here {c : CellId} : (s.cell c).target = none → Leads s c c
  | next {c d r : CellId} : (s.cell c).target = some d → Leads s d r → Leads s c r

theorem Leads.target_end (h : s.Leads c r) : (s.cell r).target = none := by
  induction h with
  | here h => exact h
  | next _ _ ih => exact ih

/-- Every chain of links ends. -/
def Grounded (s : Store) : Prop := ∀ c, ∃ r, s.Leads c r

/-- The cells that a chain passes before its end. -/
inductive Passes (s : Store) : List CellId → CellId → CellId → Prop where
  | here {c : CellId} : (s.cell c).target = none → Passes s [] c c
  | next {l : List CellId} {c d r : CellId} :
      (s.cell c).target = some d → Passes s l d r → Passes s (c :: l) c r

theorem Passes.unique {l l' : List CellId} {r' : CellId} (h : s.Passes l c r)
    (h' : s.Passes l' c r') : l = l' := by
  induction h generalizing l' with
  | here hn =>
    cases h' with
    | here => rfl
    | next hs _ => simp [hn] at hs
  | next hs _ ih =>
    cases h' with
    | here hn => simp [hn] at hs
    | next hs' h' =>
      rw [hs] at hs'
      cases hs'
      rw [ih h']

theorem Leads.passes (h : s.Leads c r) : ∃ l, s.Passes l c r := by
  induction h with
  | here hn => exact ⟨[], .here hn⟩
  | next hs _ ih =>
    obtain ⟨l, hl⟩ := ih
    exact ⟨_ :: l, .next hs hl⟩

/-- From every cell on the way, the rest of the chain is shorter. -/
theorem Passes.tail {l : List CellId} (h : s.Passes l c r) :
    ∀ d ∈ l, ∃ l', s.Passes l' d r ∧ l'.length ≤ l.length := by
  induction h with
  | here => simp
  | next hs hl ih =>
    intro d hd
    rcases List.mem_cons.mp hd with rfl | hd
    · exact ⟨_, .next hs hl, Nat.le_refl _⟩
    · obtain ⟨l', hl', hle⟩ := ih d hd
      exact ⟨l', hl', by simp; omega⟩

theorem Passes.nodup {l : List CellId} (h : s.Passes l c r) : l.Nodup := by
  induction h with
  | here => exact List.nodup_nil
  | next hs hl ih =>
    refine List.nodup_cons.mpr ⟨fun hc => ?_, ih⟩
    -- a second visit would have a chain that is at once longer and shorter
    obtain ⟨l', hl', hle⟩ := hl.tail _ hc
    have := (Passes.next hs hl).unique hl'
    subst this
    exact absurd hle (by simp)

theorem Passes.length_le {l : List CellId} (h : s.Passes l c r) : l.length ≤ s.cells.size := by
  have hlt : ∀ d ∈ l, d < s.cells.size := by
    induction h with
    | here => simp
    | next hs _ ih =>
      intro d hd
      rcases List.mem_cons.mp hd with rfl | hd
      · exact lt_of_target hs
      · exact ih d hd
  have hsub : l.toFinset ⊆ Finset.range s.cells.size := by
    intro d hd
    exact Finset.mem_range.mpr (hlt d (List.mem_toFinset.mp hd))
  have := Finset.card_le_card hsub
  rwa [List.toFinset_card_of_nodup h.nodup, Finset.card_range] at this

theorem Passes.follow_eq {l : List CellId} (h : s.Passes l c r) (n : Nat) (hn : l.length ≤ n) :
    s.follow n c = r := by
  induction h generalizing n with
  | here ht => cases n <;> simp [follow, ht]
  | next hs _ ih =>
    cases n with
    | zero => simp at hn
    | succ n => simp [follow, hs, ih n (by simpa using hn)]

theorem Leads.root_eq (h : s.Leads c r) : s.root c = r := by
  obtain ⟨l, hl⟩ := h.passes
  exact hl.follow_eq _ hl.length_le

theorem Grounded.leads_root (h : s.Grounded) (c : CellId) : s.Leads c (s.root c) := by
  obtain ⟨r, hr⟩ := h c
  rwa [hr.root_eq]

theorem Grounded.target_root (h : s.Grounded) (c : CellId) : (s.cell (s.root c)).target = none :=
  (h.leads_root c).target_end

theorem root_eq_self (h : (s.cell c).target = none) : s.root c = c :=
  (Leads.here h).root_eq

theorem Grounded.root_root (h : s.Grounded) (c : CellId) : s.root (s.root c) = s.root c :=
  root_eq_self (h.target_root c)

theorem Leads.lt (h : s.Leads c r) (ht : ∀ a b, (s.cell a).target = some b → b < s.cells.size)
    (hc : c < s.cells.size) : r < s.cells.size := by
  induction h with
  | here => exact hc
  | next hs _ ih => exact ih (ht _ _ hs)

/-- A chain survives a change of the store that keeps the links on it. -/
theorem Leads.congr (h : s.Leads c r) (ht : ∀ d, (t.cell d).target = (s.cell d).target) :
    t.Leads c r := by
  induction h with
  | here hn => exact .here (by rw [ht, hn])
  | next hs _ ih => exact .next (by rw [ht, hs]) ih

theorem Grounded.congr (h : s.Grounded) (ht : ∀ d, (t.cell d).target = (s.cell d).target) :
    t.Grounded := by
  intro c
  obtain ⟨r, hr⟩ := h c
  exact ⟨r, hr.congr ht⟩

theorem root_congr (h : s.Grounded) (ht : ∀ d, (t.cell d).target = (s.cell d).target)
    (c : CellId) : t.root c = s.root c :=
  ((h.leads_root c).congr ht).root_eq

theorem Grounded.cut (h : s.Grounded)
    (ht : ∀ d, (t.cell d).target = (s.cell d).target ∨ (t.cell d).target = none) :
    t.Grounded := by
  intro c
  obtain ⟨r, hr⟩ := h c
  induction hr with
  | @here c hn =>
    refine ⟨c, .here ?_⟩
    rcases ht c with h | h
    · rw [h, hn]
    · exact h
  | @next c d r hs _ ih =>
    rcases ht c with h | h
    · obtain ⟨r', hr'⟩ := ih
      exact ⟨r', .next (by rw [h, hs]) hr'⟩
    · exact ⟨c, .here h⟩

/-- A link from `c` to another root closes no circle: chains through `c` now end there. -/
theorem Grounded.relink (h : s.Grounded) (hr : (s.cell r).target = none) (hne : r ≠ c)
    (htc : (t.cell c).target = some r)
    (ht : ∀ d, d ≠ c → (t.cell d).target = (s.cell d).target) : t.Grounded := by
  have hrt : t.Leads r r := .here (by rw [ht r hne, hr])
  intro d
  obtain ⟨e, he⟩ := h d
  induction he with
  | @here d hn =>
    by_cases hd : d = c
    · subst hd
      exact ⟨r, .next htc hrt⟩
    · exact ⟨d, .here (by rw [ht d hd, hn])⟩
  | @next d e r' hs _ ih =>
    by_cases hd : d = c
    · subst hd
      exact ⟨r, .next htc hrt⟩
    · obtain ⟨r'', hr''⟩ := ih
      exact ⟨r'', .next (by rw [ht d hd, hs]) hr''⟩

end VectorMachine.Store
