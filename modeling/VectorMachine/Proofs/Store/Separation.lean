import VectorMachine.Proofs.Store.Changes

/-!
# Separated storage

Two sets of cells are separated if no link leads out of the first and no buffer is shown by cells
of both.  Edits keep this unless a link or an element view leads across.
-/

namespace VectorMachine.Store
set_option autoImplicit false

variable {s t : Store} {c d : CellId} {P Q : CellId → Prop} {g : Grant}

/-- No link leads out of `P`, and no cell of `P` shows a buffer that a cell of `Q` shows. -/
structure Parted (P Q : CellId → Prop) (s : Store) : Prop where
  disjoint : ∀ {c}, P c → ¬ Q c
  closed : ∀ {c d}, P c → (s.cell c).target = some d → P d
  apart : ∀ {c d i}, P c → Q d → (s.cell c).buffer = some i → (s.cell d).buffer ≠ some i

theorem Parted.root (h : s.Parted P Q) (hc : P c) : P (s.root c) := by
  unfold Store.root
  generalize s.cells.size = n
  induction n generalizing c with
  | zero => exact hc
  | succ n ih =>
    simp only [Store.follow]
    split
    · exact hc
    · rename_i d hd
      exact ih (h.closed hc hd)

theorem Parted.mono_right {Q' : CellId → Prop} (h : s.Parted P Q) (hQ : ∀ {c}, Q' c → Q c) :
    s.Parted P Q' :=
  ⟨fun hc hc' => h.disjoint hc (hQ hc'), h.closed, fun hc hd => h.apart hc (hQ hd)⟩

/-- Separation is symmetric if no link leads out of the other side either. -/
theorem Parted.symm (h : s.Parted P Q) (hclosed : ∀ {c d}, Q c → (s.cell c).target = some d → Q d) :
    s.Parted Q P :=
  ⟨fun hc hc' => h.disjoint hc' hc, hclosed, fun hc hd hi hj => h.apart hd hc hj hi⟩

/-- Whether new links and views stay on one side. -/
structure Grant.Parts (g : Grant) (P Q : CellId → Prop) : Prop where
  links : ∀ {s c d}, g.links s c d → d < s.cells.size ∧ (P c → P (s.root d))
  views : ∀ {s c a}, g.views s c a →
    (P (s.root c) → P (s.root a)) ∧ (Q (s.root c) → Q (s.root a))
  hosts : ∀ {s t}, g.hosts s t → s.Sound → s.Parted P Q → t.Parted P Q
  sound : ∀ {s t}, g.hosts s t → s.Sound → t.Sound

/-- A grant that allows no link, view or host code. -/
theorem Grant.parts_stores {D E : CellId → Prop} :
    ({ stores := D, frees := E } : Grant).Parts P Q :=
  ⟨False.elim, False.elim, False.elim, False.elim⟩

theorem cell_present (b : Option BufferId) (offset : Nat) (lengths : List Int) :
    (s.present c b offset lengths).cell d =
      if s.root c = d ∧ d < s.cells.size then presented (s.cell d) b offset lengths
      else s.cell d :=
  cell_setCell _

/-- Giving a root another buffer keeps the sides apart if no cell of the other side shows it. -/
theorem Parted.present (h : s.Parted P Q) {b : Option BufferId} {offset : Nat}
    {lengths : List Int}
    (hP : P (s.root c) → ∀ d i, Q d → b = some i → (s.cell d).buffer ≠ some i)
    (hQ : Q (s.root c) → ∀ d i, P d → b = some i → (s.cell d).buffer ≠ some i) :
    (s.present c b offset lengths).Parted P Q := by
  refine ⟨h.disjoint, fun {e f} he hf => ?_, fun {e f i} he hf hi hj => ?_⟩
  · rw [cell_present] at hf
    split at hf <;> exact h.closed he hf
  · rw [cell_present] at hi hj
    split at hi <;> split at hj
    · rename_i h₁ h₂
      exact h.disjoint he (h₁.1.symm.trans h₂.1 ▸ hf)
    · rename_i h₁ _
      exact hP (h₁.1 ▸ he) f i hf hi hj
    · rename_i _ h₂
      exact hQ (h₂.1 ▸ hf) e i he hj hi
    · exact h.apart he hf hi hj

/-- Changing links alone keeps buffers apart. -/
theorem Parted.relink (h : s.Parted P Q)
    (hbuffer : ∀ c, (t.cell c).buffer = (s.cell c).buffer ∨ (t.cell c).buffer = none)
    (htarget : ∀ {c d}, P c → (t.cell c).target = some d → P d) : t.Parted P Q := by
  have hold : ∀ {c i}, (t.cell c).buffer = some i → (s.cell c).buffer = some i := by
    intro c i hi
    rcases hbuffer c with hc | hc
    · exact hc ▸ hi
    · rw [hc] at hi
      cases hi
  exact ⟨h.disjoint, htarget, fun he hf hi hj => h.apart he hf (hold hi) (hold hj)⟩

theorem Parted.unlink (h : s.Parted P Q) (c : CellId) : (s.unlink c).Parted P Q := by
  refine h.relink (fun d => .inl ?_) fun {e f} he hf => ?_
  · unfold Store.unlink
    rw [cell_setCell]
    split <;> rfl
  · unfold Store.unlink at hf
    rw [cell_setCell] at hf
    split at hf
    · cases hf
    · exact h.closed he hf

theorem Parted.unlinkAll (h : s.Parted P Q) (cs : List CellId) :
    (cs.foldl Store.unlink s).Parted P Q := by
  induction cs generalizing s with
  | nil => exact h
  | cons c cs ih => exact ih (h.unlink c)

theorem target_unlinkAll {cs : List CellId} (hc : c ∈ cs ∨ (s.cell c).target = none) :
    ((cs.foldl Store.unlink s).cell c).target = none := by
  induction cs generalizing s with
  | nil => simpa using hc
  | cons d cs ih =>
    refine ih ?_
    have hcut : ∀ {e}, e = d ∨ (s.cell e).target = none → ((s.unlink d).cell e).target = none := by
      intro e he
      unfold Store.unlink
      rw [cell_setCell]
      split
      · rfl
      · rename_i hne
        rcases he with rfl | he
        · rw [cell_of_le (Nat.le_of_not_lt fun hlt => hne ⟨rfl, hlt⟩)]
        · exact he
    rcases hc with hc | hc
    · exact (List.mem_cons.mp hc).symm.imp_right fun hc => hcut (.inl hc)
    · exact .inr (hcut (.inr hc))

theorem size_unlinkAll (cs : List CellId) :
    (cs.foldl Store.unlink s).cells.size = s.cells.size := by
  induction cs generalizing s with
  | nil => rfl
  | cons c cs ih => exact ih.trans (size_cells_setCell _)

theorem cell_unlinkAll {cs : List CellId} (hc : c ∉ cs) :
    (cs.foldl Store.unlink s).cell c = s.cell c := by
  induction cs generalizing s with
  | nil => rfl
  | cons d cs ih =>
    rw [List.mem_cons, not_or] at hc
    rw [List.foldl_cons, ih hc.2, unlink, cell_setCell_of_ne _ hc.1]

theorem buffers_unlinkAll (cs : List CellId) : (cs.foldl Store.unlink s).buffers = s.buffers := by
  induction cs generalizing s with
  | nil => rfl
  | cons d cs ih => exact ih

theorem Parted.free (h : s.Parted P Q) (c : CellId) : (s.free c).Parted P Q := by
  refine h.relink (fun d => ?_) fun {e f} he hf => ?_
  · unfold Store.free
    rw [cell_setCell]
    split
    · exact .inr rfl
    · exact .inl rfl
  · unfold Store.free at hf
    rw [cell_setCell] at hf
    split at hf
    · cases hf
    · exact h.closed he hf

theorem Parted.link (h : s.Parted P Q) (hd : P c → P (s.root d)) : (s.link c d).Parted P Q := by
  unfold Store.link
  dsimp only
  split
  · exact h
  · refine h.relink (fun e => .inl ?_) fun {e f} he hf => ?_
    · rw [cell_setCell]
      split <;> rfl
    · rw [cell_setCell] at hf
      split at hf
      · rename_i hce
        cases hf
        exact hd (hce.1 ▸ he)
      · exact h.closed he hf

theorem Parted.renew (hs : s.Sound) (h : s.Parted P Q) {data : Lanes} {lengths : List Int} :
    (s.renew c data lengths).Parted P Q := by
  -- the new buffer is shown by nobody yet
  have hnew : ∀ d i, some s.buffers.size = some i → (s.cell d).buffer ≠ some i := by
    intro d i hi hd
    cases hi
    exact Nat.lt_irrefl _ (hs.buffer_lt hd)
  have hpush : (s.pushBuffer data).Parted P Q := ⟨h.disjoint, h.closed, h.apart⟩
  exact hpush.present (fun _ d i _ hi => hnew d i hi) fun _ d i _ hi => hnew d i hi

theorem Edit.sound (hlinks : ∀ {s c d}, g.links s c d → d < s.cells.size)
    (hhosts : ∀ {s t}, g.hosts s t → s.Sound → t.Sound) (he : Edit g s t) (hs : s.Sound) :
    t.Sound := by
  cases he with
  | host ht => exact hhosts ht hs
  | fresh => exact (Touches.fresh region_true).sound hs
  | renew _ _ hfit => exact (Touches.renew region_true trivial hfit).sound hs
  | clear =>
    exact (Touches.present region_true trivial rfl (Nat.le_refl _) (fun _ _ => rfl) (by simp)
      (by simp)).sound hs
  | write => exact (Touches.write region_true trivial _).sound hs
  | free => exact (Touches.free region_true trivial).sound hs
  | link hl => exact (Touches.link region_true trivial trivial (hlinks hl)).sound hs
  | @view c a data offset hv hb hfit =>
    have he : Edit { stores := fun _ => True, views := fun _ _ _ => True } s
        (s.present c (s.rootCell a).buffer offset []) := .view trivial hb hfit
    exact (he.touches ⟨id, False.elim, False.elim, fun _ => ⟨trivial, trivial⟩,
      fun _ => False.elim⟩ region_true).sound hs

theorem Edit.parted (hg : g.Parts P Q) (he : Edit g s t) (hs : s.Sound) (h : s.Parted P Q) :
    t.Parted P Q := by
  cases he with
  | fresh =>
    refine ⟨h.disjoint, fun hc hd => ?_, fun hc hd hi hj => ?_⟩
    · exact h.closed hc (by simpa using hd)
    · exact h.apart hc hd (by simpa using hi) (by simpa using hj)
  | renew => exact h.renew hs
  | clear => exact h.present (by simp) (by simp)
  | @write c data _ =>
    refine h.relink (fun e => .inl ?_) fun {e f} he hf => ?_
    · rw [cell_write]
    · rw [cell_write] at hf
      exact h.closed he hf
  | free => exact h.free _
  | link hl => exact h.link (hg.links hl).2
  | @view c a data offset hv hb hfit =>
    obtain ⟨hP, hQ⟩ := hg.views hv
    refine h.present (fun hr d i hd hi => ?_) fun hr d i hd hi => ?_
    · exact h.apart (hP hr) hd hi
    · exact fun hj => h.apart hd (hQ hr) hj hi
  | host ht => exact hg.hosts ht hs h

theorem Alters.parted (hg : g.Parts P Q) (ha : Alters g s t) (hs : s.Sound) (h : s.Parted P Q) :
    t.Sound ∧ t.Parted P Q :=
  Alters.keeps (I := fun s => s.Sound ∧ s.Parted P Q)
    (fun he hI => ⟨he.sound (fun hl => (hg.links hl).1) hg.sound hI.1, he.parted hg hI.1 hI.2⟩) ha
    ⟨hs, h⟩

/-- Edits that free, link and call nothing keep all links. -/
theorem Alters.target_eq {D : CellId → Prop} (ha : Alters { stores := D } s t) (c : CellId) :
    (t.cell c).target = (s.cell c).target := by
  refine Alters.keeps (I := fun u => (u.cell c).target = (s.cell c).target) (fun he hu => ?_) ha rfl
  rw [← hu]
  cases he with
  | fresh => simp
  | renew =>
    rw [Store.renew, cell_present]
    split <;> rfl
  | clear =>
    rw [cell_present]
    split <;> rfl
  | write => simp
  | free h => exact h.elim
  | link h => exact h.elim
  | view h => exact h.elim
  | host h => exact h.elim

end VectorMachine.Store
