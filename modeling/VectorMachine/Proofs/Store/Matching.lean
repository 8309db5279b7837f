import Mathlib.Data.Option.Basic
import VectorMachine.Proofs.Store.Isolation
import VectorMachine.Proofs.Store.Views

/-!
# Stores that match

Two stores match along a pairing of their cells if paired cells have paired links, show the same
and share their buffers in the same way.  The numbers of cells and buffers, and all cells that
are not paired, may differ.  The match is deep if it also compares what is hidden under a link.

Every operation gives stores that match again, or fails in the same way on both.
-/

namespace VectorMachine.Store
set_option autoImplicit false

/-- Which cells of two stores correspond. -/
abbrev Pairing := CellId → CellId → Prop

/-- Whether the data of a cell count: those under a link count only in a deep match. -/
def Counts (deep : Prop) (s : Store) (c : CellId) : Prop := deep ∨ (s.cell c).target = none

/-- The cells themselves have the same shape and the same elements. -/
structure SameData (s : Store) (x : Cell) (s' : Store) (x' : Cell) : Prop where
  size_eq : x.size = x'.size
  lengths_eq : x.lengths = x'.lengths
  offset_eq : x.offset = x'.offset
  lanes_eq : s.lanes? x = s'.lanes? x'

structure Matches (deep : Prop) (R : Pairing) (s s' : Store) : Prop where
  sound : s.Sound
  sound' : s'.Sound
  lt : ∀ {c c'}, R c c' → c < s.cells.size ∧ c' < s'.cells.size
  inj : ∀ {c c' d d'}, R c c' → R d d' → (c = d ↔ c' = d')
  target : ∀ {c c'}, R c c' → Option.Rel R (s.cell c).target (s'.cell c').target
  data : ∀ {c c'}, R c c' → Counts deep s c → SameData s (s.cell c) s' (s'.cell c')
  share : ∀ {c c' d d'}, R c c' → R d d' → Counts deep s c → Counts deep s d →
    ((s.cell c).buffer = (s.cell d).buffer ↔ (s'.cell c').buffer = (s'.cell d').buffer)

variable {deep : Prop} {R R' : Pairing} {s s' t t' u u' : Store} {c c' d d' : CellId}

theorem SameData.symm {x x' : Cell} (h : SameData s x s' x') : SameData s' x' s x :=
  ⟨h.size_eq.symm, h.lengths_eq.symm, h.offset_eq.symm, h.lanes_eq.symm⟩

theorem target_eq_none_iff {x y : Option CellId} (h : Option.Rel R x y) : x = none ↔ y = none := by
  cases h <;> simp

theorem rel_symm {x y : Option CellId} (h : Option.Rel R x y) :
    Option.Rel (fun b a => R a b) y x := by
  cases h with
  | some h => exact .some h
  | none => exact .none

theorem rel_mono {x y : Option CellId} (hR : ∀ {c c'}, R c c' → R' c c') (h : Option.Rel R x y) :
    Option.Rel R' x y := by
  cases h with
  | some h => exact .some (hR h)
  | none => exact .none

theorem Matches.counts_iff (h : Matches deep R s s') (hc : R c c') :
    Counts deep s c ↔ Counts deep s' c' := by
  unfold Counts
  rw [target_eq_none_iff (h.target hc)]

theorem Matches.refl (deep : Prop) (hs : s.Sound) :
    Matches deep (fun c c' => c = c' ∧ c < s.cells.size) s s where
  sound := hs
  sound' := hs
  lt := by
    rintro c c' ⟨rfl, hc⟩
    exact ⟨hc, hc⟩
  inj := by
    rintro c c' d d' ⟨rfl, -⟩ ⟨rfl, -⟩
    exact Iff.rfl
  target := by
    rintro c c' ⟨rfl, -⟩
    cases h : (s.cell c).target with
    | none => exact .none
    | some d => exact .some ⟨rfl, hs.target_lt h⟩
  data := by
    rintro c c' ⟨rfl, -⟩ -
    exact ⟨rfl, rfl, rfl, rfl⟩
  share := by
    rintro c c' d d' ⟨rfl, -⟩ ⟨rfl, -⟩ - -
    exact Iff.rfl

theorem Matches.symm (h : Matches deep R s s') : Matches deep (fun c' c => R c c') s' s where
  sound := h.sound'
  sound' := h.sound
  lt hc := ⟨(h.lt hc).2, (h.lt hc).1⟩
  inj hc hd := (h.inj hc hd).symm
  target hc := rel_symm (h.target hc)
  data hc hn := (h.data hc ((h.counts_iff hc).mpr hn)).symm
  share hc hd hn hn' :=
    (h.share hc hd ((h.counts_iff hc).mpr hn) ((h.counts_iff hd).mpr hn')).symm

/-! ### Roots -/

theorem Matches.leads {r : CellId} (h : Matches deep R s s') (hl : s.Leads c r) :
    ∀ {c'}, R c c' → ∃ r', s'.Leads c' r' ∧ R r r' := by
  induction hl with
  | here hn =>
    intro c' hc
    exact ⟨c', .here ((target_eq_none_iff (h.target hc)).mp hn), hc⟩
  | next hs _ ih =>
    intro c' hc
    have ht := h.target hc
    rw [hs] at ht
    cases hs' : (s'.cell c').target with
    | none => rw [hs'] at ht; cases ht
    | some d' =>
      rw [hs'] at ht
      cases ht with
      | some hd =>
        obtain ⟨r', hr', hrr⟩ := ih hd
        exact ⟨r', .next hs' hr', hrr⟩

theorem Matches.root (h : Matches deep R s s') (hc : R c c') : R (s.root c) (s'.root c') := by
  obtain ⟨r', hr', hrr⟩ := h.leads (h.sound.grounded.leads_root c) hc
  rwa [hr'.root_eq]

theorem Matches.counts_root (h : Matches deep R s s') (c : CellId) : Counts deep s (s.root c) :=
  .inr (h.sound.grounded.target_root c)

theorem Matches.alike (h : Matches deep R s s') (hc : R c c') : s.Alike c s' c' := by
  have hd := h.data (h.root hc) (h.counts_root c)
  exact ⟨hd.lanes_eq, hd.size_eq, hd.lengths_eq, hd.offset_eq⟩

theorem Matches.isAlias_eq (h : Matches deep R s s') (hc : R c c') :
    s.isAlias c = s'.isAlias c' := by
  have ht := h.target hc
  unfold isAlias
  revert ht
  generalize (s.cell c).target = x, (s'.cell c').target = y
  intro ht
  cases ht <;> rfl

theorem Matches.root_eq_iff (h : Matches deep R s s') (hc : R c c') (hd : R d d') :
    s.root c = d ↔ s'.root c' = d' :=
  h.inj (h.root hc) hd

theorem Matches.share_root (h : Matches deep R s s') (hc : R c c') (hd : R d d')
    (hn : Counts deep s d) :
    (s.rootCell c).buffer = (s.cell d).buffer ↔ (s'.rootCell c').buffer = (s'.cell d').buffer :=
  h.share (h.root hc) hd (h.counts_root c) hn

theorem lanes?_eq_none_iff (h : s.Sound) : s.lanes? (s.cell c) = none ↔ (s.cell c).buffer = none := by
  unfold lanes?
  cases hb : (s.cell c).buffer with
  | none => simp
  | some b => simpa using h.buffer_lt hb

theorem Matches.buffer_eq_none_iff (h : Matches deep R s s') (hc : R c c')
    (hn : Counts deep s c) : (s.cell c).buffer = none ↔ (s'.cell c').buffer = none := by
  rw [← lanes?_eq_none_iff h.sound, ← lanes?_eq_none_iff h.sound', (h.data hc hn).lanes_eq]

/-! ### Fewer and more pairs -/

/-- A pairing can be cut down to cells whose links stay inside. -/
theorem Matches.restrict (h : Matches deep R s s') (hsub : ∀ {c c'}, R' c c' → R c c')
    (htarget : ∀ {c c' d d'}, R' c c' → (s.cell c).target = some d → (s'.cell c').target = some d' →
      R d d' → R' d d') : Matches deep R' s s' where
  sound := h.sound
  sound' := h.sound'
  lt hc := h.lt (hsub hc)
  inj hc hd := h.inj (hsub hc) (hsub hd)
  target {c c'} hc := by
    have ht := h.target (hsub hc)
    cases hs : (s.cell c).target <;> cases hs' : (s'.cell c').target <;> rw [hs, hs'] at ht <;>
      cases ht
    · exact .none
    · exact .some (htarget hc hs hs' ‹_›)
  data hc := h.data (hsub hc)
  share hc hd := h.share (hsub hc) (hsub hd)

/-- A change of the first store away from the paired cells and their buffers. -/
theorem Matches.frame (h : Matches deep R s s') (ht : t.Sound)
    (hle : s.cells.size ≤ t.cells.size) (hcell : ∀ {c c'}, R c c' → t.cell c = s.cell c)
    (hlanes : ∀ {c c'}, R c c' → t.lanes? (s.cell c) = s.lanes? (s.cell c)) :
    Matches deep R t s' where
  sound := ht
  sound' := h.sound'
  lt hc := ⟨Nat.lt_of_lt_of_le (h.lt hc).1 hle, (h.lt hc).2⟩
  inj := h.inj
  target hc := by
    rw [hcell hc]
    exact h.target hc
  data hc hn := by
    unfold Counts at hn
    rw [hcell hc] at hn ⊢
    have := h.data hc hn
    exact ⟨this.size_eq, this.lengths_eq, this.offset_eq, (hlanes hc).trans this.lanes_eq⟩
  share hc hd hn hn' := by
    unfold Counts at hn hn'
    rw [hcell hc] at hn ⊢
    rw [hcell hd] at hn' ⊢
    exact h.share hc hd hn hn'

theorem Matches.frame' (h : Matches deep R s s') (ht : t'.Sound)
    (hle : s'.cells.size ≤ t'.cells.size) (hcell : ∀ {c c'}, R c c' → t'.cell c' = s'.cell c')
    (hlanes : ∀ {c c'}, R c c' → t'.lanes? (s'.cell c') = s'.lanes? (s'.cell c')) :
    Matches deep R s t' :=
  (h.symm.frame ht hle (fun hc => hcell hc) fun hc => hlanes hc).symm

/-- A change of a region that shares nothing with the paired cells. -/
theorem Matches.touches {C : CellId → Prop} (h : Matches deep R s s') (ht : Touches C s t)
    (hC : ∀ {c c'}, R c c' → ¬ C c)
    (hb : ∀ {c c' d b}, R c c' → C d → (s.cell c).buffer = some b → (s.cell d).buffer ≠ some b) :
    Matches deep R t s' := by
  refine h.frame (ht.sound h.sound) ht.cells_le (fun hc => ht.cell_eq (hC hc)) fun {c c'} hc => ?_
  unfold lanes?
  cases hcb : (s.cell c).buffer with
  | none => rfl
  | some b => exact ht.buffer_eq (h.sound.buffer_lt hcb) fun d hd => hb hc hd hcb

theorem Holds.sameData {o : Option Scalar} (h : s.Holds c o) (h' : s'.Holds c' o) :
    SameData s (s.cell c) s' (s'.cell c') := by
  cases o with
  | none =>
    change s.cell c = {} at h
    change s'.cell c' = {} at h'
    rw [h, h']
    exact ⟨rfl, rfl, rfl, rfl⟩
  | some v =>
    obtain ⟨b, hb, hx⟩ := h
    obtain ⟨b', hb', hx'⟩ := h'
    rw [hb, hb']
    exact ⟨rfl, rfl, rfl, hx.trans hx'.symm⟩

/-- A change of an isolated cell that is not paired. -/
theorem Matches.rewrites {p : CellId} (h : Matches deep R s s') (hp : s.Isolated p)
    (hR : ∀ {c c'}, R c c' → c ≠ p) (ht : s.Rewrites p t) : Matches deep R t s' := by
  refine h.touches ht.touches (fun hc hC => ?_) fun hc hC hb hb' => ?_
  · rcases hC with hC | hC
    · exact hR hc hC
    · exact absurd (h.lt hc).1 (Nat.not_lt.mpr hC)
  · rcases hC with rfl | hC
    · exact hp.unshared (hR hc) hb' hb
    · simp [cell_of_le hC] at hb'

theorem Matches.rewrites' {p' : CellId} (h : Matches deep R s s') (hp : s'.Isolated p')
    (hR : ∀ {c c'}, R c c' → c' ≠ p') (ht : s'.Rewrites p' t') : Matches deep R s t' :=
  (h.symm.rewrites hp (fun hc => hR hc) ht).symm

/-- Two isolated cells share their buffers only if both have none. -/
theorem Isolated.buffer_eq_iff (hc : s.Isolated c) (hne : d ≠ c) :
    (s.cell c).buffer = (s.cell d).buffer ↔
      (s.cell c).buffer = none ∧ (s.cell d).buffer = none := by
  cases hb : (s.cell c).buffer with
  | none => simp [eq_comm]
  | some b =>
    have := hc.unshared hne hb
    simpa using Ne.symm this

/-- Isolated cells with the same data may be paired. -/
theorem Matches.join {P : Pairing} (h : Matches deep R s s')
    (hP : ∀ {p p'}, P p p' → s.Isolated p ∧ s'.Isolated p' ∧ SameData s (s.cell p) s' (s'.cell p'))
    (hinj : ∀ {p p' q q'}, P p p' → P q q' → (p = q ↔ p' = q'))
    (hnew : ∀ {c c' p p'}, R c c' → P p p' → c ≠ p ∧ c' ≠ p') :
    Matches deep (fun c c' => R c c' ∨ P c c') s s' := by
  have hnone : ∀ {p p'}, P p p' → ((s.cell p).buffer = none ↔ (s'.cell p').buffer = none) := by
    intro p p' hp
    rw [← lanes?_eq_none_iff h.sound, ← lanes?_eq_none_iff h.sound', (hP hp).2.2.lanes_eq]
  -- an isolated cell shares its buffer with another one only if both have none
  have halone : ∀ {p p' c c'}, P p p' → R c c' → Counts deep s c →
      ((s.cell p).buffer = (s.cell c).buffer ↔ (s'.cell p').buffer = (s'.cell c').buffer) := by
    intro p p' c c' hp hc hn
    obtain ⟨hne, hne'⟩ := hnew hc hp
    rw [(hP hp).1.buffer_eq_iff hne, (hP hp).2.1.buffer_eq_iff hne', hnone hp,
      h.buffer_eq_none_iff hc hn]
  refine ⟨h.sound, h.sound', ?_, ?_, ?_, ?_, ?_⟩
  · rintro c c' (hc | hp)
    · exact h.lt hc
    · exact ⟨(hP hp).1.lt, (hP hp).2.1.lt⟩
  · rintro c c' d d' (hc | hp) (hd | hq)
    · exact h.inj hc hd
    · exact ⟨fun he => absurd he (hnew hc hq).1, fun he => absurd he (hnew hc hq).2⟩
    · exact ⟨fun he => absurd he.symm (hnew hd hp).1, fun he => absurd he.symm (hnew hd hp).2⟩
    · exact hinj hp hq
  · rintro c c' (hc | hp)
    · exact rel_mono .inl (h.target hc)
    · rw [(hP hp).1.target_eq, (hP hp).2.1.target_eq]
      exact .none
  · rintro c c' (hc | hp) hn
    · exact h.data hc hn
    · exact (hP hp).2.2
  · rintro c c' d d' (hc | hp) (hd | hq) hn hn'
    · exact h.share hc hd hn hn'
    · have := halone hq hc hn
      rwa [eq_comm, @eq_comm _ (s'.cell _).buffer]
    · exact halone hp hd hn'
    · by_cases he : c = d
      · simp [he, (hinj hp hq).mp he]
      · have he' : c' ≠ d' := fun he' => he ((hinj hp hq).mpr he')
        rw [(hP hp).1.buffer_eq_iff (Ne.symm he), (hP hp).2.1.buffer_eq_iff (Ne.symm he'), hnone hp,
          hnone hq]

/-! ### A change of two paired cells -/

/-- `t` is `s` with the cell `x` at `c`, and perhaps with more buffers. -/
structure Updates (s : Store) (c : CellId) (x : Cell) (t : Store) : Prop where
  size_eq : t.cells.size = s.cells.size
  cell_self : t.cell c = x
  cell_other : ∀ {d}, d ≠ c → t.cell d = s.cell d
  buffers_eq : ∀ {i}, i < s.buffers.size → t.buffers[i]? = s.buffers[i]?
  sound : t.Sound

theorem Updates.lanes?_eq {x : Cell} (h : Updates s c x t) (hs : s.Sound) (d : CellId) :
    t.lanes? (s.cell d) = s.lanes? (s.cell d) := by
  unfold lanes?
  cases hb : (s.cell d).buffer with
  | none => rfl
  | some b => exact h.buffers_eq (hs.buffer_lt hb)

theorem Matches.update {x x' : Cell} (h : Matches deep R s s') (hc : R c c')
    (ht : Updates s c x t) (ht' : Updates s' c' x' t') (htarget : Option.Rel R x.target x'.target)
    (hdata : deep ∨ x.target = none → SameData t x t' x')
    (hshare : ∀ {d d'}, R d d' → deep ∨ x.target = none → Counts deep s d →
      (x.buffer = (s.cell d).buffer ↔ x'.buffer = (s'.cell d').buffer)) :
    Matches deep R t t' := by
  -- a pair is the changed one or untouched on both sides
  have hcases : ∀ {d d'}, R d d' → d = c ∧ d' = c' ∨ t.cell d = s.cell d ∧ t'.cell d' = s'.cell d' := by
    intro d d' hd
    by_cases he : d = c
    · exact .inl ⟨he, (h.inj hd hc).mp he⟩
    · exact .inr ⟨ht.cell_other he, ht'.cell_other fun he' => he ((h.inj hd hc).mpr he')⟩
  refine ⟨ht.sound, ht'.sound, fun hd => ?_, h.inj, fun hd => ?_, fun {d d'} hd hn => ?_,
    fun {d d' e e'} hd he hn hn' => ?_⟩
  · rw [ht.size_eq, ht'.size_eq]
    exact h.lt hd
  · rcases hcases hd with ⟨rfl, rfl⟩ | ⟨h₁, h₂⟩
    · rwa [ht.cell_self, ht'.cell_self]
    · rw [h₁, h₂]
      exact h.target hd
  · unfold Counts at hn
    rcases hcases hd with ⟨rfl, rfl⟩ | ⟨h₁, h₂⟩
    · rw [ht.cell_self] at hn ⊢
      rw [ht'.cell_self]
      exact hdata hn
    · rw [h₁] at hn ⊢
      rw [h₂]
      have := h.data hd hn
      exact ⟨this.size_eq, this.lengths_eq, this.offset_eq, by
        rw [ht.lanes?_eq h.sound, ht'.lanes?_eq h.sound', this.lanes_eq]⟩
  · unfold Counts at hn hn'
    rcases hcases hd with ⟨rfl, rfl⟩ | ⟨h₁, h₂⟩ <;>
      rcases hcases he with ⟨rfl, rfl⟩ | ⟨h₃, h₄⟩
    · simp
    · rw [ht.cell_self] at hn ⊢
      rw [h₃] at hn' ⊢
      rw [ht'.cell_self, h₄]
      exact hshare he hn hn'
    · rw [ht.cell_self] at hn' ⊢
      rw [h₁] at hn ⊢
      rw [ht'.cell_self, h₂, eq_comm, hshare hd hn' hn, eq_comm]
    · rw [h₁] at hn ⊢
      rw [h₃] at hn' ⊢
      rw [h₂, h₄]
      exact h.share hd he hn hn'

theorem updates_setCell {f : Cell → Cell} (hlt : c < s.cells.size)
    (ht : (s.setCell c f).Sound) : Updates s c (f (s.cell c)) (s.setCell c f) :=
  ⟨by simp, cell_setCell_self f hlt, fun hd => cell_setCell_of_ne f hd, fun _ => rfl, ht⟩

/-- A root with data of its own that no other cell shares. -/
theorem Matches.renew (h : Matches deep R s s') (hc : R c c') {data : Lanes} {lengths : List Int}
    (hfit : elementCount lengths ≤ data.size) :
    Matches deep R (s.renew c data lengths) (s'.renew c' data lengths) := by
  have hupdates : ∀ {s : Store} {c : CellId}, s.Sound → s.root c < s.cells.size →
      Updates s (s.root c) (presented (s.cell (s.root c)) (some s.buffers.size) 0 lengths)
        (s.renew c data lengths) := by
    intro s c hs hlt
    have hsound := (Touches.renew (C := fun _ => True) region_true (c := c) trivial hfit).sound hs
    rw [Store.renew, present_eq, root_pushBuffer] at *
    refine ⟨by simp, cell_setCell_self _ hlt, fun hd => cell_setCell_of_ne _ hd, fun {i} hi => ?_,
      hsound⟩
    exact buffers_pushBuffer_of_lt data hi
  have hr := h.root hc
  have ht := hupdates h.sound (h.lt hr).1
  have ht' := hupdates h.sound' (h.lt hr).2
  refine h.update hr ht ht' (h.target hr) (fun _ => ⟨rfl, rfl, rfl, ?_⟩) fun {d d'} hd _ _ => ?_
  · have hlanes : ∀ s : Store, ∀ c : CellId, (s.renew c data lengths).lanes?
        (presented (s.cell (s.root c)) (some s.buffers.size) 0 lengths) = some data :=
      fun s _ => buffers_pushBuffer_self (s := s) data
    rw [hlanes, hlanes]
  · refine ⟨fun he => ?_, fun he => ?_⟩
    · exact absurd (h.sound.buffer_lt he.symm) (Nat.lt_irrefl _)
    · exact absurd (h.sound'.buffer_lt he.symm) (Nat.lt_irrefl _)

end VectorMachine.Store
