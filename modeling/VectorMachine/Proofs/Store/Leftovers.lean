import VectorMachine.Proofs.Store.Agreement
import VectorMachine.Proofs.Store.Results

/-!
# Leftovers

A container that an earlier run has left is spare if no other container has to do with it and it
could have been allocated as it is.  Operations that do not look at their destination turn two
spare containers of stores that match, whatever they hold, into containers that can be paired.
-/

namespace VectorMachine.Store
set_option autoImplicit false

variable {deep : Prop} {R R' : Pairing} {s s' t t' u : Store} {a a' b b' c c' d d' : CellId}
  {ty : DataType} {lengths : List Int} {data : Lanes}

/-- Matches can be composed; what is hidden under a link need not match. -/
theorem Matches.trans (h : Matches False R s t) (h' : Matches deep R' t u) :
    Matches False (fun c c' => ∃ b, R c b ∧ R' b c') s u where
  sound := h.sound
  sound' := h'.sound'
  lt := by
    rintro c c' ⟨b, h₁, h₂⟩
    exact ⟨(h.lt h₁).1, (h'.lt h₂).2⟩
  inj := by
    rintro c c' d d' ⟨b, h₁, h₂⟩ ⟨e, h₃, h₄⟩
    rw [h.inj h₁ h₃, h'.inj h₂ h₄]
  target := by
    rintro c c' ⟨b, h₁, h₂⟩
    have ht := h.target h₁
    have ht' := h'.target h₂
    cases hb : (t.cell b).target with
    | none =>
      rw [hb] at ht ht'
      rw [(target_eq_none_iff ht).mpr rfl, (target_eq_none_iff ht').mp rfl]
      exact .none
    | some e =>
      rw [hb] at ht ht'
      cases hs : (s.cell c).target <;> rw [hs] at ht <;> cases ht
      cases hu : (u.cell c').target <;> rw [hu] at ht' <;> cases ht'
      exact .some ⟨e, ‹_›, ‹_›⟩
  data := by
    rintro c c' ⟨b, h₁, h₂⟩ hn
    have hb : (t.cell b).target = none := by simpa [Counts] using (h.counts_iff h₁).mp hn
    have hd := h.data h₁ hn
    have hd' := h'.data h₂ (.inr hb)
    exact ⟨hd.size_eq.trans hd'.size_eq, hd.lengths_eq.trans hd'.lengths_eq,
      hd.offset_eq.trans hd'.offset_eq, hd.lanes_eq.trans hd'.lanes_eq⟩
  share := by
    rintro c c' d d' ⟨b, h₁, h₂⟩ ⟨e, h₃, h₄⟩ hn hn'
    have hb : (t.cell b).target = none := by simpa [Counts] using (h.counts_iff h₁).mp hn
    have he : (t.cell e).target = none := by simpa [Counts] using (h.counts_iff h₃).mp hn'
    rw [h.share h₁ h₃ hn hn', h'.share h₂ h₄ (.inr hb) (.inr he)]

theorem Matches.shallow (h : Matches deep R s s') : Matches False R s s' where
  sound := h.sound
  sound' := h.sound'
  lt := h.lt
  inj := h.inj
  target := h.target
  data hc hn := h.data hc (.inr (by simpa [Counts] using hn))
  share hc hd hn hn' := h.share hc hd (.inr (by simpa [Counts] using hn))
    (.inr (by simpa [Counts] using hn'))

/-! ### Spare containers -/

/-- Why no container of a type and lengths can be allocated. -/
def refusal? (ty : DataType) (lengths : List Int) : Option Abort :=
  match lengths.find? (· < 0) with
  | some n => some (.fault { operation := "alloc", detail := "negative length " ++ toString n })
  | none => if isAllocatable ty (elementCount lengths) then none else some .oversized

structure Spare (s : Store) (c : CellId) : Prop where
  isolated : s.Isolated c
  whole : ∀ {xs}, s.lanes? (s.cell c) = some xs → (s.cell c).offset = 0 ∧
    (s.cell c).size = xs.size ∧ refusal? xs.type (s.cell c).lengths = none

/-- Only the cells that are there can be linked to a cell or share its buffer. -/
theorem isolated_iff : s.Isolated c ↔ c < s.cells.size ∧ (s.cell c).target = none ∧
    ∀ d < s.cells.size, (s.cell d).target ≠ some c ∧
      (d ≠ c → (s.cell c).buffer = none ∨ (s.cell d).buffer ≠ (s.cell c).buffer) := by
  constructor
  · intro h
    refine ⟨h.lt, h.target_eq, fun d _ => ⟨h.unlinked d, fun hd => ?_⟩⟩
    cases hb : (s.cell c).buffer with
    | none => exact .inl rfl
    | some b => exact .inr (h.unshared hd hb)
  · rintro ⟨hlt, htarget, hall⟩
    refine ⟨hlt, htarget, fun d hd => ?_, fun {d b} hne hb hd => ?_⟩
    · exact (hall d (lt_of_target hd)).1 hd
    · rcases (hall d (lt_of_buffer hd)).2 hne with hn | hn
      · rw [hb] at hn
        cases hn
      · exact hn (hd.trans hb.symm)

instance : Decidable (s.Isolated c) := decidable_of_iff _ isolated_iff.symm

theorem spare_iff : s.Spare c ↔ s.Isolated c ∧ ∀ xs ∈ s.lanes? (s.cell c), (s.cell c).offset = 0 ∧
    (s.cell c).size = xs.size ∧ refusal? xs.type (s.cell c).lengths = none :=
  ⟨fun h => ⟨h.isolated, fun _ hx => h.whole hx⟩, fun h => ⟨h.1, fun {xs} hx => h.2 xs hx⟩⟩

instance : Decidable (s.Spare c) := decidable_of_iff _ spare_iff.symm

theorem Isolated.rootCell_eq (h : s.Isolated c) : s.rootCell c = s.cell c := by
  rw [rootCell, root_eq_self h.target_eq]

/-- An isolated cell outside of what was touched shows the same as before. -/
theorem Isolated.alike {C : CellId → Prop} (h : s.Isolated c) (hs : s.Sound) (ht : Touches C s t)
    (hc : ¬ C c) : t.cell c = s.cell c ∧ t.lanes? (t.cell c) = s.lanes? (s.cell c) ∧
      t.Alike c s c := by
  have hcell := ht.cell_eq hc
  have hroot := (h.of_touches ht hs hc).rootCell_eq.trans hcell
  have hlanes : t.lanes? (s.cell c) = s.lanes? (s.cell c) := by
    unfold lanes?
    cases hb : (s.cell c).buffer with
    | none => rfl
    | some i => exact h.buffer_eq ht hs hc hb
  refine ⟨hcell, by rw [hcell, hlanes], ?_, ?_, ?_, ?_⟩
  · rw [buffer?, buffer?, hroot, h.rootCell_eq, hlanes]
  · rw [size, size, hroot, h.rootCell_eq]
  · rw [Store.lengths, Store.lengths, hroot, h.rootCell_eq]
  · rw [offset, offset, hroot, h.rootCell_eq]

theorem Spare.of_touches {C : CellId → Prop} (h : s.Spare c) (hs : s.Sound) (ht : Touches C s t)
    (hc : ¬ C c) : t.Spare c := by
  obtain ⟨hcell, hlanes, -⟩ := h.isolated.alike hs ht hc
  refine ⟨h.isolated.of_touches ht hs hc, fun {xs} hx => ?_⟩
  rw [hlanes] at hx
  rw [hcell]
  exact h.whole hx

theorem Puts.lanes?_eq (h : s.Puts c lengths data t) : t.lanes? (t.cell c) = some data := by
  obtain ⟨i, hcell, hx⟩ := h.cell_eq
  rw [hcell]
  exact hx

theorem Puts.spare (h : s.Puts c lengths data t) (hsize : elementCount lengths = data.size)
    (hr : refusal? data.type lengths = none) : t.Spare c := by
  refine ⟨h.isolated, fun {xs} hx => ?_⟩
  rw [h.lanes?_eq] at hx
  cases hx
  obtain ⟨i, hcell, -⟩ := h.cell_eq
  rw [hcell]
  exact ⟨rfl, hsize, hr⟩

theorem Puts.shape_eq (h : s.Puts c lengths data t) : t.shape c = ⟨data.type, lengths⟩ := by
  obtain ⟨i, hcell, hx⟩ := h.cell_eq
  have hroot := h.isolated.rootCell_eq
  simp only [shape, Shape.mk.injEq, type, Store.lengths, buffer?, hroot, h.lanes?_eq]
  exact ⟨rfl, by rw [hcell]⟩

theorem nonneg_of_refusal? (h : refusal? ty lengths = none) : 0 ≤ elementCount lengths := by
  unfold refusal? at h
  split at h
  · cases h
  · split at h
    · rename_i ha
      simp only [isAllocatable, Bool.and_eq_true, decide_eq_true_eq] at ha
      exact ha.1
    · cases h

/-- An allocation that does not keep what is there is refused, or stores zeros. -/
theorem alloc_eq_of_new (hty : ty.isConcrete = true) (hnew : s.isAllocated c ty lengths = false) :
    s.alloc c ty lengths = match refusal? ty lengths with
      | some e => .error e
      | none => match Lanes.zeros? ty (elementCount lengths).toNat with
        | some zeros => s.setData c zeros lengths
        | none => .error .oversized := by
  unfold alloc refusal?
  simp only [hnew, hty, Bool.false_eq_true, if_false, Bool.not_true]
  cases lengths.find? (· < 0) with
  | some n => rfl
  | none => cases isAllocatable ty (elementCount lengths) <;> rfl

theorem alloc_anew (hs : s.Sound) (h : s.Isolated c) (hty : ty.isConcrete = true)
    (hnew : s.isAllocated c ty lengths = false) :
    match refusal? ty lengths with
    | some e => s.alloc c ty lengths = .error e
    | none => ∃ zeros t, zeros.type = ty ∧ elementCount lengths = zeros.size ∧
        s.alloc c ty lengths = .ok t ∧ s.Puts c lengths zeros t := by
  rw [alloc_eq_of_new hty hnew]
  cases hr : refusal? ty lengths with
  | some e => rfl
  | none =>
    have hpos := nonneg_of_refusal? hr
    have hz := Lanes.zeros?_isSome ty (elementCount lengths).toNat
    rw [hty] at hz
    obtain ⟨zeros, hzeros⟩ := Option.isSome_iff_exists.mp hz
    have hsize : elementCount lengths = zeros.size := by
      rw [Lanes.size_zeros? hzeros]
      omega
    have hset : s.setData c zeros lengths = .ok (s.renew c zeros lengths) :=
      setData_eq_ok_iff.mpr ⟨by omega, rfl⟩
    simp only [hzeros]
    exact ⟨zeros, s.renew c zeros lengths, Lanes.type_zeros? hzeros, hsize, hset,
      puts_renew hs h (by omega)⟩

theorem alloc_spare (hs : s.Sound) (h : s.Spare c) (hty : ty.isConcrete = true)
    (lengths : List Int) :
    match refusal? ty lengths with
    | some e => s.alloc c ty lengths = .error e
    | none => ∃ t, s.alloc c ty lengths = .ok t ∧ s.Rewrites c t ∧ t.Spare c ∧
        t.shape c = ⟨ty, lengths⟩ := by
  cases ha : s.isAllocated c ty lengths with
  | true =>
    have hkeep : s.alloc c ty lengths = .ok s := by simp [alloc, ha]
    simp only [isAllocated, Bool.and_eq_true, beq_iff_eq] at ha
    obtain ⟨⟨⟨htype, -⟩, hlen⟩, -⟩ := ha
    have hr : refusal? ty lengths = none := by
      unfold type at htype
      cases hb : s.buffer? c with
      | none =>
        rw [hb] at htype
        rw [← htype] at hty
        cases hty
      | some xs =>
        rw [hb] at htype
        have hx : s.lanes? (s.cell c) = some xs := by rw [← h.isolated.rootCell_eq]; exact hb
        have hl : (s.cell c).lengths = lengths := by rw [← h.isolated.rootCell_eq]; exact hlen
        rw [← htype, ← hl]
        exact (h.whole hx).2.2
    rw [hr]
    exact ⟨s, hkeep, .refl h.isolated, h, by simp [shape, htype, hlen]⟩
  | false =>
    have := alloc_anew hs h.isolated hty ha
    cases hr : refusal? ty lengths with
    | some e =>
      rw [hr] at this
      exact this
    | none =>
      rw [hr] at this
      obtain ⟨zeros, t, hz, hsize, hok, hputs⟩ := this
      refine ⟨t, hok, hputs.toRewrites, hputs.spare hsize (hz ▸ hr), ?_⟩
      rw [hputs.shape_eq, hz]

/-- What is delivered to a spare container replaces what it holds. -/
theorem deliver_spare (hs : s.Sound) (h : s.Spare c)
    (hsize : data.size = (elementCount lengths).toNat) :
    match refusal? data.type lengths with
    | some e => s.deliver c lengths data = .error (.abort e)
    | none => ∃ t, s.deliver c lengths data = .ok t ∧ s.Puts c lengths data t := by
  have hty := data.isConcrete_type
  by_cases hsame : s.type c = data.type ∧ s.lengths c = lengths
  · obtain ⟨htype, hlen⟩ := hsame
    unfold type at htype
    cases hb : s.buffer? c with
    | none =>
      rw [hb] at htype
      rw [← htype] at hty
      cases hty
    | some xs =>
      rw [hb] at htype
      have hx : s.lanes? (s.cell c) = some xs := by rw [← h.isolated.rootCell_eq]; exact hb
      have hl : (s.cell c).lengths = lengths := by rw [← h.isolated.rootCell_eq]; exact hlen
      obtain ⟨hoff, hxs, hr⟩ := h.whole hx
      obtain ⟨i, hi, hxi⟩ := Option.bind_eq_some_iff.mp hx
      have hcount := (hs.shows_buffer hi hxi).size_eq
      rw [hl] at hcount hr
      rw [show data.type = xs.type from htype.symm, hr]
      refine ⟨s.write c data, ?_, puts_write h.isolated ?_ hxi htype (by omega)⟩
      · simp [deliver, prepare, type, hb, hlen, show xs.type = data.type from htype]
      · have htarget := h.isolated.target_eq
        cases hcell : s.cell c with
        | mk target buffer size lengths' offset => simp_all
  · have hnew : s.isAllocated c data.type lengths = false := by
      rw [Bool.eq_false_iff]
      intro ha
      simp only [isAllocated, Bool.and_eq_true, beq_iff_eq] at ha
      exact hsame ⟨ha.1.1.1, ha.1.2⟩
    have := alloc_anew hs h.isolated hty hnew
    cases hr : refusal? data.type lengths with
    | some e =>
      rw [hr] at this
      simp [deliver, prepare, hsame, this, Except.mapError]
    | none =>
      rw [hr] at this
      obtain ⟨zeros, t, hz, hcount, hok, hputs⟩ := this
      obtain ⟨i, hcell, hzi⟩ := hputs.cell_eq
      refine ⟨t.write c data, ?_, hputs.trans (puts_write hputs.isolated hcell hzi hz (by omega))⟩
      simp [deliver, prepare, hsame, hok, Except.mapError]

/-! ### Destinations that become paired -/

/-- The pairing with one more pair. -/
def Pairing.with (R : Pairing) (c c' : CellId) : Pairing := fun d d' => R d d' ∨ d = c ∧ d' = c'

/-- Isolated cells that are not paired and take the same data can be paired. -/
theorem Matches.paired (h : Matches deep R s s') (hc : s.Isolated c) (hc' : s'.Isolated c')
    (hR : ∀ {d d'}, R d d' → d ≠ c ∧ d' ≠ c') (ht : s.Rewrites c t) (ht' : s'.Rewrites c' t')
    (hdata : SameData t (t.cell c) t' (t'.cell c')) : Matches deep (R.with c c') t t' := by
  have h₁ := (h.rewrites hc (fun hd => (hR hd).1) ht).rewrites' hc' (fun hd => (hR hd).2) ht'
  refine h₁.join (P := fun d d' => d = c ∧ d' = c') ?_ ?_ ?_
  · rintro p p' ⟨rfl, rfl⟩
    exact ⟨ht.isolated, ht'.isolated, hdata⟩
  · rintro p p' q q' ⟨rfl, rfl⟩ ⟨rfl, rfl⟩
    simp
  · rintro d d' p p' hd ⟨rfl, rfl⟩
    exact hR hd

theorem Puts.sameData (h : s.Puts c lengths data t) (h' : s'.Puts c' lengths data t') :
    SameData t (t.cell c) t' (t'.cell c') := by
  have hlanes := h.lanes?_eq.trans h'.lanes?_eq.symm
  obtain ⟨i, hcell, -⟩ := h.cell_eq
  obtain ⟨i', hcell', -⟩ := h'.cell_eq
  exact ⟨by rw [hcell, hcell'], by rw [hcell, hcell'], by rw [hcell, hcell'], hlanes⟩

theorem rewrites_free (h : s.Isolated c) : s.Rewrites c (s.free c) ∧ (s.free c).cell c = {} := by
  have hcell : (s.free c).cell c = {} := cell_setCell_self _ h.lt
  refine ⟨⟨.free h.region (.inl rfl), by simp [free], ?_⟩, hcell⟩
  exact h.change (by simp [free]) (fun d hd => cell_setCell_of_ne _ hd) (by rw [hcell])
    fun b hb => by simp [hcell] at hb

/-- A scalar is moved in the same way whether the destination is a scalar or not. -/
theorem Sound.moveResult_of_rank (hs : s.Sound) (ha : s.rank a = 0) (intoScalar : Bool) :
    s.moveResult ty intoScalar a = s.moveResult ty false a := by
  have hlen : s.lengths a = [] := List.length_eq_zero_iff.mp ha
  cases intoScalar with
  | false => rfl
  | true =>
    simp only [moveResult]
    split
    · rfl
    · rename_i hv
      have hsize : s.size a = 1 := by
        rw [hs.size_eq (by simpa [isVoid] using hv), hlen, elementCount_nil]
      simp only [hsize, hlen, ne_eq, not_true_eq_false, if_true, if_false, Bool.false_eq_true]

theorem isScalar_of_shape (h : s.shape c = s'.shape c') : s.isScalar c = s'.isScalar c' := by
  obtain ⟨ht, hl⟩ := Shape.mk.inj h
  rw [isScalar, isScalar, isVoid, isVoid, rank, rank, ht, hl]

/-- What an allocation makes of two spare containers. -/
abbrev Reshaped (R : Pairing) (s s' : Store) (c c' : CellId) (t t' : Store) : Prop :=
  Matches False R t t' ∧ s.Rewrites c t ∧ s'.Rewrites c' t' ∧ t.Spare c ∧ t'.Spare c' ∧
    t.shape c = t'.shape c'

section

variable (h : Matches False R s s') (hc : s.Spare c) (hc' : s'.Spare c')
  (hR : ∀ {d d'}, R d d' → d ≠ c ∧ d' ≠ c')

include h hc hc' hR

theorem Matches.free_spare : Matches False (R.with c c') (s.free c) (s'.free c') := by
  obtain ⟨ht, hcell⟩ := rewrites_free hc.isolated
  obtain ⟨ht', hcell'⟩ := rewrites_free hc'.isolated
  refine h.paired hc.isolated hc'.isolated hR ht ht' ?_
  rw [hcell, hcell']
  exact ⟨rfl, rfl, rfl, rfl⟩

theorem Matches.receive_spare {r r' : Except Failure (List Int × Lanes)} (hr : r = r')
    (hr' : Gives Complete r) :
    Agrees (Matches False (R.with c c')) (s.receive c r) (s'.receive c' r') := by
  subst hr
  unfold Store.receive
  cases hres : r with
  | error e => rfl
  | ok x =>
    obtain ⟨lengths, data⟩ := x
    have h₁ := deliver_spare h.sound hc (hr'.ok hres)
    have h₂ := deliver_spare h.sound' hc' (hr'.ok hres)
    simp only [ok_bind]
    cases href : refusal? data.type lengths with
    | some e =>
      rw [href] at h₁ h₂
      rw [h₁, h₂]
      rfl
    | none =>
      rw [href] at h₁ h₂
      obtain ⟨t, ht, hputs⟩ := h₁
      obtain ⟨t', ht', hputs'⟩ := h₂
      rw [ht, ht']
      exact h.paired hc.isolated hc'.isolated hR hputs.toRewrites hputs'.toRewrites
        (hputs.sameData hputs')

/-- What a link hides does not matter. -/
theorem Matches.link_spare (hd : R d d') :
    Matches False (R.with c c') (s.link c d) (s'.link c' d') := by
  have hr := h.root hd
  obtain ⟨hne, hne'⟩ := hR hr
  have hlink : ∀ {s : Store} {c d : CellId}, s.root d ≠ c →
      s.link c d = s.setCell c fun x => { x with target := some (s.root d) } :=
    fun hne => by simp [Store.link, hne]
  have hsound : (s.link c d).Sound :=
    (Touches.link (C := fun _ => True) region_true trivial trivial (h.lt hd).1).sound h.sound
  have hsound' : (s'.link c' d').Sound :=
    (Touches.link (C := fun _ => True) region_true trivial trivial (h.lt hd).2).sound h.sound'
  rw [hlink hne] at hsound ⊢
  rw [hlink hne'] at hsound' ⊢
  have hself : ((s.setCell c fun x => { x with target := some (s.root d) }).cell c).target =
      some (s.root d) := by rw [cell_setCell_self _ hc.isolated.lt]
  have hself' : ((s'.setCell c' fun x => { x with target := some (s'.root d') }).cell c').target =
      some (s'.root d') := by rw [cell_setCell_self _ hc'.isolated.lt]
  have hother : ∀ {e e'}, R e e' →
      (s.setCell c fun x => { x with target := some (s.root d) }).cell e = s.cell e ∧
        (s'.setCell c' fun x => { x with target := some (s'.root d') }).cell e' = s'.cell e' :=
    fun he => ⟨cell_setCell_of_ne _ (hR he).1, cell_setCell_of_ne _ (hR he).2⟩
  refine ⟨hsound, hsound', ?_, ?_, ?_, ?_, ?_⟩
  · rintro e e' (he | ⟨rfl, rfl⟩)
    · simpa using h.lt he
    · simpa using ⟨hc.isolated.lt, hc'.isolated.lt⟩
  · rintro e e' f f' (he | ⟨rfl, rfl⟩) (hf | ⟨rfl, rfl⟩)
    · exact h.inj he hf
    · exact ⟨fun hx => absurd hx (hR he).1, fun hx => absurd hx (hR he).2⟩
    · exact ⟨fun hx => absurd hx.symm (hR hf).1, fun hx => absurd hx.symm (hR hf).2⟩
    · simp
  · rintro e e' (he | ⟨rfl, rfl⟩)
    · rw [(hother he).1, (hother he).2]
      exact rel_mono .inl (h.target he)
    · rw [hself, hself']
      exact .some (.inl hr)
  · rintro e e' (he | ⟨rfl, rfl⟩) hn
    · unfold Counts at hn
      rw [(hother he).1] at hn ⊢
      rw [(hother he).2]
      have := h.data he hn
      exact ⟨this.size_eq, this.lengths_eq, this.offset_eq, this.lanes_eq⟩
    · simp [Counts, hself] at hn
  · rintro e e' f f' (he | ⟨rfl, rfl⟩) (hf | ⟨rfl, rfl⟩) hn hn'
    · unfold Counts at hn hn'
      rw [(hother he).1] at hn ⊢
      rw [(hother hf).1] at hn' ⊢
      rw [(hother he).2, (hother hf).2]
      exact h.share he hf hn hn'
    · simp [Counts, hself] at hn'
    · simp [Counts, hself] at hn
    · simp [Counts, hself] at hn

omit h hc' hR in
theorem setElementView_free (hs : s.Sound) (hne : s.root a ≠ c) (i : Int) :
    (s.free c).setElementView c a i = s.setElementView c a i := by
  have htarget : ∀ d, ((s.free c).cell d).target = (s.cell d).target := by
    intro d
    by_cases hd : d = c
    · subst hd
      rw [(rewrites_free hc.isolated).2, hc.isolated.target_eq]
    · rw [free, cell_setCell_of_ne _ hd]
  have hroot : ∀ d, (s.free c).root d = s.root d := root_congr hs.grounded htarget
  have hcell : (s.free c).rootCell a = s.rootCell a := by
    rw [rootCell, hroot, free, cell_setCell_of_ne _ hne]
    rfl
  have hsize : (s.free c).bufferSize a = s.bufferSize a := by
    simp only [bufferSize, buffer?, hcell]
    rfl
  have hpresent : ∀ b offset, (s.free c).present c b offset [] = s.present c b offset [] := by
    intro b offset
    rw [present_eq, present_eq, hroot, root_eq_self hc.isolated.target_eq]
    have htarget := hc.isolated.target_eq
    unfold cell at htarget
    simp only [free, setCell, Store.mk.injEq, and_true]
    apply Array.ext_getElem?
    intro j
    by_cases hj : c = j
    · subst hj
      have hlt := hc.isolated.lt
      simp only [Array.getElem?_eq_getElem hlt, Option.getD_some] at htarget
      simp [presented, hlt, Array.getElem_modify, htarget]
    · simp [Array.getElem?_modify, hj]
  simp only [setElementView, hcell, hsize, hpresent]

theorem Matches.setElementView_spare (ha : R a a') (i : Int) :
    Agrees (Matches False (R.with c c')) (s.setElementView c a i) (s'.setElementView c' a' i) := by
  have hr := hR (h.root ha)
  rw [← setElementView_free hc h.sound hr.1, ← setElementView_free hc' h.sound' hr.2]
  exact (h.free_spare hc hc' hR).setElementView (.inr ⟨rfl, rfl⟩) (.inl ha) i

theorem Matches.referElement_spare (ha : R a a') {cs cs' : List CellId}
    (hcs : List.Forall₂ R cs cs') :
    Agrees (Matches False (R.with c c')) (s.referElement c a cs) (s'.referElement c' a' cs') := by
  unfold Store.referElement
  rw [(h.alike ha).flatIndex_eq (h.alikeAll hcs)]
  cases s'.flatIndex a' cs' with
  | error e => rfl
  | ok i => exact (h.setElementView_spare hc hc' hR ha i).mapError

/-- Spare containers that are allocated stay spare, and get one shape. -/
theorem Matches.alloc_spare (hty : ty.isConcrete = true) :
    Agrees (Reshaped R s s' c c') (s.alloc c ty lengths) (s'.alloc c' ty lengths) := by
  have h₁ := Store.alloc_spare h.sound hc hty lengths
  have h₂ := Store.alloc_spare h.sound' hc' hty lengths
  cases hr : refusal? ty lengths with
  | some e =>
    rw [hr] at h₁ h₂
    rw [h₁, h₂]
    rfl
  | none =>
    rw [hr] at h₁ h₂
    obtain ⟨t, ht, hrew, hspare, hshape⟩ := h₁
    obtain ⟨t', ht', hrew', hspare', hshape'⟩ := h₂
    rw [ht, ht']
    exact ⟨(h.rewrites hc.isolated (fun hd => (hR hd).1) hrew).rewrites' hc'.isolated
      (fun hd => (hR hd).2) hrew', hrew, hrew', hspare, hspare', hshape.trans hshape'.symm⟩

theorem Matches.move_spare (ha : R a a') (hinto : s.shape c = s'.shape c' ∨ s'.rank a' = 0) :
    Agrees (Matches False (R.with c c')) (s.move ty c a) (s'.move ty c' a') := by
  refine h.receive_spare hc hc' hR ?_ (h.sound.gives_moveResult _)
  have hv := h.alike ha
  rcases hinto with hshape | hrank
  · rw [isScalar_of_shape hshape, hv.moveResult_eq]
  · rw [h.sound.moveResult_of_rank (hv.rank_eq.trans hrank), h.sound'.moveResult_of_rank hrank,
      hv.moveResult_eq]

theorem Matches.allocate_spare {cs cs' : List CellId} (hcs : List.Forall₂ R cs cs') :
    Agrees (Reshaped R s s' c c') (s.allocate ty c cs) (s'.allocate ty c' cs') := by
  unfold Store.allocate
  split
  · rfl
  · rename_i hty
    rw [readLengths_eq (h.alikeAll hcs)]
    refine (Agrees.of_eq (V := Eq) rfl fun _ => rfl).bind fun lengths _ he => ?_
    subst he
    exact (h.alloc_spare hc hc' hR (by simpa using hty)).mapError

theorem Matches.allocateLike_spare (ha : R a a') :
    Agrees (Reshaped R s s' c c') (s.allocateLike ty c a) (s'.allocateLike ty c' a') := by
  simp only [Store.allocateLike, (h.alike ha).type_eq, (h.alike ha).lengths_eq]
  generalize (if ty.isConcrete then ty else s'.type a') = ty'
  split
  · rfl
  · rename_i hty
    exact (h.alloc_spare hc hc' hR (by simpa using hty)).mapError

end

end VectorMachine.Store
