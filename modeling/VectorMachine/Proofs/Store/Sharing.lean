import VectorMachine.Proofs.Store.Forest
import VectorMachine.Proofs.Store.Results

/-!
# What containers share

Storing elements through a container reaches the elements that its root shows and no others.  An
operation on a container leaves all containers with other roots with what they show, and two
containers begin to show parts of one buffer only if one of them comes to show what the source of
a link or an element view shows.
-/

namespace VectorMachine

/-- Overwriting keeps the elements before and after the new ones. -/
theorem Lanes.get?_overwrite {xs ys : Lanes} {lo i : Nat} (h : ¬ (lo ≤ i ∧ i < lo + ys.size)) :
    (overwrite lo xs ys).get? i = xs.get? i := by
  have harray : ∀ {α : Type} (xs ys : Array α), ¬ (lo ≤ i ∧ i < lo + ys.size) →
      (overwriteArray xs lo ys)[i]? = xs[i]? := by
    intro α xs ys h
    rw [overwriteArray, Array.getElem?_mapIdx]
    by_cases hlo : lo ≤ i
    · rw [Array.getElem?_eq_none (show ys.size ≤ i - lo by omega)]
      simp
    · simp [hlo]
  cases xs <;> cases ys <;> first | rfl | simp only [overwrite, get?, harray _ _ h]

namespace Store
set_option autoImplicit false

variable {s t : Store} {a b c d e r : CellId}

/-- An element of a buffer. -/
def element? (s : Store) (b : BufferId) (i : Nat) : Option Scalar :=
  (s.buffers[b]?).bind (·.get? i)

/-- The cell `r` itself shows an element of a buffer. -/
structure Covers (s : Store) (r : CellId) (b : BufferId) (i : Nat) : Prop where
  buffer_eq : (s.cell r).buffer = some b
  offset_le : (s.cell r).offset ≤ i
  lt_end : (i : Int) < (s.cell r).offset + (s.cell r).size

/-- Two containers show parts of one buffer. -/
def Shares (s : Store) (c d : CellId) : Prop :=
  ∃ b, (s.rootCell c).buffer = some b ∧ (s.rootCell d).buffer = some b

theorem Shares.symm (h : s.Shares c d) : s.Shares d c :=
  let ⟨b, hc, hd⟩ := h
  ⟨b, hd, hc⟩

/-- A container has its link and the shape of what it shows as before. -/
structure Settled (s t : Store) (c : CellId) : Prop where
  target_eq : (t.cell c).target = (s.cell c).target
  root_eq : t.root c = s.root c
  type_eq : t.type c = s.type c
  lengths_eq : t.lengths c = s.lengths c
  size_eq : t.size c = s.size c
  offset_eq : t.offset c = s.offset c

/-! ### Storing elements -/

/-- `t` arises from `s` by storing into the root `r`: it changes no elements but those that `r`
shows, and shows a buffer of its own if it is not the old one. -/
structure Refilled (r : CellId) (s t : Store) : Prop extends Confined r s t where
  buffer_eq : (t.cell r).buffer = (s.cell r).buffer ∨
    ∀ i, (t.cell r).buffer = some i → s.buffers.size ≤ i
  element_eq : ∀ {b i}, b < s.buffers.size → ¬ s.Covers r b i → t.element? b i = s.element? b i

theorem Refilled.refl (r : CellId) (s : Store) : Refilled r s s :=
  ⟨.refl r s, .inl rfl, fun _ _ => rfl⟩

/-- Elements of other buffers, and those before and after the ones that are written, stay. -/
theorem element?_write {data : Lanes} {b : BufferId} {i : Nat}
    (h : ¬ ((s.rootCell c).buffer = some b ∧ s.offset c ≤ i ∧ i < s.offset c + data.size)) :
    (s.write c data).element? b i = s.element? b i := by
  unfold element? Store.write
  split
  · rfl
  · rename_i b' hb'
    rw [Array.getElem?_modify]
    split
    · rename_i hbb
      subst hbb
      cases s.buffers[b']? with
      | none => rfl
      | some xs => exact Lanes.get?_overwrite fun hi => h ⟨hb', hi⟩
    · rfl

theorem refilled_write {data : Lanes} (h : data.size ≤ (s.size c).toNat) :
    Refilled (s.root c) s (s.write c data) := by
  refine ⟨confined_write _ data, .inl (by simp), fun _ hn => element?_write ?_⟩
  rintro ⟨hb, hle, hlt⟩
  refine hn ⟨hb, hle, ?_⟩
  have hsize : s.size c = (s.cell (s.root c)).size := rfl
  have hoffset : s.offset c = (s.cell (s.root c)).offset := rfl
  omega

theorem element?_pushBuffer {data : Lanes} {b : BufferId} {i : Nat} (h : b < s.buffers.size) :
    (s.pushBuffer data).element? b i = s.element? b i := by
  rw [element?, buffers_pushBuffer_of_lt data h, element?]

theorem refilled_renew (data : Lanes) (lengths : List Int) :
    Refilled (s.root c) s (s.renew c data lengths) := by
  refine ⟨confined_renew rfl data lengths, ?_, fun hb _ => element?_pushBuffer hb⟩
  simp only [renew, cell_present, root_pushBuffer, cell_pushBuffer]
  split
  · exact .inr fun i hi => by cases hi; exact Nat.le_refl _
  · exact .inl rfl

theorem Grounded.rootCell_renew (hs : s.Grounded) (hc : s.root c < s.cells.size) (data : Lanes)
    (lengths : List Int) : (s.renew c data lengths).rootCell c =
      presented (s.rootCell c) (some s.buffers.size) 0 lengths := by
  have hroot : (s.renew c data lengths).root c = s.root c :=
    (confined_renew rfl data lengths).root_eq hs c
  rw [rootCell, hroot, renew, present_eq, root_pushBuffer, cell_setCell, if_pos ⟨rfl, hc⟩]
  rfl

/-- What is written after a renewal goes into the new buffer. -/
theorem refilled_renew_write (hs : s.Sound) (data xs : Lanes) (lengths : List Int) :
    Refilled (s.root c) s ((s.renew c xs lengths).write c data) := by
  have hr := refilled_renew (s := s) (c := c) xs lengths
  refine ⟨hr.toConfined.trans (confined_write _ data), by simpa using hr.buffer_eq,
    fun {b i} hb hn => (element?_write ?_).trans (hr.element_eq hb hn)⟩
  rintro ⟨hi, -⟩
  rw [rootCell, hr.root_eq hs.grounded] at hi
  by_cases hlt : s.root c < s.cells.size
  · rw [renew, cell_present, root_pushBuffer, if_pos ⟨rfl, hlt⟩] at hi
    cases hi
    exact Nat.lt_irrefl _ hb
  · -- a cell that is not there has no buffer
    rw [renew, cell_present, root_pushBuffer, if_neg fun h => hlt h.2, cell_pushBuffer,
      cell_of_le (Nat.le_of_not_lt hlt)] at hi
    cases hi

theorem refilled_alloc {ty : DataType} {lengths : List Int} (hty : ty.isConcrete = true)
    (h : s.alloc c ty lengths = .ok t) : Refilled (s.root c) s t := by
  rcases alloc_ok hty h with ⟨rfl, -⟩ | ⟨data, -, -, rfl⟩
  · exact .refl _ _
  · exact refilled_renew data lengths

theorem refilled_allocate {ty : DataType} {cs : List CellId}
    (h : s.allocate ty c cs = .ok t) : Refilled (s.root c) s t := by
  unfold allocate at h
  split at h
  · cases h
  · rename_i hty
    obtain ⟨lengths, -, ha⟩ := bind_eq_ok.mp h
    exact refilled_alloc (by simpa using hty) (mapError_eq_ok.mp ha)

theorem refilled_allocateLike {ty : DataType} (h : s.allocateLike ty c a = .ok t) :
    Refilled (s.root c) s t := by
  simp only [allocateLike] at h
  generalize (if ty.isConcrete then ty else s.type a) = ty' at h
  split at h
  · cases h
  · rename_i hty
    exact refilled_alloc (by simpa using hty) (mapError_eq_ok.mp h)

/-- A result that has as many elements as its lengths say fills the place of its destination. -/
theorem Sound.refilled_receive (hs : s.Sound) {x : Except Failure (List Int × Lanes)}
    (hx : Gives Complete x) (h : s.receive c x = .ok t) : Refilled (s.root c) s t := by
  obtain ⟨lengths, data, rfl, hd⟩ := receive_ok h
  have hsize : data.size = (elementCount lengths).toNat := hx
  obtain ⟨s₁, hs₁, rfl⟩ := deliver_ok hd
  have inPlace : s.type c = data.type → s.lengths c = lengths →
      Refilled (s.root c) s (s.write c data) := by
    intro hty hl
    have hconcrete := data.isConcrete_type
    have hcount := hs.size_eq (c := c) fun hv => by
      rw [← hty, hv] at hconcrete
      cases hconcrete
    exact refilled_write (by rw [hcount, hl, hsize])
  rcases hs₁ with ⟨rfl, hty, hl⟩ | ha
  · exact inPlace hty hl
  · rcases alloc_ok data.isConcrete_type ha with ⟨rfl, ha⟩ | ⟨xs, -, -, rfl⟩
    · simp only [isAllocated, Bool.and_eq_true, beq_iff_eq] at ha
      exact inPlace ha.1.1.1 ha.1.2
    · exact refilled_renew_write hs data xs lengths

/-! ### The frame of an operation -/

/-- What an operation on the container `d` may do.  It settles the containers with other roots and
keeps the elements that the root of `d` does not show.  If it `links`, it links `d` to the root of
its source.  Containers whose roots differ come to share a buffer only if one of them `adopts`
what the source shows. -/
structure Frame (s : Store) (d : CellId) (source : CellId → Prop) (links : Prop)
    (adopts : CellId → Prop) (t : Store) : Prop where
  settled : ∀ {c}, s.root c ≠ s.root d → Settled s t c
  element_eq : ∀ {b i}, b < s.buffers.size → ¬ s.Covers (s.root d) b i →
    t.element? b i = s.element? b i
  links_to : ∀ {c q}, (t.cell c).target = some q → (s.cell c).target = some q ∨
    links ∧ c = d ∧ ∃ a, source a ∧ q = s.root a
  shares : ∀ {c e}, s.root c ≠ s.root e ∨ t.root c ≠ t.root e → t.Shares c e → s.Shares c e ∨
    ∃ a, source a ∧ (adopts c ∧ s.Shares a e ∨ adopts e ∧ s.Shares a c)

section

variable {source adopts P : CellId → Prop} {links : Prop}

/-- Whether two containers share is decided apart for those on one side, which have one root, and
those on the other. -/
theorem shares_of_sides
    (hout : ∀ {c e}, ¬ P c → ¬ P e → t.Shares c e → s.Shares c e)
    (hin : ∀ {c e}, P c → ¬ P e → t.Shares c e → s.Shares c e ∨
      ∃ a, source a ∧ adopts c ∧ s.Shares a e)
    (hroot : ∀ {c e}, P c → P e → s.root c = s.root e ∧ t.root c = t.root e)
    (hne : s.root c ≠ s.root e ∨ t.root c ≠ t.root e) (h : t.Shares c e) : s.Shares c e ∨
      ∃ a, source a ∧ (adopts c ∧ s.Shares a e ∨ adopts e ∧ s.Shares a c) := by
  by_cases hc : P c
  · by_cases he : P e
    · obtain ⟨hs, ht⟩ := hroot hc he
      rcases hne with hne | hne
      · exact absurd hs hne
      · exact absurd ht hne
    · rcases hin hc he h with h | ⟨a, ha, hac, hs⟩
      · exact .inl h
      · exact .inr ⟨a, ha, .inl ⟨hac, hs⟩⟩
  · by_cases he : P e
    · rcases hin he hc h.symm with h | ⟨a, ha, hae, hs⟩
      · exact .inl h.symm
      · exact .inr ⟨a, ha, .inr ⟨hae, hs⟩⟩
    · exact .inl (hout hc he h)

theorem Confined.rootCell_eq (h : Confined r s t) (hs : s.Grounded) (hc : s.root c ≠ r) :
    t.rootCell c = s.rootCell c := by
  rw [rootCell, h.root_eq hs, h.cell_eq hc, rootCell]

theorem Confined.settled (h : Confined (s.root d) s t) (hs : s.Rooted)
    (hc : s.root c ≠ s.root d) : Settled s t c := by
  obtain ⟨hty, hl, hsize, ho⟩ := h.shows_eq hs hc
  exact ⟨h.target_eq c, h.root_eq hs.grounded c, hty, hl, hsize, ho⟩

theorem Confined.shares (h : Confined (s.root d) s t) (hs : s.Grounded)
    (hin : ∀ {c e}, s.root c = s.root d → s.root e ≠ s.root d → t.Shares c e → s.Shares c e ∨
      ∃ a, source a ∧ adopts c ∧ s.Shares a e)
    (hne : s.root c ≠ s.root e ∨ t.root c ≠ t.root e) (hsh : t.Shares c e) : s.Shares c e ∨
      ∃ a, source a ∧ (adopts c ∧ s.Shares a e ∨ adopts e ∧ s.Shares a c) := by
  refine shares_of_sides (P := fun c => s.root c = s.root d) (fun {c e} hc he hce => ?_) hin
    (fun {c e} hc he => ?_) hne hsh
  · obtain ⟨b, hb, hb'⟩ := hce
    exact ⟨b, h.rootCell_eq hs hc ▸ hb, h.rootCell_eq hs he ▸ hb'⟩
  · rw [h.root_eq hs, h.root_eq hs, hc, he]
    exact ⟨rfl, rfl⟩

theorem Refilled.frame (h : Refilled (s.root d) s t) (hs : s.Rooted) :
    s.Frame d source links adopts t := by
  refine ⟨h.toConfined.settled hs, h.element_eq, fun hq => .inl (h.target_eq _ ▸ hq),
    h.toConfined.shares hs.grounded fun {c e} hc he hce => .inl ?_⟩
  obtain ⟨b, hb, hb'⟩ := hce
  rw [h.toConfined.rootCell_eq hs.grounded he] at hb'
  rw [rootCell, h.root_eq hs.grounded, hc] at hb
  rcases h.buffer_eq with hold | hnew
  · exact ⟨b, by rw [rootCell, hc, ← hold, hb], hb'⟩
  · -- nothing else shows a new buffer
    exact absurd (hs.buffer_lt hb') (Nat.not_lt.mpr (hnew b hb))

/-- An element view adopts the buffer of its array, for all containers with its root. -/
theorem frame_setElementView (hs : s.Rooted) (ha : source a) {i : Int}
    (h : s.setElementView d a i = .ok t) :
    s.Frame d source links (fun c => s.root c = s.root d) t := by
  obtain ⟨-, -, -, -, -, rfl⟩ := setElementView_ok h
  have hconf : Confined (s.root d) s _ := confined_present rfl rfl id (s.rootCell a).buffer
    ((s.rootCell a).offset + i.toNat) []
  refine ⟨hconf.settled hs, fun _ _ => rfl, fun hq => .inl (hconf.target_eq _ ▸ hq),
    hconf.shares hs.grounded fun {c e} hc he hce => .inr ⟨a, ha, hc, ?_⟩⟩
  obtain ⟨b, hb, hb'⟩ := hce
  rw [hconf.rootCell_eq hs.grounded he] at hb'
  rw [rootCell, hconf.root_eq hs.grounded, hc, cell_present] at hb
  split at hb
  · exact ⟨b, hb, hb'⟩
  · rename_i hr
    rw [cell_of_le (Nat.le_of_not_lt fun hlt => hr ⟨rfl, hlt⟩)] at hb
    cases hb

/-! ### Changes of the container itself -/

section

variable {f : Cell → Cell}

/-- Chains that do not come past a cell do not see it change. -/
theorem Grounded.root_setCell (hs : s.Grounded) (hc : ¬ s.Visits c d) :
    (s.setCell d f).root c = s.root c :=
  ((hs.leads_root c).congr_of_not_visits hc fun e he => by
    rw [cell_setCell_of_ne f he]).root_eq

theorem Grounded.rootCell_setCell (hs : s.Grounded) (hc : ¬ s.Visits c d) :
    (s.setCell d f).rootCell c = s.rootCell c := by
  have hne : s.root c ≠ d := fun h => hc (h ▸ (hs.leads_root c).visits)
  rw [rootCell, hs.root_setCell hc, cell_setCell_of_ne f hne, rootCell]

theorem Grounded.settled_setCell (hs : s.Grounded) (hc : s.root c ≠ s.root d) :
    Settled s (s.setCell d f) c := by
  have hvisits : ¬ s.Visits c d := fun hv => hc (hs.root_of_visits hv)
  have hne : c ≠ d := fun h => hc (h ▸ rfl)
  have hcell := hs.rootCell_setCell (f := f) hvisits
  refine ⟨by rw [cell_setCell_of_ne f hne], hs.root_setCell hvisits, ?_,
    by rw [lengths, hcell, lengths], by rw [size, hcell, size], by rw [offset, hcell, offset]⟩
  rw [type, type, buffer?, buffer?, hcell]
  rfl

theorem Grounded.shares_setCell (hs : s.Grounded)
    (hin : ∀ {c e}, s.Visits c d → ¬ s.Visits e d → (s.setCell d f).Shares c e →
      ∃ a, source a ∧ adopts c ∧ s.Shares a e)
    (hroot : ∀ {c}, s.Visits c d → (s.setCell d f).root c = r)
    (hne : s.root c ≠ s.root e ∨ (s.setCell d f).root c ≠ (s.setCell d f).root e)
    (h : (s.setCell d f).Shares c e) : s.Shares c e ∨
      ∃ a, source a ∧ (adopts c ∧ s.Shares a e ∨ adopts e ∧ s.Shares a c) := by
  refine shares_of_sides (P := fun c => s.Visits c d) (fun {c e} hc he hce => ?_)
    (fun hc he hce => .inr (hin hc he hce)) (fun {c e} hc he => ?_) hne h
  · obtain ⟨b, hb, hb'⟩ := hce
    exact ⟨b, hs.rootCell_setCell hc ▸ hb, hs.rootCell_setCell he ▸ hb'⟩
  · rw [hroot hc, hroot he, hs.root_of_visits hc, hs.root_of_visits he]
    exact ⟨rfl, rfl⟩

theorem frame_free (hs : s.Rooted) (hd : d < s.cells.size) :
    s.Frame d source links adopts (s.free d) := by
  have hcell : (s.free d).cell d = {} := cell_setCell_self _ hd
  have hroot : ∀ {c}, s.Visits c d → (s.free d).root c = d := fun hc =>
    (Leads.of_visits hc (fun e he => by rw [Store.free, cell_setCell_of_ne _ he])
      (.here (by rw [hcell]))).root_eq
  refine ⟨hs.grounded.settled_setCell, fun _ _ => rfl, fun {c q} hq => ?_,
    hs.grounded.shares_setCell (fun {c e} hc _ hce => ?_) hroot⟩
  · rw [Store.free, cell_setCell] at hq
    split at hq
    · cases hq
    · exact .inl hq
  · obtain ⟨b, hb, -⟩ := hce
    change ((s.free d).cell ((s.free d).root c)).buffer = some b at hb
    rw [hroot hc, hcell] at hb
    cases hb

/-- A link makes all containers whose chains come past its container show what its target shows. -/
theorem frame_link (hs : s.Rooted) (hd : d < s.cells.size) (hl : links) (ha : source a) :
    s.Frame d source links (fun c => s.Visits c d) (s.link d a) := by
  have hroot : ∀ {c}, s.Visits c d → (s.link d a).root c = s.root a := fun {c} hc =>
    (hs.grounded.root_link hd c).1 hc
  simp only [Store.link] at hroot ⊢
  split
  · exact (Refilled.refl _ s).frame hs
  · rename_i hne
    rw [if_neg hne] at hroot
    refine ⟨hs.grounded.settled_setCell, fun _ _ => rfl, fun {c q} hq => ?_,
      hs.grounded.shares_setCell (fun {c e} hc he hce => ⟨a, ha, hc, ?_⟩) hroot⟩
    · rw [cell_setCell] at hq
      split at hq
      · rename_i hdc
        exact .inr ⟨hl, hdc.1.symm, a, ha, (Option.some.inj hq).symm⟩
      · exact .inl hq
    · obtain ⟨b, hb, hb'⟩ := hce
      rw [hs.grounded.rootCell_setCell he] at hb'
      rw [rootCell, hroot hc, cell_setCell_of_ne _ hne] at hb
      exact ⟨b, hb, hb'⟩

end

end

end Store

end VectorMachine
