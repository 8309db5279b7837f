import VectorMachine.Proofs.Store.Representation
import VectorMachine.Proofs.Store.Separation
import VectorMachine.Proofs.Store.Views

/-!
# The forest of links

Whatever operations are applied to containers, in any order and with any of them as arguments, no
chain of links returns to where it began.  A new link moves exactly the chains that pass its
container, and data that are stored through a container show in all containers with the same root
and leave the others with what they show of.
-/

namespace VectorMachine.Store
set_option autoImplicit false

variable {s t u : Store} {c d e r : CellId}

/-- The link of `c` leads to `d`. -/
def Links (s : Store) (c d : CellId) : Prop := (s.cell c).target = some d

/-- The chain of links from `c` comes past `d`. -/
abbrev Visits (s : Store) : CellId → CellId → Prop := Relation.ReflTransGen s.Links

/-- A chain that ends comes past no cell twice. -/
theorem Leads.not_cyclic (h : s.Leads c r) : ¬ Relation.TransGen s.Links c c := by
  induction h with
  | here hn =>
    intro hc
    obtain ⟨d, hd, -⟩ := Relation.TransGen.head'_iff.mp hc
    rw [Links, hn] at hd
    cases hd
  | next hd _ ih =>
    intro hc
    obtain ⟨d', hd', hback⟩ := Relation.TransGen.head'_iff.mp hc
    rw [Links, hd] at hd'
    cases hd'
    -- the way back to the first cell, and its link, are a circle at the second
    exact ih (.tail' hback hd)

/-- A chain that comes past a cell ends where that cell's chain ends, also after its link alone has
changed. -/
theorem Leads.of_visits (h : s.Visits c d) (ht : ∀ e, e ≠ d → (t.cell e).target = (s.cell e).target)
    (hd : t.Leads d r) : t.Leads c r := by
  induction h using Relation.ReflTransGen.head_induction_on with
  | refl => exact hd
  | @head x y hx _ ih =>
    by_cases hxd : x = d
    · exact hxd ▸ hd
    · exact .next ((ht x hxd).trans hx) ih

theorem Leads.visits (h : s.Leads c r) : s.Visits c r := by
  induction h with
  | here => exact .refl
  | next hd _ ih => exact .head hd ih

theorem Grounded.root_of_visits (h : s.Grounded) (hc : s.Visits c d) : s.root c = s.root d :=
  (Leads.of_visits hc (fun _ _ => rfl) (h.leads_root d)).root_eq

/-- Chains that do not come past a cell do not see its links change. -/
theorem Leads.congr_of_not_visits (h : s.Leads d r) (hd : ¬ s.Visits d c)
    (ht : ∀ e, e ≠ c → (t.cell e).target = (s.cell e).target) : t.Leads d r := by
  induction h with
  | @here d hn =>
    have hne : d ≠ c := fun hdc => hd (hdc ▸ .refl)
    exact .here (by rw [ht d hne, hn])
  | @next d e r hs _ ih =>
    have hne : d ≠ c := fun hdc => hd (hdc ▸ .refl)
    exact .next (by rw [ht d hne, hs]) (ih fun he => hd (.head hs he))

/-- A new link moves the chains that come past its container, and no other. -/
theorem Grounded.root_link (h : s.Grounded) (hc : c < s.cells.size) (e : CellId) :
    (s.Visits e c → (s.link c d).root e = s.root d) ∧
      (¬ s.Visits e c → (s.link c d).root e = s.root e) := by
  simp only [Store.link]
  split
  · rename_i hr
    -- the link would lead to its own container, which is a root
    refine ⟨fun he => ?_, fun _ => rfl⟩
    rw [h.root_of_visits he, hr, ← hr]
    exact h.root_root d
  · rename_i hne
    have hcell := cell_setCell_self (s := s) (fun x => { x with target := some (s.root d) }) hc
    have hother : ∀ x, x ≠ c →
        ((s.setCell c fun x => { x with target := some (s.root d) }).cell x).target =
          (s.cell x).target := fun x hx => by rw [cell_setCell_of_ne _ hx]
    constructor
    · intro he
      refine (Leads.of_visits he hother (.next (by rw [hcell]) (.here ?_))).root_eq
      rw [hother _ hne]
      exact h.target_root d
    · intro he
      exact ((h.leads_root e).congr_of_not_visits he hother).root_eq

/-! ### What every operation keeps -/

/-- Chains of links end, and the buffers that cells show exist. -/
structure Rooted (s : Store) : Prop where
  grounded : s.Grounded
  buffer_lt : ∀ {c b}, (s.cell c).buffer = some b → b < s.buffers.size

/-- Giving a root another buffer that exists changes no link. -/
theorem Rooted.present (h : s.Rooted) (hcells : t.cells = s.cells)
    (hle : s.buffers.size ≤ t.buffers.size) {b : Option BufferId} {offset : Nat}
    {lengths : List Int} (hb : ∀ i, b = some i → i < t.buffers.size) :
    (t.present c b offset lengths).Rooted := by
  have hsame : ∀ d, t.cell d = s.cell d := fun d => by simp [cell, hcells]
  refine ⟨h.grounded.congr fun d => ?_, fun {d i} hi => ?_⟩
  · rw [cell_present, ← hsame]
    split <;> rfl
  · rw [cell_present] at hi
    split at hi
    · exact hb i hi
    · exact Nat.lt_of_lt_of_le (h.buffer_lt (hsame d ▸ hi)) hle

theorem Rooted.renew (h : s.Rooted) (data : Lanes) (lengths : List Int) :
    (s.renew c data lengths).Rooted :=
  h.present (cells_pushBuffer data) (by simp) fun i hi => by cases hi; simp

/-- Links to roots, cut links and freed cells keep the chains ending. -/
theorem Rooted.setCell (h : s.Rooted) {f : Cell → Cell}
    (hf : ∀ x, (f x).buffer = x.buffer ∨ (f x).buffer = none)
    (hg : (s.setCell c f).Grounded) : (s.setCell c f).Rooted := by
  refine ⟨hg, fun {d i} hi => ?_⟩
  rw [cell_setCell] at hi
  split at hi
  · rcases hf (s.cell d) with hx | hx
    · exact h.buffer_lt (hx ▸ hi)
    · rw [hx] at hi
      cases hi
  · exact h.buffer_lt hi

theorem Rooted.link (h : s.Rooted) : (s.link c d).Rooted := by
  simp only [Store.link]
  split
  · exact h
  · rename_i hne
    refine h.setCell (fun _ => .inl rfl) ?_
    by_cases hc : c < s.cells.size
    · refine h.grounded.relink (h.grounded.target_root d) hne ?_ fun e he => ?_
      · rw [cell_setCell_self _ hc]
      · rw [cell_setCell_of_ne _ he]
    · refine h.grounded.congr fun e => ?_
      have hne : ¬ (c = e ∧ e < s.cells.size) := fun he => hc (he.1 ▸ he.2)
      rw [cell_setCell, if_neg hne]

theorem Rooted.cut (h : s.Rooted) {f : Cell → Cell} (hf : ∀ x, (f x).target = none)
    (hb : ∀ x, (f x).buffer = x.buffer ∨ (f x).buffer = none) : (s.setCell c f).Rooted := by
  refine h.setCell hb (h.grounded.cut fun d => ?_)
  rw [cell_setCell]
  split
  · exact .inr (hf _)
  · exact .inl rfl

theorem Edit.rooted {g : Grant} (hg : ∀ {s t}, ¬ g.hosts s t) (he : Edit g s t) (h : s.Rooted) :
    t.Rooted := by
  cases he with
  | fresh =>
    exact ⟨h.grounded.congr fun _ => by simp, fun hi => h.buffer_lt (by simpa using hi)⟩
  | renew => exact h.renew _ _
  | clear => exact h.present rfl (Nat.le_refl _) fun i hi => by cases hi
  | @write c data =>
    refine ⟨h.grounded.congr fun d => by simp, fun hi => ?_⟩
    rw [cell_write] at hi
    unfold Store.write
    split <;> simpa using h.buffer_lt hi
  | free => exact h.cut (fun _ => rfl) fun _ => .inr rfl
  | link => exact h.link
  | view => exact h.present rfl (Nat.le_refl _) fun i hi => h.buffer_lt hi
  | host ht => exact (hg ht).elim

/-! ### Data that are stored through a container -/

/-- `t` arises from `s` by shaping and filling the root `r` anew: links stay, and so do all other
cells and the types of all buffers. -/
structure Confined (r : CellId) (s t : Store) : Prop where
  target_eq : ∀ c, (t.cell c).target = (s.cell c).target
  cell_eq : ∀ {c}, c ≠ r → t.cell c = s.cell c
  type_eq : ∀ {b : BufferId} {xs : Lanes}, s.buffers[b]? = some xs →
    ∃ ys, t.buffers[b]? = some ys ∧ ys.type = xs.type

theorem Confined.refl (r : CellId) (s : Store) : Confined r s s :=
  ⟨fun _ => rfl, fun _ => rfl, fun h => ⟨_, h, rfl⟩⟩

theorem Confined.trans (h : Confined r s t) (h' : Confined r t u) : Confined r s u where
  target_eq c := (h'.target_eq c).trans (h.target_eq c)
  cell_eq hc := (h'.cell_eq hc).trans (h.cell_eq hc)
  type_eq hx := by
    obtain ⟨ys, hy, hty⟩ := h.type_eq hx
    obtain ⟨zs, hz, htz⟩ := h'.type_eq hy
    exact ⟨zs, hz, htz.trans hty⟩

theorem Confined.root_eq (h : Confined r s t) (hs : s.Grounded) (c : CellId) :
    t.root c = s.root c := root_congr hs h.target_eq c

theorem confined_present (hc : s.root c = r) (hcells : t.cells = s.cells)
    (hb : ∀ {i : BufferId} {xs : Lanes}, s.buffers[i]? = some xs → t.buffers[i]? = some xs)
    (b : Option BufferId) (offset : Nat) (lengths : List Int) :
    Confined r s (t.present c b offset lengths) := by
  have hsame : ∀ d, t.cell d = s.cell d := fun d => by simp [cell, hcells]
  refine ⟨fun d => ?_, fun {d} hd => ?_, fun {i xs} hx => ⟨xs, hb hx, rfl⟩⟩
  · rw [cell_present, ← hsame]
    split <;> rfl
  · rw [cell_present, root_of_cells_eq hcells, hc, if_neg fun hr => hd hr.1.symm, hsame]

theorem confined_renew (hc : s.root c = r) (data : Lanes) (lengths : List Int) :
    Confined r s (s.renew c data lengths) :=
  confined_present hc (cells_pushBuffer data)
    (fun hx => by rw [buffers_pushBuffer_of_lt data (Array.getElem?_eq_some_iff.mp hx).1, hx]) _ _ _

theorem confined_write (r : CellId) (data : Lanes) : Confined r s (s.write c data) := by
  refine ⟨fun d => by simp, fun _ => by simp, fun {i xs} hx => ?_⟩
  unfold Store.write
  split
  · exact ⟨xs, hx, rfl⟩
  · rename_i b _
    by_cases hi : b = i
    · subst hi
      exact ⟨Lanes.overwrite (s.offset c) xs data, by simp [Array.getElem?_modify, hx],
        Lanes.type_overwrite ..⟩
    · exact ⟨xs, by simpa [Array.getElem?_modify, hi] using hx, rfl⟩

/-- What may be stored into or made a view is a set of cells with one root. -/
theorem Edit.confined {D : CellId → Prop} (hD : ∀ {c}, D c → s.root c = r)
    (he : Edit { stores := D, views := fun _ c _ => D c } s t) : Confined r s t := by
  cases he with
  | fresh => exact ⟨fun _ => by simp, fun _ => by simp, fun hx => ⟨_, hx, rfl⟩⟩
  | renew hc => exact confined_renew (hD hc) _ _
  | clear hc => exact confined_present (hD hc) rfl id _ _ _
  | write => exact confined_write r _
  | view hc => exact confined_present (hD hc) rfl id _ _ _
  | free h => exact h.elim
  | link h => exact h.elim
  | host h => exact h.elim

theorem Alters.confined {D : CellId → Prop} (hs : s.Grounded) (hD : ∀ {c}, D c → s.root c = r)
    (ha : Alters { stores := D, views := fun _ c _ => D c } s t) : Confined r s t := by
  induction ha with
  | refl => exact .refl r s
  | tail _ he ih => exact ih.trans (he.confined fun hc => (ih.root_eq hs _).trans (hD hc))

/-- A container with another root shows elements of the same type, as many and from the same place
on. -/
theorem Confined.shows_eq (h : Confined r s t) (hs : s.Rooted) (hd : s.root d ≠ r) :
    t.type d = s.type d ∧ t.lengths d = s.lengths d ∧ t.size d = s.size d ∧
      t.offset d = s.offset d := by
  have hcell : t.rootCell d = s.rootCell d := by
    rw [rootCell, h.root_eq hs.grounded, h.cell_eq hd, rootCell]
  refine ⟨?_, by rw [lengths, hcell, lengths], by rw [size, hcell, size],
    by rw [offset, hcell, offset]⟩
  unfold type buffer? lanes?
  rw [hcell]
  cases hb : (s.rootCell d).buffer with
  | none => rfl
  | some i =>
    have hi := hs.buffer_lt hb
    obtain ⟨ys, hy, hty⟩ := h.type_eq (Array.getElem?_eq_getElem hi)
    simp [hy, hty, hi]

theorem alike_of_root_eq (h : s.root c = s.root d) : s.Alike c s d := by
  have hcell : s.rootCell c = s.rootCell d := by rw [rootCell, h, rootCell]
  exact ⟨by rw [buffer?, hcell, buffer?], by rw [size, hcell, size],
    by rw [lengths, hcell, lengths], by rw [offset, hcell, offset]⟩

/-! ### Sequences of operations -/

/-- The container through which an operation stores data. -/
def Operation.destination? : Operation → Option CellId
  | .alloc c _ _ | .setData c _ _ | .setScalar c _ | .setElementView c _ _ => some c
  | .newArray .. | .link .. | .unlink _ | .clone _ | .free _ => none

/-- Everything but host code. -/
def Grant.all : Grant where
  stores _ := True
  frees _ := True
  links _ _ _ := True
  views _ _ _ := True

theorem Operation.rooted {o : Operation} (h : s.Rooted) (ho : o.apply s = .ok t) : t.Rooted := by
  have keeps : Alters .all s t → t.Rooted := fun ha => ha.keeps (Edit.rooted False.elim) h
  cases o with
  | newArray ty lengths => exact keeps (.head .fresh (Alters.of_alloc trivial ho))
  | alloc => exact keeps (.of_alloc trivial ho)
  | setData =>
    -- lengths that are handed in may be negative
    obtain ⟨-, rfl⟩ := setData_eq_ok_iff.mp ho
    exact h.renew _ _
  | setScalar => exact keeps (.of_setScalar trivial ho)
  | setElementView => exact keeps (.single (.of_setElementView trivial ho))
  | link =>
    cases ho
    exact h.link
  | unlink =>
    cases ho
    exact h.cut (fun _ => rfl) fun _ => .inl rfl
  | clone =>
    obtain ⟨x, hx, rfl⟩ := map_eq_ok.mp ho
    exact keeps (.of_clone trivial hx)
  | free =>
    cases ho
    exact h.cut (fun _ => rfl) fun _ => .inr rfl

theorem Rooted.perform (h : s.Rooted) (o : Operation) : (s.perform o).Rooted := by
  unfold Store.perform
  split
  · rename_i t ht
    exact o.rooted h ht
  · exact h

theorem Rooted.performAll (h : s.Rooted) (os : List Operation) :
    (os.foldl Store.perform s).Rooted := by
  induction os generalizing s with
  | nil => exact h
  | cons o os ih => exact ih (h.perform o)

theorem rooted_freshMany (n : Nat) : (({} : Store).freshMany n).2.Rooted :=
  (Alters.freshMany (g := .all) n).keeps (Edit.rooted False.elim)
    ⟨sound_empty.grounded, sound_empty.buffer_lt⟩

/-- Storing data through a container changes its root alone. -/
theorem Operation.confined {o : Operation} (hs : s.Grounded) (hc : o.destination? = some c)
    (ho : o.apply s = .ok t) : Confined (s.root c) s t := by
  have alters : Alters { stores := (· = c), views := fun _ d _ => d = c } s t →
      Confined (s.root c) s t := Alters.confined hs fun hd => hd ▸ rfl
  cases o with
  | alloc d =>
    cases hc
    exact alters (.of_alloc rfl ho)
  | setData d =>
    cases hc
    obtain ⟨-, rfl⟩ := setData_eq_ok_iff.mp ho
    exact confined_renew rfl _ _
  | setScalar d =>
    cases hc
    exact alters (.of_setScalar rfl ho)
  | setElementView d =>
    cases hc
    exact alters (.single (.of_setElementView rfl ho))
  | newArray | link | unlink | clone | free => cases hc

theorem Grounded.confined_perform (hs : s.Grounded) {o : Operation}
    (hc : o.destination? = some c) : Confined (s.root c) s (s.perform o) := by
  unfold Store.perform
  split
  · rename_i t ht
    exact o.confined hs hc ht
  · exact .refl _ s

/-- Start with void containers and apply any operations, with any containers as arguments.  Then no
chain of links comes back to where it began, and the root of a container is the end of its chain,
which is no alias.  If `c` is linked to `d` next, then all containers whose chains come past `c`
get the root of `d`, and the others keep their roots.  If data are stored through `c` next, then
all containers keep their roots, those with the root of `c` show the same as `c`, and the others
keep their types, lengths, sizes and offsets. -/
theorem forest_of_performed (n : Nat) (os : List Operation) :
    let s := os.foldl perform (({} : Store).freshMany n).2
    (∀ c, ¬ Relation.TransGen s.Links c c ∧ s.Leads c (s.root c) ∧
      s.isAlias (s.root c) = false) ∧
    (∀ c d, c < s.cells.size →
      let u := s.perform (.link c d)
      u.root c = u.root d ∧ (∀ e, s.Visits e c → u.root e = u.root d) ∧
        ∀ e, ¬ s.Visits e c → u.root e = s.root e) ∧
    ∀ (o : Operation) (c : CellId), o.destination? = some c →
      let u := s.perform o
      (∀ d, u.root d = s.root d) ∧ (∀ d, s.root d = s.root c → u.Alike d u c) ∧
        ∀ d, s.root d ≠ s.root c → u.type d = s.type d ∧ u.lengths d = s.lengths d ∧
          u.size d = s.size d ∧ u.offset d = s.offset d := by
  intro s
  have hs : s.Rooted := (rooted_freshMany n).performAll os
  refine ⟨fun c => ?_, fun c d hc => ?_, fun o c hc => ?_⟩
  · have hc := hs.grounded.leads_root c
    exact ⟨hc.not_cyclic, hc, by rw [isAlias, hc.target_end, Option.isSome_none]⟩
  · have hroot := fun e => hs.grounded.root_link (d := d) hc e
    -- the root of `d` is the old one, whether its chain comes past `c` or not
    have hd : (s.link c d).root d = s.root d := by
      by_cases hv : s.Visits d c
      · exact (hroot d).1 hv
      · exact (hroot d).2 hv
    refine ⟨((hroot c).1 .refl).trans hd.symm, fun e he => ((hroot e).1 he).trans hd.symm,
      fun e he => (hroot e).2 he⟩
  · have hu := hs.grounded.confined_perform hc
    have hroot := hu.root_eq hs.grounded
    exact ⟨hroot, fun d hd => alike_of_root_eq (by rw [hroot, hroot, hd]),
      fun d hd => hu.shows_eq hs hd⟩

/-- An array is reached through two links and then becomes an alias itself: the chain goes on, and
storing through its first container shows at its new end. -/
theorem forest_of_performed_chain :
    let os : List Operation :=
      [.setData 2 (.ints #[7, 8]) [2], .link 1 2, .link 0 1, .setScalar 3 (.int 5), .link 2 3]
    let s := os.foldl perform (({} : Store).freshMany 4).2
    s.Visits 0 2 ∧ s.root 0 = 3 ∧ s.isAlias 3 = false ∧ (s.perform (.link 2 1)).root 0 = 3 ∧
      (s.perform (.setScalar 0 (.int 9))).Alike 1 (s.perform (.setScalar 0 (.int 9))) 0 := by
  intro os s
  obtain ⟨hends, hlink, hstore⟩ := forest_of_performed 4 os
  have hvisits : s.Visits 0 2 := .single rfl
  have hroot : s.root 0 = 3 := rfl
  have hmoved := hlink 2 1 (by decide)
  refine ⟨hvisits, hroot, hroot ▸ (hends 0).2.2, (hmoved.2.1 0 hvisits).trans rfl, ?_⟩
  exact (hstore (.setScalar 0 (.int 9)) 0 rfl).2.1 1 rfl

end VectorMachine.Store
