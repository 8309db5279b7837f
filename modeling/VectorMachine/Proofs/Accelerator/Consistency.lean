import VectorMachine.Proofs.Accelerator.Typing

/-!
# Consistent typings

A typing is consistent with a program and its constants if every entry is borne out: constants hold
scalars of their types, and a local or register is allocated as a scalar of its type and in no other
way, and all that is written to it has this type under the typing itself.  What an instruction produces
only grows with the typing, so the typing of a program, from which entries are only dropped when a
write does not fit, is the greatest consistent one.
-/

namespace VectorMachine.Accelerator
set_option autoImplicit false

variable {code code' : List Instruction} {s : Store} {m : Memory} {g h k : Typing} {i : Instruction}
  {x y : Operand} {t u : DataType} {xs : List Operand}

/-! ### Larger typings -/

/-- Whatever the smaller typing tells of an address, the larger one tells too. -/
instance : LE Typing := ⟨fun g h => ∀ x t, g.type? x = some t → h.type? x = some t⟩

theorem Typing.le_refl (g : Typing) : g ≤ g := fun _ _ => id

theorem Typing.le_trans (hg : g ≤ h) (hh : h ≤ k) : g ≤ k := fun x t ht => hh x t (hg x t ht)

theorem Typing.type?_eq_of_le (hg : g ≤ h) (hh : h ≤ g) : g.type? = h.type? := by
  funext x
  apply Option.ext
  intro t
  exact ⟨hg x t, hh x t⟩

namespace Typing

theorem reads_mono (hg : g ≤ h) (hr : g.reads xs t = true) : h.reads xs t = true := by
  apply List.all_eq_true.mpr
  intro x hx
  have hread := List.all_eq_true.mp hr x hx
  cases hu : g.type? x with
  | none => simp [hu] at hread
  | some u => simpa [hu, hg x u hu] using hread

/-- A move of open type takes the type of its source, which a larger typing does not change. -/
theorem movedType_mono (hg : g ≤ h) (hc : (g.movedType t xs).isCacheable = true) :
    h.movedType t xs = g.movedType t xs := by
  unfold movedType at hc ⊢
  split at hc
  · rename_i x
    cases hu : g.type? x with
    | none =>
      rw [hu] at hc
      cases hc
    | some u => rw [hg x u hu]
  · rfl

theorem produces?_mono (hg : g ≤ h) (hp : g.produces? i = some t) : h.produces? i = some t := by
  unfold produces? at hp ⊢
  cases hop : i.opcode <;> simp only [hop] at hp ⊢ <;> try cases hp
  case arithmetic | negate | connect | not =>
    split at hp
    · rename_i hc
      rw [if_pos ⟨hc.1, reads_mono hg hc.2⟩]
      exact hp
    · cases hp
  case compare op =>
    split at hp
    · rename_i hc
      rw [if_pos ⟨hc.1, hc.2.1, reads_mono hg hc.2.2⟩]
      exact hp
    · cases hp
  case move =>
    split at hp
    · rename_i hc
      rw [movedType_mono hg hc.1, if_pos ⟨hc.1, reads_mono hg hc.2⟩]
      exact hp
    · cases hp

/-- No address has two entries. -/
def Functional (g : Typing) : Prop := ∀ x t u, (x, t) ∈ g.entries → (x, u) ∈ g.entries → t = u

theorem Functional.type?_eq_some_iff (hg : g.Functional) :
    g.type? x = some t ↔ (x, t) ∈ g.entries := by
  refine ⟨mem_of_type?, fun hx => ?_⟩
  cases hu : g.type? x with
  | none =>
    have hno := List.lookup_eq_none_iff.mp hu _ hx
    simp at hno
  | some u => rw [hg x t u hx (mem_of_type? hu)]

end Typing

theorem functional_refine (hg : g.Functional) : (refine code g).Functional :=
  fun x t u ht hu => hg x t u (List.mem_filter.mp ht).1 (List.mem_filter.mp hu).1

/-! ### Consistency -/

/-- Every entry is one that the allocations and exclusions of a program leave open: a scalar constant,
or a local or register that is allocated as a scalar of its type and in no other way. -/
structure Admitted (code : List Instruction) (s : Store) (m : Memory) (g : Typing) : Prop where
  not_excluded : ∀ x t, g.type? x = some t → ∀ i ∈ code, x ∉ excluded i
  cases : ∀ x t, g.type? x = some t →
    x.part = .constants ∨ x.part = .locals ∨ x.part = .registers
  isCacheable : ∀ x t, g.type? x = some t → t = .int ∨ t = .float ∨ t = .bool
  constant : ∀ x t, g.type? x = some t → x.part = .constants →
    ∃ c, m.cell? x = some c ∧ s.type c = t ∧ s.rank c = 0
  allocated : ∀ x t, g.type? x = some t → x.part ≠ .constants →
    ∃ i ∈ code, i.opcode = .alloc ∧ i.type = t ∧ i.operands = [x]
  unanimous : ∀ x t, g.type? x = some t → x.part ≠ .constants →
    ∀ i ∈ code, i.opcode = .alloc → i.operands.head? = some x → i.type = t ∧ i.operands = [x]

/-- Moreover, what is written to a local or register has its type under the typing. -/
structure Consistent (code : List Instruction) (s : Store) (m : Memory) (g : Typing) : Prop
    extends Admitted code s m g where
  produced : ∀ x t, g.type? x = some t → x.part ≠ .constants → ∀ i ∈ code, i.opcode.writes = true →
    i.opcode ≠ .alloc → i.operands.head? = some x → g.produces? i = some t

theorem writesTo_iff : writesTo i x = true ↔
    i.opcode.writes = true ∧ i.opcode ≠ .alloc ∧ i.operands.head? = some x := by
  simp only [writesTo, Bool.and_eq_true, bne_iff_ne, beq_iff_eq, and_assoc]

theorem isCacheable_iff : t.isCacheable = true ↔ t = .int ∨ t = .float ∨ t = .bool := by
  cases t <;> decide

theorem Admitted.anti (hh : Admitted code s m h) (hg : g ≤ h) : Admitted code s m g where
  not_excluded x t ht := hh.not_excluded x t (hg x t ht)
  cases x t ht := hh.cases x t (hg x t ht)
  isCacheable x t ht := hh.isCacheable x t (hg x t ht)
  constant x t ht := hh.constant x t (hg x t ht)
  allocated x t ht := hh.allocated x t (hg x t ht)
  unanimous x t ht := hh.unanimous x t (hg x t ht)

/-- An address that is not excluded is only allocated as a scalar. -/
theorem allocation?_of_alloc (hop : i.opcode = .alloc) (hx : i.operands.head? = some x)
    (hout : x ∉ excluded i) : allocation? i = some (x, i.type) := by
  have hsome : (allocation? i).isSome = true := by
    by_contra hno
    apply hout
    obtain ⟨rest, hrest⟩ := List.head?_eq_some_iff.mp hx
    simp [excluded, hop, hno, hrest]
  obtain ⟨⟨y, u⟩, hyu⟩ := Option.isSome_iff_exists.mp hsome
  obtain ⟨-, -, -, -, hops, htype⟩ := isOwn_of_allocation hyu
  rw [hops, List.head?_cons] at hx
  cases hx
  rw [hyu, htype]

theorem Admitted.exists_allocation (hg : Admitted code s m g) (ht : g.type? x = some t)
    (hx : x.part ≠ .constants) : ∃ i ∈ code, allocation? i = some (x, t) := by
  obtain ⟨i, hi, hop, htype, hops⟩ := hg.allocated x t ht hx
  refine ⟨i, hi, ?_⟩
  rw [← htype]
  exact allocation?_of_alloc hop (by rw [hops]; rfl) (hg.not_excluded x t ht i hi)

theorem Admitted.eq_of_allocation (hg : Admitted code s m g) (ht : g.type? x = some t)
    (hi : i ∈ code) (ha : allocation? i = some (x, u)) : u = t := by
  obtain ⟨-, -, hx, hop, hops, htype⟩ := isOwn_of_allocation ha
  rw [← htype]
  exact (hg.unanimous x t ht hx i hi hop (by rw [hops]; rfl)).1

theorem mem_constantEntries_iff : (x, t) ∈ constantEntries s m ↔ x.part = .constants ∧
    t.isCacheable = true ∧ ∃ c, m.cell? x = some c ∧ s.type c = t ∧ s.rank c = 0 := by
  constructor
  · intro hx
    obtain ⟨⟨c, n⟩, hcn, hy⟩ := List.mem_filterMap.mp hx
    dsimp only at hy
    split at hy
    · rename_i hc
      cases hy
      refine ⟨rfl, hc.1, c, ?_, rfl, hc.2⟩
      have hn := List.mk_mem_zipIdx_iff_getElem?.mp hcn
      simpa [Memory.cell?, Memory.cells?, Int.not_lt.mpr (Int.natCast_nonneg n)] using hn
    · cases hy
  · rintro ⟨hpart, hc, c, hcell, rfl, hrank⟩
    obtain ⟨part, addr⟩ := x
    subst hpart
    simp only [Memory.cell?, Memory.cells?, Option.bind_some] at hcell
    split at hcell
    · cases hcell
    · rename_i hneg
      apply List.mem_filterMap.mpr
      refine ⟨(c, addr.toNat), List.mk_mem_zipIdx_iff_getElem?.mpr (by simpa using hcell), ?_⟩
      simp only [hc, hrank, if_true, Option.some.injEq, Prod.mk.injEq, and_true]
      congr 1
      omega

theorem functional_constantEntries {t u : DataType} (ht : (x, t) ∈ constantEntries s m)
    (hu : (x, u) ∈ constantEntries s m) : t = u := by
  obtain ⟨-, -, c, hc, rfl, -⟩ := mem_constantEntries_iff.mp ht
  obtain ⟨-, -, d, hd, rfl, -⟩ := mem_constantEntries_iff.mp hu
  rw [hc] at hd
  cases hd
  rfl

/-! ### Candidates -/

theorem mem_candidates_iff {constants : List (Operand × DataType)} :
    (x, t) ∈ (candidates code constants).entries ↔
      ((x, t) ∈ constants ∨ ∃ i ∈ code, allocation? i = some (x, t)) ∧
        (∀ i ∈ code, x ∉ excluded i) ∧ ∀ i ∈ code, ∀ u, allocation? i = some (x, u) → u = t := by
  simp only [candidates, List.mem_filter, List.mem_append, List.mem_eraseDups, List.mem_filterMap,
    Bool.and_eq_true, Bool.not_eq_true', List.all_eq_true, Bool.or_eq_true, bne_iff_ne, beq_iff_eq]
  refine and_congr_right fun _ => and_congr ?_ ?_
  · rw [← Bool.not_eq_true, List.contains_iff_mem, List.mem_flatMap]
    push Not
    rfl
  · constructor
    · intro hall i hi u hu
      exact (hall (x, u) ⟨i, hi, hu⟩).resolve_left (by simp)
    · rintro hall ⟨y, u⟩ ⟨i, hi, hu⟩
      by_cases hy : y = x
      · subst hy
        exact .inr (hall i hi u hu)
      · exact .inl hy

/-- An address is a candidate with one type only, as a constant or as its allocations tell. -/
theorem functional_candidates : (candidates code (constantEntries s m)).Functional := by
  intro x t u ht hu
  obtain ⟨ht, -, hall⟩ := mem_candidates_iff.mp ht
  obtain ⟨hu, -, hall'⟩ := mem_candidates_iff.mp hu
  rcases hu with hu | ⟨i, hi, hiu⟩
  · rcases ht with ht | ⟨i, hi, hit⟩
    · exact functional_constantEntries ht hu
    · exact hall' i hi t hit
  · exact (hall i hi u hiu).symm

theorem Admitted.le_candidates (hg : Admitted code s m g) :
    g ≤ candidates code (constantEntries s m) := by
  intro x t ht
  apply functional_candidates.type?_eq_some_iff.mpr
  apply mem_candidates_iff.mpr
  refine ⟨?_, hg.not_excluded x t ht, fun i hi u hu => hg.eq_of_allocation ht hi hu⟩
  by_cases hx : x.part = .constants
  · exact .inl (mem_constantEntries_iff.mpr
      ⟨hx, isCacheable_iff.mpr (hg.isCacheable x t ht), hg.constant x t ht hx⟩)
  · exact .inr (hg.exists_allocation ht hx)

theorem admitted_candidates : Admitted code s m (candidates code (constantEntries s m)) := by
  have hentry : ∀ x t, (candidates code (constantEntries s m)).type? x = some t → _ :=
    fun x t ht => mem_candidates_iff.mp (Typing.mem_of_type? ht)
  refine ⟨fun x t ht => (hentry x t ht).2.1, fun x t ht => ?_, fun x t ht => ?_, fun x t ht hx => ?_,
    fun x t ht hx => ?_, fun x t ht hx i hi hop hhead => ?_⟩
  · rcases (hentry x t ht).1 with hc | ⟨i, -, hi⟩
    · exact .inl (mem_constantEntries_iff.mp hc).1
    · rcases (isOwn_of_allocation hi).1 with h | h | h
      · exact .inr (.inl h)
      · exact .inr (.inr h)
      · exact .inl h
  · apply isCacheable_iff.mp
    rcases (hentry x t ht).1 with hc | ⟨i, -, hi⟩
    · exact (mem_constantEntries_iff.mp hc).2.1
    · exact (isOwn_of_allocation hi).2.1
  · rcases (hentry x t ht).1 with hc | ⟨i, -, hi⟩
    · exact (mem_constantEntries_iff.mp hc).2.2
    · exact absurd hx (isOwn_of_allocation hi).2.2.1
  · rcases (hentry x t ht).1 with hc | ⟨i, hi, ha⟩
    · exact absurd (mem_constantEntries_iff.mp hc).1 hx
    · obtain ⟨-, -, -, hop, hops, htype⟩ := isOwn_of_allocation ha
      exact ⟨i, hi, hop, htype, hops⟩
  · obtain ⟨-, hout, hall⟩ := hentry x t ht
    have ha := allocation?_of_alloc hop hhead (hout i hi)
    exact ⟨hall i hi _ ha, (isOwn_of_allocation ha).2.2.2.2.1⟩

/-! ### The typing of a program -/

theorem isFitting_iff : isFitting code g x t = true ↔
    (x.part ≠ .constants → ∀ i ∈ code, writesTo i x = true → g.produces? i = some t) := by
  simp only [isFitting, Bool.or_eq_true, beq_iff_eq, List.all_eq_true, Bool.not_eq_true',
    ← Bool.not_eq_true, or_iff_not_imp_left, not_not]

theorem refine_le (hg : g.Functional) : refine code g ≤ g := by
  intro x t ht
  exact hg.type?_eq_some_iff.mpr (List.mem_filter.mp (Typing.mem_of_type? ht)).1

/-- Dropping the entries that do not fit keeps every consistent typing below. -/
theorem Consistent.le_refine (hk : Consistent code s m k) (hg : g.Functional) (hle : k ≤ g) :
    k ≤ refine code g := by
  intro x t ht
  apply (functional_refine hg).type?_eq_some_iff.mpr
  apply List.mem_filter.mpr
  refine ⟨Typing.mem_of_type? (hle x t ht), isFitting_iff.mpr fun hx i hi hw => ?_⟩
  obtain ⟨hwrites, halloc, hhead⟩ := writesTo_iff.mp hw
  exact Typing.produces?_mono hle (hk.produced x t ht hx i hi hwrites halloc hhead)

theorem Consistent.le_refineTimes (hk : Consistent code s m k) (n : Nat) (hg : g.Functional)
    (hle : k ≤ g) : k ≤ refineTimes code n g := by
  induction n generalizing g with
  | zero => exact hle
  | succ n ih => exact ih (functional_refine hg) (hk.le_refine hg hle)

theorem refineTimes_le (n : Nat) (hg : g.Functional) : refineTimes code n g ≤ g := by
  induction n generalizing g with
  | zero => exact Typing.le_refl g
  | succ n ih => exact Typing.le_trans (ih (functional_refine hg)) (refine_le hg)

/-- The typing of a program is consistent. -/
theorem consistent_typing (p : Program) (s : Store) (m : Memory) :
    Consistent p.code.toList s m (typing p s m) := by
  refine ⟨admitted_candidates.anti (refineTimes_le _ functional_candidates),
    fun x t ht hx i hi hw hne hhead => ?_⟩
  exact (typed_typing ht).produced hx i hi (writesTo_iff.mpr ⟨hw, hne, hhead⟩)

/-- It tells whatever a consistent typing tells. -/
theorem Consistent.le_typing {p : Program} (hk : Consistent p.code.toList s m k) :
    k ≤ typing p s m :=
  hk.le_refineTimes _ functional_candidates hk.le_candidates

/-- Consistency does not depend on the order of the instructions. -/
theorem Consistent.perm (hk : Consistent code s m k) (hp : code.Perm code') :
    Consistent code' s m k where
  not_excluded x t ht i hi := hk.not_excluded x t ht i (hp.mem_iff.mpr hi)
  cases := hk.cases
  isCacheable := hk.isCacheable
  constant := hk.constant
  allocated x t ht hx := by
    obtain ⟨i, hi, hops⟩ := hk.allocated x t ht hx
    exact ⟨i, hp.mem_iff.mp hi, hops⟩
  unanimous x t ht hx i hi := hk.unanimous x t ht hx i (hp.mem_iff.mpr hi)
  produced x t ht hx i hi := hk.produced x t ht hx i (hp.mem_iff.mpr hi)

end VectorMachine.Accelerator
