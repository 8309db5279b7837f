import Mathlib.Logic.Relation
import VectorMachine.Proofs.Accelerator.Consistency

/-!
# Elimination in place

The typing of a program can also be found in place.  A survey of the instructions in order records the
types of scalar allocations and bars addresses, forgetting what was recorded of them, until one of its
types is recorded again; then single entries are eliminated, one write that does not fit at a time,
while the others are judged by what is left.  No elimination removes what a consistent typing tells, so
wherever eliminations come to an end they have come to the greatest one, in any order of instructions
and of eliminations.
-/

namespace VectorMachine.Accelerator
set_option autoImplicit false

open Relation (ReflTransGen)

variable {code done : List Instruction} {s : Store} {m : Memory} {g h k : Typing} {i : Instruction}
  {x y : Operand} {t u : DataType}

namespace Typing

def erase (g : Typing) (x : Operand) : Typing := ⟨g.entries.filter fun e => e.1 != x⟩

def assign (g : Typing) (x : Operand) (t : DataType) : Typing := ⟨(x, t) :: (g.erase x).entries⟩

theorem type?_filter {p : Operand → Bool} (g : Typing) (y : Operand) :
    (⟨g.entries.filter fun e => p e.1⟩ : Typing).type? y = if p y then g.type? y else none := by
  unfold type?
  dsimp only
  induction g.entries with
  | nil => simp
  | cons e es ih =>
    obtain ⟨x, t⟩ := e
    by_cases hx : y = x
    · subst hx
      by_cases hp : p y = true
      · simp [hp]
      · rw [List.filter_cons, if_neg hp, ih, if_neg hp, if_neg hp]
    · have hne : (y == x) = false := beq_false_of_ne hx
      rw [List.lookup_cons, hne, ← ih, List.filter_cons]
      split
      · rw [List.lookup_cons, hne]
      · rfl

theorem type?_erase (g : Typing) (x y : Operand) :
    (g.erase x).type? y = if y = x then none else g.type? y := by
  rw [erase, type?_filter (p := (· != x))]
  by_cases hy : y = x <;> simp [hy]

theorem type?_assign (g : Typing) (x : Operand) (t : DataType) (y : Operand) :
    (g.assign x t).type? y = if y = x then some t else g.type? y := by
  have herase := type?_erase g x y
  unfold type? at herase ⊢
  unfold assign
  by_cases hy : y = x
  · simp [hy]
  · rw [List.lookup_cons, beq_false_of_ne hy, if_neg hy, herase, if_neg hy]

theorem erase_le (g : Typing) (x : Operand) : g.erase x ≤ g := by
  intro y t ht
  rw [type?_erase] at ht
  split at ht
  · cases ht
  · exact ht

theorem length_erase_lt (ht : g.type? x = some t) :
    (g.erase x).entries.length < g.entries.length := by
  apply List.length_filter_lt_length_iff_exists.mpr
  exact ⟨(x, t), mem_of_type? ht, by simp⟩

end Typing

/-! ### The survey -/

/-- What is known after some instructions: the types recorded, and the addresses that are barred. -/
structure Survey where
  types : Typing := {}
  barred : List Operand := []

variable {v : Survey}

namespace Survey

def bar (v : Survey) (x : Operand) : Survey := ⟨v.types.erase x, x :: v.barred⟩

/-- A scalar allocation is recorded unless another type is; what else an instruction excludes is
barred.  A barred address may be recorded again. -/
def scan (v : Survey) (i : Instruction) : Survey :=
  match allocation? i with
  | some (x, t) =>
    if (v.types.type? x).any (· != t) then v.bar x else { v with types := v.types.assign x t }
  | none => (excluded i).foldl bar v

/-- What is recorded in the end, less the locals and registers that were barred. -/
def typing (v : Survey) : Typing :=
  ⟨v.types.entries.filter fun e => !(isWorkingPart e.1.part && v.barred.contains e.1)⟩

theorem type?_typing (v : Survey) (x : Operand) : v.typing.type? x =
    if isWorkingPart x.part && v.barred.contains x then none else v.types.type? x := by
  rw [typing, Typing.type?_filter (p := fun x => !(isWorkingPart x.part && v.barred.contains x))]
  cases isWorkingPart x.part && v.barred.contains x <;> rfl

theorem mem_barred_foldl (xs : List Operand) :
    y ∈ (xs.foldl bar v).barred ↔ y ∈ xs ∨ y ∈ v.barred := by
  induction xs generalizing v with
  | nil => simp
  | cons x xs ih =>
    rw [List.foldl_cons, ih, bar, List.mem_cons, List.mem_cons]
    tauto

end Survey

/-- The survey of a program that starts from its constants. -/
def survey (code : List Instruction) (s : Store) (m : Memory) : Survey :=
  code.foldl Survey.scan { types := ⟨constantEntries s m⟩ }

/-- What the recorded types and barred addresses tell of the instructions that were scanned. -/
structure Survey.Tells (done : List Instruction) (s : Store) (m : Memory) (v : Survey) : Prop where
  barred : ∀ i ∈ done, ∀ x ∈ excluded i, x ∈ v.barred
  constant : ∀ x t, v.types.type? x = some t → x.part = .constants →
    x ∉ v.barred ∧ (x, t) ∈ constantEntries s m
  recorded : ∀ x t, v.types.type? x = some t → x.part ≠ .constants →
    ∃ i ∈ done, allocation? i = some (x, t)
  allocated : ∀ i ∈ done, ∀ x t, allocation? i = some (x, t) →
    x ∈ v.barred ∨ v.types.type? x = some t

theorem excluded_of_allocation (ha : allocation? i = some (x, t)) : excluded i = [] := by
  unfold excluded
  rw [(isOwn_of_allocation ha).2.2.2.1]
  simp [ha]

/-- Barring an address forgets what was recorded of it. -/
theorem Survey.Tells.bar (hv : v.Tells done s m) (x : Operand) : (v.bar x).Tells done s m where
  barred i hi y hy := List.mem_cons_of_mem x (hv.barred i hi y hy)
  constant y t ht hy := by
    rw [Survey.bar, Typing.type?_erase] at ht
    split at ht
    · cases ht
    · rename_i hne
      obtain ⟨hout, hmem⟩ := hv.constant y t ht hy
      exact ⟨fun h => (List.mem_cons.mp h).elim hne hout, hmem⟩
  recorded y t ht hy := hv.recorded y t (Typing.erase_le _ _ y t ht) hy
  allocated i hi y t ha := by
    by_cases hy : y = x
    · exact .inl (List.mem_cons.mpr (.inl hy))
    · rw [Survey.bar, Typing.type?_erase, if_neg hy]
      exact (hv.allocated i hi y t ha).imp_left (List.mem_cons_of_mem x)

theorem Survey.Tells.barAll (hv : v.Tells done s m) (xs : List Operand) :
    (xs.foldl Survey.bar v).Tells done s m := by
  induction xs generalizing v with
  | nil => exact hv
  | cons x xs ih => exact ih (hv.bar x)

/-- One more instruction, if what it excludes is barred and what it allocates is recorded or
barred. -/
theorem Survey.Tells.snoc (hv : v.Tells done s m) (hout : ∀ x ∈ excluded i, x ∈ v.barred)
    (halloc : ∀ x t, allocation? i = some (x, t) → x ∈ v.barred ∨ v.types.type? x = some t) :
    v.Tells (done ++ [i]) s m where
  barred j hj x hx := by
    rcases List.mem_append.mp hj with hj | hj
    · exact hv.barred j hj x hx
    · exact hout x (List.mem_singleton.mp hj ▸ hx)
  constant := hv.constant
  recorded x t ht hx := by
    obtain ⟨j, hj, ha⟩ := hv.recorded x t ht hx
    exact ⟨j, List.mem_append_left _ hj, ha⟩
  allocated j hj x t ha := by
    rcases List.mem_append.mp hj with hj | hj
    · exact hv.allocated j hj x t ha
    · exact halloc x t (List.mem_singleton.mp hj ▸ ha)

/-- A scalar allocation is recorded where no other type is. -/
theorem Survey.Tells.assign (hv : v.Tells done s m) (ha : allocation? i = some (x, t))
    (hprior : (v.types.type? x).any (· != t) = false) :
    Survey.Tells (done ++ [i]) s m { v with types := v.types.assign x t } where
  barred j hj y hy := by
    rcases List.mem_append.mp hj with hj | hj
    · exact hv.barred j hj y hy
    · rw [List.mem_singleton.mp hj, excluded_of_allocation ha] at hy
      cases hy
  constant y u hu hy := by
    have hpart := (isOwn_of_allocation ha).2.2.1
    rw [Typing.type?_assign, if_neg (fun he : y = x => hpart (he ▸ hy))] at hu
    exact hv.constant y u hu hy
  recorded y u hu hy := by
    rw [Typing.type?_assign] at hu
    split at hu
    · rename_i he
      cases hu
      exact ⟨i, by simp, he ▸ ha⟩
    · obtain ⟨j, hj, hja⟩ := hv.recorded y u hu hy
      exact ⟨j, List.mem_append_left _ hj, hja⟩
  allocated j hj y u hy := by
    rw [Typing.type?_assign]
    rcases List.mem_append.mp hj with hj | hj
    · split
      · -- the same type was recorded before, if the address was not barred
        rename_i he
        subst he
        refine (hv.allocated j hj y u hy).imp_right fun hu => ?_
        have hut : u = t := by simpa [hu] using hprior
        rw [hut]
      · exact hv.allocated j hj y u hy
    · rw [List.mem_singleton.mp hj, ha] at hy
      cases hy
      exact .inr (if_pos rfl)

theorem Survey.Tells.scan (hv : v.Tells done s m) (i : Instruction) :
    (v.scan i).Tells (done ++ [i]) s m := by
  unfold Survey.scan
  cases ha : allocation? i with
  | none =>
    refine (hv.barAll (excluded i)).snoc (fun x hx => ?_) fun x t hx => ?_
    · exact (Survey.mem_barred_foldl _).mpr (.inl hx)
    · rw [ha] at hx
      cases hx
  | some e =>
    obtain ⟨x, t⟩ := e
    dsimp only
    split
    · -- another type is recorded, so the address is barred
      refine (hv.bar x).snoc (fun y hy => ?_) fun y u hy => ?_
      · rw [excluded_of_allocation ha] at hy
        cases hy
      · rw [ha] at hy
        cases hy
        exact .inl List.mem_cons_self
    · exact hv.assign ha (Bool.eq_false_iff.mpr ‹_›)

theorem tells_survey (code : List Instruction) (s : Store) (m : Memory) :
    (survey code s m).Tells code s m := by
  have hrun : ∀ (rest done : List Instruction) (v : Survey), v.Tells done s m →
      (rest.foldl Survey.scan v).Tells (done ++ rest) s m := by
    intro rest
    induction rest with
    | nil =>
      intro done v hv
      simpa using hv
    | cons i rest ih =>
      intro done v hv
      rw [List.foldl_cons, List.append_cons]
      exact ih _ _ (hv.scan i)
  apply hrun code [] _
  refine ⟨by simp, fun x t ht _ => ⟨by simp, Typing.mem_of_type? ht⟩, fun x t ht hx => ?_, by simp⟩
  exact absurd (mem_constantEntries_iff.mp (Typing.mem_of_type? ht)).1 hx

/-- A survey bars and overwrites nothing that an admitted typing tells. -/
structure Survey.Keeps (k : Typing) (v : Survey) : Prop where
  not_barred : ∀ x t, k.type? x = some t → x ∉ v.barred
  agrees : ∀ x t u, k.type? x = some t → v.types.type? x = some u → u = t
  constant : ∀ x t, k.type? x = some t → x.part = .constants → v.types.type? x = some t

theorem Survey.Keeps.bar (hv : v.Keeps k) (hx : k.type? x = none) : (v.bar x).Keeps k := by
  have hne : ∀ {y t}, k.type? y = some t → y ≠ x := by
    rintro y t ht rfl
    rw [hx] at ht
    cases ht
  refine ⟨fun y t ht hy => ?_, fun y t u ht hu => ?_, fun y t ht hy => ?_⟩
  · exact (List.mem_cons.mp hy).elim (hne ht) (hv.not_barred y t ht)
  · exact hv.agrees y t u ht (Typing.erase_le _ _ y u hu)
  · rw [Survey.bar, Typing.type?_erase, if_neg (hne ht)]
    exact hv.constant y t ht hy

theorem Survey.Keeps.barAll {xs : List Operand} (hv : v.Keeps k)
    (hxs : ∀ x ∈ xs, k.type? x = none) : (xs.foldl Survey.bar v).Keeps k := by
  induction xs generalizing v with
  | nil => exact hv
  | cons x xs ih =>
    exact ih (hv.bar (hxs x List.mem_cons_self)) fun y hy => hxs y (List.mem_cons_of_mem x hy)

theorem Survey.Keeps.scan (hk : Admitted code s m k) (hv : v.Keeps k) (hi : i ∈ code) :
    (v.scan i).Keeps k := by
  unfold Survey.scan
  cases ha : allocation? i with
  | none =>
    apply hv.barAll
    intro x hx
    apply Option.eq_none_iff_forall_ne_some.mpr
    intro t ht
    exact hk.not_excluded x t ht i hi hx
  | some e =>
    obtain ⟨x, t⟩ := e
    dsimp only
    split
    · rename_i hprior
      apply hv.bar
      apply Option.eq_none_iff_forall_ne_some.mpr
      intro u hu
      have htu := hk.eq_of_allocation hu hi ha
      cases hp : v.types.type? x with
      | none => simp [hp] at hprior
      | some p => simp [hp, hv.agrees x u p hu hp, htu] at hprior
    · obtain ⟨-, -, hpart, -, -, -⟩ := isOwn_of_allocation ha
      refine ⟨hv.not_barred, fun y u w hu hw => ?_, fun y u hu hy => ?_⟩
      · rw [Typing.type?_assign] at hw
        split at hw
        · rename_i he
          subst he
          cases hw
          exact hk.eq_of_allocation hu hi ha
        · exact hv.agrees y u w hu hw
      · rw [Typing.type?_assign, if_neg (fun he : y = x => hpart (he ▸ hy))]
        exact hv.constant y u hu hy

theorem Admitted.keeps_survey (hk : Admitted code s m k) : (survey code s m).Keeps k := by
  have hrun : ∀ (rest : List Instruction) (v : Survey), (∀ i ∈ rest, i ∈ code) → v.Keeps k →
      (rest.foldl Survey.scan v).Keeps k := by
    intro rest
    induction rest with
    | nil => exact fun v _ hv => hv
    | cons i rest ih =>
      intro v hrest hv
      exact ih _ (fun j hj => hrest j (List.mem_cons_of_mem i hj))
        (hv.scan hk (hrest i List.mem_cons_self))
  apply hrun code _ (fun _ => id)
  have hmem : ∀ x t, k.type? x = some t → x.part = .constants → (x, t) ∈ constantEntries s m :=
    fun x t ht hx => mem_constantEntries_iff.mpr
      ⟨hx, isCacheable_iff.mpr (hk.isCacheable x t ht), hk.constant x t ht hx⟩
  refine ⟨by simp, fun x t u ht hu => ?_, fun x t ht hx => ?_⟩
  · have hu := Typing.mem_of_type? hu
    exact functional_constantEntries hu (hmem x t ht (mem_constantEntries_iff.mp hu).1)
  · exact (Typing.Functional.type?_eq_some_iff fun _ _ _ => functional_constantEntries).mpr
      (hmem x t ht hx)

theorem Admitted.le_survey (hk : Admitted code s m k) : k ≤ (survey code s m).typing := by
  intro x t ht
  have hkeeps := hk.keeps_survey
  have hout : (survey code s m).barred.contains x = false := by
    rw [← Bool.not_eq_true, List.contains_iff_mem]
    exact hkeeps.not_barred x t ht
  rw [Survey.type?_typing, hout, Bool.and_false, if_neg Bool.false_ne_true]
  by_cases hx : x.part = .constants
  · exact hkeeps.constant x t ht hx
  · obtain ⟨i, hi, ha⟩ := hk.exists_allocation ht hx
    exact ((tells_survey code s m).allocated i hi x t ha).resolve_left (hkeeps.not_barred x t ht)

/-- What a survey tells is admitted: it is a candidate. -/
theorem survey_le_candidates :
    (survey code s m).typing ≤ candidates code (constantEntries s m) := by
  intro x t ht
  have htells := tells_survey code s m
  rw [Survey.type?_typing] at ht
  split at ht
  · cases ht
  rename_i hbarred
  apply functional_candidates.type?_eq_some_iff.mpr
  apply mem_candidates_iff.mpr
  by_cases hx : x.part = .constants
  · obtain ⟨hout, hmem⟩ := htells.constant x t ht hx
    exact ⟨.inl hmem, fun i hi he => hout (htells.barred i hi x he),
      fun i _ u hu => absurd hx (isOwn_of_allocation hu).2.2.1⟩
  · obtain ⟨i, hi, ha⟩ := htells.recorded x t ht hx
    have hworking : isWorkingPart x.part = true := by
      rcases (isOwn_of_allocation ha).1 with h | h | h
      · simp [isWorkingPart, h]
      · simp [isWorkingPart, h]
      · exact absurd h hx
    have hout : x ∉ (survey code s m).barred := by
      simpa [hworking] using hbarred
    refine ⟨.inr ⟨i, hi, ha⟩, fun j hj he => hout (htells.barred j hj x he), fun j hj u hu => ?_⟩
    have hrecorded := (htells.allocated j hj x u hu).resolve_left hout
    rw [ht] at hrecorded
    cases hrecorded
    rfl

/-! ### Eliminations -/

/-- An entry with a write that does not fit is eliminated. -/
inductive Eliminates (code : List Instruction) (g : Typing) : Typing → Prop
  | write {i : Instruction} {x : Operand} {t : DataType} : i ∈ code → x.part ≠ .constants →
      writesTo i x = true → g.type? x = some t → g.produces? i ≠ some t →
      Eliminates code g (g.erase x)

/-- No entry can be eliminated. -/
def Settled (code : List Instruction) (g : Typing) : Prop := ∀ h, ¬ Eliminates code g h

theorem Eliminates.length_lt (he : Eliminates code g h) : h.entries.length < g.entries.length := by
  obtain ⟨-, -, -, ht, -⟩ := he
  exact Typing.length_erase_lt ht

/-- Eliminations end, since each takes at least one entry away. -/
theorem wellFounded_eliminates (code : List Instruction) :
    WellFounded fun h g => Eliminates code g h :=
  Subrelation.wf (fun he => he.length_lt) (measure fun g : Typing => g.entries.length).wf

/-- An elimination takes nothing away that a consistent typing tells. -/
theorem Consistent.le_of_eliminates (hk : Consistent code s m k) (hle : k ≤ g)
    (he : Eliminates code g h) : k ≤ h := by
  obtain ⟨hi, hx, hw, ht, hp⟩ := he
  rename_i i x t
  intro y u hu
  rw [Typing.type?_erase]
  split
  · rename_i hy
    subst hy
    obtain ⟨hwrites, halloc, hhead⟩ := writesTo_iff.mp hw
    have hproduced := hk.produced y u hu hx i hi hwrites halloc hhead
    have hut : some u = some t := (hle y u hu).symm.trans ht
    exact absurd (hut ▸ Typing.produces?_mono hle hproduced) hp
  · exact hle y u hu

theorem Consistent.le_of_eliminations (hk : Consistent code s m k) (hle : k ≤ g)
    (he : ReflTransGen (Eliminates code) g h) : k ≤ h := by
  induction he with
  | refl => exact hle
  | tail _ he ih => exact hk.le_of_eliminates ih he

theorem le_of_eliminations (he : ReflTransGen (Eliminates code) g h) : h ≤ g := by
  induction he with
  | refl => exact Typing.le_refl _
  | tail _ he ih =>
    obtain ⟨-, -, -, -, -⟩ := he
    exact Typing.le_trans (Typing.erase_le _ _) ih

/-- An admitted typing from which nothing can be eliminated is consistent. -/
theorem Admitted.consistent (hg : Admitted code s m g) (hs : Settled code g) :
    Consistent code s m g := by
  refine ⟨hg, fun x t ht hx i hi hw hne hhead => ?_⟩
  by_contra hp
  exact hs _ (.write hi hx (writesTo_iff.mpr ⟨hw, hne, hhead⟩) ht hp)

/-- Wherever the eliminations from the survey of a program come to an end, they have come to its
typing. -/
theorem type?_of_eliminations {p : Program}
    (he : ReflTransGen (Eliminates p.code.toList) (survey p.code.toList s m).typing g)
    (hs : Settled p.code.toList g) : g.type? = (typing p s m).type? := by
  have hadmitted : Admitted p.code.toList s m g :=
    (admitted_candidates.anti survey_le_candidates).anti (le_of_eliminations he)
  have hconsistent := consistent_typing p s m
  apply Typing.type?_eq_of_le
  · exact (hadmitted.consistent hs).le_typing
  · exact hconsistent.le_of_eliminations hconsistent.toAdmitted.le_survey he

/-! ### The loop -/

/-- Eliminates the entry of an address if the write of an instruction does not fit. -/
def eliminate (g : Typing) (i : Instruction) : Typing :=
  match i.operands.head? with
  | none => g
  | some x => match g.type? x with
    | none => g
    | some t =>
      if x.part ≠ .constants ∧ writesTo i x = true ∧ g.produces? i ≠ some t then g.erase x else g

/-- One round: every instruction in order, each judged by what is left. -/
def sweep (code : List Instruction) (g : Typing) : Typing := code.foldl eliminate g

/-- Rounds until one eliminates nothing. -/
def settle (code : List Instruction) (g : Typing) : Typing :=
  if (sweep code g).entries.length < g.entries.length then settle code (sweep code g) else g
termination_by g.entries.length

theorem eliminate_cases (hi : i ∈ code) : eliminate g i = g ∨ Eliminates code g (eliminate g i) := by
  unfold eliminate
  split
  · exact .inl rfl
  · split
    · exact .inl rfl
    · rename_i t ht
      split
      · rename_i hc
        exact .inr (.write hi hc.1 hc.2.1 ht hc.2.2)
      · exact .inl rfl

theorem eliminate_of_write (hx : x.part ≠ .constants) (hw : writesTo i x = true)
    (ht : g.type? x = some t) (hp : g.produces? i ≠ some t) : eliminate g i = g.erase x := by
  unfold eliminate
  rw [(writesTo_iff.mp hw).2.2]
  simp only [ht]
  rw [if_pos ⟨hx, hw, hp⟩]

theorem length_eliminate_le (g : Typing) (i : Instruction) :
    (eliminate g i).entries.length ≤ g.entries.length := by
  rcases eliminate_cases (g := g) (i := i) (List.mem_singleton.mpr rfl) with he | he
  · rw [he]
  · exact Nat.le_of_lt he.length_lt

theorem length_sweep_le (code : List Instruction) (g : Typing) :
    (sweep code g).entries.length ≤ g.entries.length := by
  induction code generalizing g with
  | nil => exact Nat.le_refl _
  | cons i code ih => exact Nat.le_trans (ih (eliminate g i)) (length_eliminate_le g i)

theorem eliminations_sweep (code : List Instruction) (g : Typing) :
    ReflTransGen (Eliminates code) g (sweep code g) := by
  have hrun : ∀ (rest : List Instruction) (g : Typing), (∀ i ∈ rest, i ∈ code) →
      ReflTransGen (Eliminates code) g (rest.foldl eliminate g) := by
    intro rest
    induction rest with
    | nil => exact fun g _ => .refl
    | cons i rest ih =>
      intro g hrest
      have hnext := ih (eliminate g i) fun j hj => hrest j (List.mem_cons_of_mem i hj)
      rcases eliminate_cases (g := g) (hrest i List.mem_cons_self) with he | he
      · rw [List.foldl_cons]
        rwa [he] at hnext ⊢
      · exact .head he hnext
  exact hrun code g fun _ => id

/-- A round that eliminates nothing finds every write fitting. -/
theorem eliminate_of_sweep (hs : g.entries.length ≤ (sweep code g).entries.length) (hi : i ∈ code) :
    eliminate g i = g := by
  induction code with
  | nil => cases hi
  | cons j code ih =>
    have hj : eliminate g j = g := by
      rcases eliminate_cases (g := g) (i := j) (List.mem_singleton.mpr rfl) with he | he
      · exact he
      · have hlt := he.length_lt
        have hle := length_sweep_le code (eliminate g j)
        exact absurd hs (Nat.not_le.mpr (Nat.lt_of_le_of_lt hle hlt))
    rcases List.mem_cons.mp hi with rfl | hi
    · exact hj
    · apply ih _ hi
      rw [sweep, List.foldl_cons, hj] at hs
      exact hs

theorem settled_of_sweep (hs : g.entries.length ≤ (sweep code g).entries.length) :
    Settled code g := by
  rintro _ ⟨hi, hx, hw, ht, hp⟩
  have hsame := eliminate_of_sweep hs hi
  rw [eliminate_of_write hx hw ht hp] at hsame
  have hlt := Typing.length_erase_lt ht
  rw [hsame] at hlt
  exact Nat.lt_irrefl _ hlt

/-- The loop eliminates until nothing can be eliminated. -/
theorem settle_spec (code : List Instruction) (g : Typing) :
    ReflTransGen (Eliminates code) g (settle code g) ∧ Settled code (settle code g) := by
  induction g using settle.induct code with
  | case1 g hlt ih =>
    rw [settle, if_pos hlt]
    exact ⟨(eliminations_sweep code g).trans ih.1, ih.2⟩
  | case2 g hlt =>
    rw [settle, if_neg hlt]
    exact ⟨.refl, settled_of_sweep (Nat.le_of_not_lt hlt)⟩

end VectorMachine.Accelerator
