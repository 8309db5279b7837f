import VectorMachine.Accelerator.Typing
import VectorMachine.Proofs.Machine.Guarded

/-!
# What the typing of a program excludes

Dropping entries reaches an end after as many rounds as there are entries.  What is left has this
property: an instruction that may change, link or hand over a typed address is a scalar allocation
of its type, or writes a scalar of its type that it makes from typed operands.
-/

namespace VectorMachine.Accelerator
set_option autoImplicit false

variable {code : List Instruction} {g : Typing} {x : Instruction} {y : Operand} {t : DataType}

theorem length_refine_le : (refine code g).entries.length ≤ g.entries.length :=
  List.length_filter_le _ _

theorem refine_eq_of_length (h : (refine code g).entries.length = g.entries.length) :
    refine code g = g := by
  have := List.filter_eq_self.mpr (List.length_filter_eq_length_iff.mp h)
  simp only [refine, this]

theorem refineTimes_of_fixed (h : refine code g = g) (n : Nat) : refineTimes code n g = g := by
  induction n with
  | zero => rfl
  | succ n ih => rw [refineTimes, h, ih]

/-- As many rounds as there are entries reach the end. -/
theorem refine_refineTimes {n : Nat} (h : g.entries.length ≤ n) :
    refine code (refineTimes code n g) = refineTimes code n g := by
  induction n generalizing g with
  | zero =>
    have hnil : g.entries = [] := List.length_eq_zero_iff.mp (Nat.le_zero.mp h)
    obtain ⟨entries⟩ := g
    subst hnil
    rfl
  | succ n ih =>
    by_cases hfix : refine code g = g
    · rw [refineTimes_of_fixed hfix, hfix]
    · have hlt : (refine code g).entries.length < g.entries.length :=
        Nat.lt_of_le_of_ne length_refine_le fun he => hfix (refine_eq_of_length he)
      exact ih (by omega)

theorem mem_of_mem_refineTimes {n : Nat} {e : Operand × DataType}
    (h : e ∈ (refineTimes code n g).entries) : e ∈ g.entries := by
  induction n generalizing g with
  | zero => exact h
  | succ n ih => exact (List.mem_filter.mp (ih h)).1

theorem Typing.mem_of_type? (h : g.type? y = some t) : (y, t) ∈ g.entries := by
  obtain ⟨l, r, hl, -⟩ := List.lookup_eq_some_iff.mp h
  simp [hl]

/-- What holds of every typed address of a program. -/
structure Typed (code : List Instruction) (g : Typing) (y : Operand) (t : DataType) : Prop where
  isOwn : y.IsOwn
  isCacheable : t.isCacheable = true
  not_excluded : ∀ x ∈ code, y ∉ excluded x
  allocated : ∀ x ∈ code, ∀ u, allocation? x = some (y, u) → u = t
  produced : y.part ≠ .constants → ∀ x ∈ code, writesTo x y = true → g.produces? x = some t

theorem isOwn_of_allocation {u : DataType} (h : allocation? x = some (y, u)) :
    y.IsOwn ∧ u.isCacheable = true ∧ y.part ≠ .constants ∧ x.opcode = .alloc ∧
      x.operands = [y] ∧ x.type = u := by
  unfold allocation? at h
  split at h
  · rename_i d hop hx
    split at h
    · rename_i hd
      cases h
      refine ⟨?_, hd.1, ?_, hop, hx, rfl⟩
      · simp only [isWorkingPart, Bool.or_eq_true, decide_eq_true_eq] at hd
        rcases hd.2 with hd | hd
        · exact .inl hd
        · exact .inr (.inl hd)
      · intro hc
        simp [isWorkingPart, hc] at hd
    · cases h
  · cases h

theorem mem_constantEntries {s : Store} {m : Memory} (h : (y, t) ∈ constantEntries s m) :
    y.part = .constants ∧ t.isCacheable = true ∧ ∃ c, m.cell? y = some c ∧ s.type c = t := by
  obtain ⟨⟨c, i⟩, hci, hy⟩ := List.mem_filterMap.mp h
  dsimp only at hy
  split at hy
  · rename_i hc
    cases hy
    refine ⟨rfl, hc.1, c, ?_, rfl⟩
    have hi := List.mk_mem_zipIdx_iff_getElem?.mp hci
    simpa [Memory.cell?, Memory.cells?, Int.not_lt.mpr (Int.natCast_nonneg i)] using hi
  · cases hy

/-- Typed addresses are constants, or locals and registers that are allocated as scalars. -/
theorem mem_of_typing {p : Program} {s : Store} {m : Memory}
    (h : (typing p s m).type? y = some t) :
    (y, t) ∈ constantEntries s m ∨ ∃ x ∈ p.code.toList, allocation? x = some (y, t) := by
  have hcand := mem_of_mem_refineTimes (Typing.mem_of_type? h)
  simp only [candidates, List.mem_filter, List.mem_append] at hcand
  rcases hcand.1 with hc | ha
  · exact .inl hc
  · exact .inr (List.mem_filterMap.mp (List.mem_eraseDups.mp ha))

theorem typed_typing {p : Program} {s : Store} {m : Memory}
    (h : (typing p s m).type? y = some t) : Typed p.code.toList (typing p s m) y t := by
  have hmem := Typing.mem_of_type? h
  have hfix : refine p.code.toList (typing p s m) = typing p s m :=
    refine_refineTimes (Nat.le_refl _)
  have hcand := mem_of_mem_refineTimes hmem
  simp only [candidates, List.mem_filter, Bool.and_eq_true, Bool.not_eq_true',
    List.all_eq_true] at hcand
  obtain ⟨-, hout, hall⟩ := hcand
  have hbase : y.IsOwn ∧ t.isCacheable = true := by
    rcases mem_of_typing h with hc | ⟨z, _, hz⟩
    · obtain ⟨h₁, h₂, -⟩ := mem_constantEntries hc
      exact ⟨.inr (.inr h₁), h₂⟩
    · obtain ⟨h₁, h₂, -⟩ := isOwn_of_allocation hz
      exact ⟨h₁, h₂⟩
  refine ⟨hbase.1, hbase.2, fun x hx hy => ?_, fun x hx u hu => ?_, fun hn x hx hw => ?_⟩
  · rw [List.contains_iff_mem.mpr (List.mem_flatMap.mpr ⟨x, hx, hy⟩)] at hout
    cases hout
  · have := hall (y, u) (List.mem_filterMap.mpr ⟨x, hx, hu⟩)
    simpa using this
  · rw [← hfix] at hmem
    have hfit := (List.mem_filter.mp hmem).2
    simp only [isFitting, Bool.or_eq_true, beq_iff_eq, List.all_eq_true, Bool.not_eq_true'] at hfit
    rcases hfit with hc | hfit
    · exact absurd hc hn
    · rcases hfit x hx with hw' | hp
      · simp [hw] at hw'
      · exact hp

theorem mem_take_of_getElem? {α : Type} {l : List α} {a : α} {i n : Nat} (h : l[i]? = some a)
    (hi : i < n) : a ∈ l.take n :=
  List.mem_of_getElem? ((List.getElem?_take_of_lt hi).trans h)

theorem mem_drop_of_getElem? {α : Type} {l : List α} {a : α} {i n : Nat} (h : l[i]? = some a)
    (hi : n ≤ i) : a ∈ l.drop n := by
  refine List.mem_of_getElem? (i := i - n) ?_
  rw [List.getElem?_drop, Nat.add_sub_cancel' hi, h]

/-- What an instruction that exposes a typed address does. -/
theorem Typed.exposed {p : Program} {i : Nat} (ht : Typed code g y t) (hx : x ∈ code)
    (hadm : x.Admissible p) (hy : x.operands[i]? = some y) (he : x.exposes i = true) :
    i = 0 ∧ y.part ≠ .constants ∧
      (x.opcode = .alloc ∧ x.operands = [y] ∧ x.type = t ∨
        x.opcode ≠ .alloc ∧ g.produces? x = some t) := by
  have hout := ht.not_excluded x hx
  -- a destination is no constant, and is written by producing a scalar
  have hwrite : x.opcode.writes = true → x.opcode ≠ .alloc → i = 0 → y.part ≠ .constants ∧
      g.produces? x = some t := by
    rintro hw hne rfl
    have hc := hadm.destination hw y hy
    refine ⟨hc, ht.produced hc x hx ?_⟩
    simp [writesTo, hw, hne, List.head?_eq_getElem?, hy]
  unfold Instruction.exposes at he
  unfold excluded at hout
  cases hop : x.opcode <;> simp only [hop, Opcode.writes] at he hout hwrite
  case alloc =>
    have hi : i = 0 := by simpa using he
    subst hi
    split at hout
    · rename_i ha
      obtain ⟨⟨z, u⟩, hzu⟩ := Option.isSome_iff_exists.mp ha
      obtain ⟨-, -, hpart, -, hops, htype⟩ := isOwn_of_allocation hzu
      simp only [hops, List.getElem?_cons_zero, Option.some.injEq] at hy
      subst hy
      exact ⟨rfl, hpart, .inl ⟨rfl, hops, htype.trans (ht.allocated x hx u hzu)⟩⟩
    · exact absurd (mem_take_of_getElem? hy Nat.zero_lt_one) hout
  case refer | referElement =>
    exact absurd (mem_take_of_getElem? hy (by simpa using he)) hout
  case call =>
    simp only [Bool.and_eq_true, decide_eq_true_eq] at he
    exact absurd (mem_drop_of_getElem? hy he.1) hout
  case ret =>
    simp only [Bool.and_eq_true, beq_iff_eq] at he
    obtain ⟨rfl, -⟩ := he
    refine absurd (mem_take_of_getElem? (i := 0) ?_ Nat.zero_lt_one) hout
    rw [List.getElem?_drop, hy]
  case callExternal =>
    simp only [Bool.or_eq_true, beq_iff_eq, Bool.and_eq_true, decide_eq_true_eq] at he
    simp only [List.mem_append, not_or] at hout
    rcases he with rfl | he
    · exact absurd (mem_take_of_getElem? hy Nat.zero_lt_one) hout.1
    · exact absurd (mem_drop_of_getElem? hy he.1) hout.2
  case allocLike | allocTop | free | cast | fill | movePop | referPop | moveElement =>
    have hi : i = 0 := by simpa using he
    subst hi
    exact absurd (mem_take_of_getElem? hy Nat.zero_lt_one) hout
  case arithmetic | negate | compare | connect | not | move =>
    have hi : i = 0 := by simpa using he
    obtain ⟨h₁, h₂⟩ := hwrite trivial (by simp) hi
    exact ⟨hi, h₁, .inr ⟨by simp, h₂⟩⟩
  all_goals simp at he

theorem not_exposes_constant {p : Program} {i : Nat} (hadm : x.Admissible p)
    (hy : x.operands[i]? = some y) (hc : y.part = .constants) : x.exposes i = false := by
  have hhand : x.handsOver i = false := by simp [Instruction.handsOver, hy, hc]
  have hdst : x.opcode.writes = true → i ≠ 0 := by
    rintro hw rfl
    exact hadm.destination hw y hy hc
  have hsrc : x.opcode = .refer ∨ x.opcode = .referElement → i ≠ 1 := by
    rintro hr rfl
    exact hadm.source hr y hy hc
  unfold Instruction.exposes
  cases hop : x.opcode <;> simp only [hop, Opcode.writes] at hdst hsrc ⊢
  case refer | referElement =>
    have h₁ := hdst trivial
    have h₂ := hsrc (by simp)
    simp
    omega
  all_goals simp [hhand]
  all_goals exact hdst trivial

end VectorMachine.Accelerator
