import VectorMachine.Proofs.Bindings
import VectorMachine.Proofs.Engine.Runs

/-!
# What an engine keeps

Host code may change any container, those of the kept memory as well, and bind variables to whichever
containers there are.  Still a program that an engine keeps is what a source assembles to with the
bindings that there were, so that a run which gets to its processor runs what its own source assembles
to with the bindings that there are.
-/

namespace VectorMachine
set_option autoImplicit false

namespace Binding

theorem Table.version_lt_addVariable {t t' : Table} {v : Variable} {i : Nat}
    (h : t.addVariable v = .ok (i, t')) : t.version < t'.version := by
  unfold Table.addVariable at h
  split at h <;> cases h
  exact Nat.lt_succ_self _

theorem Table.version_lt_addFunction {t t' : Table} {f : Function} {i : Nat}
    (h : t.addFunction f = .ok (i, t')) : t.version < t'.version := by
  unfold Table.addFunction at h
  split at h <;> cases h
  exact Nat.lt_succ_self _

theorem serve_cases (t : Table) (r : Request) : (t.serve r).2 = t ∨
    (∃ v i, r = .addVariable v ∧ t.addVariable v = .ok (i, (t.serve r).2)) ∨
    (∃ f i, r = .addFunction f ∧ t.addFunction f = .ok (i, (t.serve r).2)) ∨
    ∃ name c, r = .set name c ∧ t.set name c = .ok (t.serve r).2 := by
  cases r with
  | addVariable v =>
    cases ht : t.addVariable v with
    | ok a => exact .inr (.inl ⟨v, a.1, rfl, by rw [Table.serve, ht]⟩)
    | error a => exact .inl (by simp only [Table.serve, ht])
  | addFunction f =>
    cases ht : t.addFunction f with
    | ok a => exact .inr (.inr (.inl ⟨f, a.1, rfl, by rw [Table.serve, ht]⟩))
    | error a => exact .inl (by simp only [Table.serve, ht])
  | set name c =>
    cases ht : t.set name c with
    | ok t' => exact .inr (.inr (.inr ⟨name, c, rfl, by rw [Table.serve, ht]⟩))
    | error a => exact .inl (by simp only [Table.serve, ht])

/-- A request leaves all names at their addresses, or the version tells that it has added one. -/
theorem Table.sameNames_serve (t : Table) (r : Request) :
    t.SameNames (t.serve r).2 ∨ t.version < (t.serve r).2.version := by
  rcases serve_cases t r with ht | ⟨v, i, -, ht⟩ | ⟨f, i, -, ht⟩ | ⟨name, c, -, ht⟩
  · rw [ht]
    exact .inl ⟨rfl, rfl, rfl⟩
  · exact .inr (version_lt_addVariable ht)
  · exact .inr (version_lt_addFunction ht)
  · exact .inl (sameNames_set ht)

end Binding

open Binding (Table)

namespace Engine

variable {S : String → Prop} {e e' e₁ e₂ : Engine} {p : Program} {m : Memory} {src : String}
  {hit : Bool} {k : Kept}

/-- Different sources have different digests. -/
def Distinguishes (S : String → Prop) : Prop :=
  ∀ a b, S a → S b → Blake2b.digest a.toUTF8 = Blake2b.digest b.toUTF8 → a = b

/-- The key of a source that is run with so many bindings. -/
def keyOf (x : String × Nat) : Key := ⟨Blake2b.digest x.1.toUTF8, x.2⟩

theorem eq_of_keyOf (hS : Distinguishes S) {x : String × Nat} (hx : S x.1) (hsrc : S src)
    (h : keyOf x = e.key src) : x = (src, e.table.version) := by
  simp only [keyOf, key, Key.mk.injEq] at h
  exact Prod.ext (hS x.1 src hx hsrc h.1) h.2

/-- A program that the engine keeps is what a source from `S` assembles to, as long as the bindings are
those it was assembled with. -/
def Attests (S : String → Prop) (e : Engine) : Prop :=
  ∀ k, e.kept = some k → ∃ x : String × Nat, S x.1 ∧ k.key = keyOf x ∧ x.2 ≤ e.table.version ∧
    (x.2 = e.table.version → Assembler.assemble x.1 e.table.symbols = .ok k.program)

theorem attests_of_kept_eq_none (hk : e.kept = none) : Attests S e :=
  fun _ hk' => absurd (hk.symm.trans hk') nofun

/-- A kept program that is found for a source is what the source assembles to. -/
theorem Attests.of_lookup (hS : Distinguishes S) (h : Attests S e) (hsrc : S src)
    (hk : e.lookup src = some k) : Assembler.assemble src e.table.symbols = .ok k.program := by
  obtain ⟨hkept, hkey⟩ := Option.filter_eq_some_iff.mp hk
  obtain ⟨x, hx, hkey', -, hp⟩ := h k hkept
  obtain rfl := eq_of_keyOf hS hx hsrc (hkey'.symm.trans (of_decide_eq_true hkey))
  exact hp rfl

theorem Attests.rename (h : Attests S e) (hkept : e'.kept = e.kept)
    (hnames : e.table.SameNames e'.table) : Attests S e' := by
  intro k hk
  obtain ⟨x, hx, hkey, hle, hp⟩ := h k (hkept ▸ hk)
  rw [hnames.version_eq, hnames.symbols_eq]
  exact ⟨x, hx, hkey, hle, hp⟩

theorem Attests.grow (h : Attests S e) (hkept : e'.kept = e.kept)
    (hlt : e.table.version < e'.table.version) : Attests S e' := by
  intro k hk
  obtain ⟨x, hx, hkey, hle, -⟩ := h k (hkept ▸ hk)
  exact ⟨x, hx, hkey, Nat.le_of_lt (Nat.lt_of_le_of_lt hle hlt),
    fun hv => absurd hle (Nat.not_le.mpr (hv ▸ hlt))⟩

theorem Attests.serve (h : Attests S e) (r : Binding.Request) :
    Attests S { e with table := (e.table.serve r).2 } := by
  rcases e.table.sameNames_serve r with hnames | hlt
  · exact h.rename rfl hnames
  · exact h.grow rfl hlt

/-! ### What keeps programs attested -/

theorem attests_onWorld {α : Type} (f : EStateM Binding.Stop World α) :
    Preserves (Attests S) (onWorld f) := by
  intro e h
  unfold onWorld
  cases f e.world <;> exact h

theorem attests_activate : Preserves (Attests S) activate := by
  intro e h
  rw [activate_eq]
  cases ha : e.table.activate e.world with
  | ok t w =>
    obtain rfl := table_activate ha
    exact h
  | error s w => exact h

theorem attests_deactivate : Preserves (Attests S) deactivate := by
  intro e h
  rw [deactivate_eq]
  cases e.table.inactive.deactivate e.world <;> exact h

theorem attests_load (hsrc : S src) : Preserves (Attests S) (load src) := by
  intro e h
  cases hk : e.lookup src with
  | some k =>
    rw [load_of_some hk]
    exact h
  | none =>
    rw [load_of_none hk]
    rcases build_cases src e with ⟨x, sinks, hx⟩ | ⟨p, m, s, sinks, hp, -, hx⟩
    · rw [hx]
      exact h
    · rw [hx]
      intro k hk
      change (if e.options.reexecute then some ⟨e.key src, p, m⟩ else e.kept) = some k at hk
      split at hk
      · cases hk
        exact ⟨(src, e.table.version), hsrc, rfl, Nat.le_refl _, fun _ => hp⟩
      · exact h k hk

/-- A run gives the kept program another memory, no more. -/
theorem attests_process (p : Program) (m : Memory) (patience : Patience) :
    Preserves (Attests S) (process p m patience) := by
  intro e h
  unfold process
  generalize e.processor.process ⟨p, some e.table.link⟩ patience e.world m e.trace = r
  have hkept : Attests S { e with
      world := r.1.world, trace := r.1.trace, processor := r.2, stats.counts := r.1.stats,
      kept := e.kept.map fun k => { k with memory := r.1.memory } } := by
    intro k hk
    obtain ⟨k', hk', rfl⟩ := Option.map_eq_some_iff.mp hk
    exact h k' hk'
  simp only
  split <;> exact hkept

theorem attests_cellAt (m : Memory) (x : Operand) : Preserves (Attests S) (cellAt m x) := by
  intro e h
  unfold cellAt
  split <;> exact h

theorem attests_finish (p : Program) (m : Memory) (hit : Bool) (patience : Patience) :
    Preserves (Attests S) (finish p m hit patience) := by
  have hnote : ∀ text, Preserves (Attests S) (note text) := fun _ _ h => h
  have hcount : Preserves (Attests S) (modify fun e : Engine =>
      { e with stats := { cacheHit := hit, runs := e.stats.runs + 1 } } : Action Unit) :=
    fun _ h => h
  unfold finish
  refine hcount.bind fun _ => Preserves.get.bind fun _ => (hnote _).bind fun _ =>
    (attests_process p m patience).bind fun _ => Preserves.get.bind fun _ => (hnote _).bind fun _ =>
    Preserves.get.bind fun _ => (attests_onWorld _).bind fun _ => ?_
  split
  · exact .pure _
  · exact (attests_cellAt _ _).bind fun _ => .pure _

theorem attests_perform (hsrc : S src) (patience : Patience) :
    Preserves (Attests S) (perform src patience) := by
  rw [perform_eq]
  exact (attests_load hsrc).bind fun x => attests_finish x.1 x.2.1 x.2.2 patience

theorem attests_exec (hsrc : S src) (patience : Patience) :
    Preserves (Attests S) (exec src patience) := by
  intro e h
  have hrun : Attests S (finalState (withBindings (perform src patience) e)) := by
    have hopened := attests_activate.opened e h
    cases ho : opened e with
    | error x e₁ =>
      rw [ho] at hopened
      rw [withBindings_eq, ho]
      exact hopened
    | ok u e₁ =>
      rw [ho] at hopened
      exact finalState_withBindings ho attests_deactivate (attests_perform hsrc patience e₁ hopened)
  unfold exec
  split
  · exact h
  · cases hx : withBindings (perform src patience) e with
    | ok r e' =>
      rw [hx] at hrun
      exact hrun
    | error x e' => exact attests_of_kept_eq_none rfl

theorem sameNames_opened (ho : opened e = .ok () e₁) : e.table.SameNames e₁.table := by
  unfold opened at ho
  split at ho
  · rw [activate_eq] at ho
    cases ha : e.table.activate e.world with
    | ok t w =>
      rw [ha] at ho
      cases ho
      obtain rfl := table_activate ha
      exact ⟨rfl, rfl, rfl⟩
    | error s w =>
      rw [ha] at ho
      cases ho
  · cases ho
    exact ⟨rfl, rfl, rfl⟩

/-- A run that gets to its processor runs what its source assembles to with the current bindings. -/
theorem Attests.assembled (hS : Distinguishes S) (h : Attests S e) (hsrc : S src)
    (hl : Loads e src e₁ p m hit e₂) : Assembler.assemble src e.table.symbols = .ok p := by
  have hattests : Attests S e₁ := by
    have hopened := attests_activate.opened e h
    rwa [hl.opened_eq] at hopened
  have hload := hl.load_eq
  rw [← (sameNames_opened hl.opened_eq).symbols_eq]
  cases hk : e₁.lookup src with
  | some k =>
    rw [load_of_some hk] at hload
    cases hload
    exact hattests.of_lookup hS hsrc hk
  | none =>
    rw [load_of_none hk] at hload
    rcases build_cases src e₁ with ⟨x, sinks, hx⟩ | ⟨p', m', s, sinks, hp, -, hx⟩
    · rw [hx] at hload
      cases hload
    · rw [hx] at hload
      cases hload
      exact hp

/-! ### Pasts -/

/-- What an engine goes through that runs sources from `S`, with whatever host code. -/
inductive Past (S : String → Prop) : Engine → Prop
  | new {e : Engine} : e.kept = none → Past S e
  | exec {e : Engine} {src : String} (patience : Patience) :
      Past S e → S src → Past S (finalState (exec src patience e))
  | bind {e : Engine} (r : Binding.Request) :
      Past S e → Past S { e with table := (e.table.serve r).2 }
  | host {e : Engine} (w : World) : Past S e → Past S { e with world := w }
  | activate {e : Engine} : Past S e → Past S (finalState (activate e))
  | deactivate {e : Engine} : Past S e → Past S (finalState (deactivate e))

theorem Past.attests (h : Past S e) : Attests S e := by
  induction h with
  | new hk => exact attests_of_kept_eq_none hk
  | exec patience _ hsrc ih => exact attests_exec hsrc patience _ ih
  | bind r _ ih => exact ih.serve r
  | host w _ ih => exact ih
  | activate _ ih => exact attests_activate _ ih
  | deactivate _ ih => exact attests_deactivate _ ih

end Engine

end VectorMachine
