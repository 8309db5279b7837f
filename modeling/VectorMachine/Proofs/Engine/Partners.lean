import VectorMachine.Proofs.Engine.History
import VectorMachine.Proofs.Engine.Processing

/-!
# Two engines with the same bindings

One of two partners may keep programs, the other does not.  They have the same bindings, to containers
of the host with the same identities, and these show the same.  Fair code of the host does the same for
both.
-/

namespace VectorMachine
set_option autoImplicit false

open Store (Pairing Matches)
open Binding (Table)

/-! ### Sinks that never refuse -/

namespace Sink

/-- A sink that takes all that it is given. -/
structure Obliging (s : Sink) : Prop where
  writes : ∀ c text, (s.onWrite c text).1 = .ok text.utf8ByteSize
  flushes : ∀ c, (s.onFlush c).1 = .ok ()

variable {sinks : List Sink}

theorem obliging_written (h : ∀ s ∈ sinks, s.Obliging) (text : String) :
    ∀ x ∈ sinks.map (·.write text), x.1 = .ok text.utf8ByteSize ∧ x.2.Obliging := by
  intro x hx
  obtain ⟨s, hs, rfl⟩ := List.mem_map.mp hx
  exact ⟨(h s hs).writes s.content text, (h s hs).writes, (h s hs).flushes⟩

theorem writeAll_obliging (h : ∀ s ∈ sinks, s.Obliging) (text : String) :
    ∃ sinks', writeAll sinks text = (.ok text.utf8ByteSize, sinks') ∧
      ∀ s ∈ sinks', s.Obliging := by
  have hwritten := obliging_written h text
  unfold writeAll
  split
  · rename_i s
    obtain ⟨hok, hs⟩ := hwritten (s.write text) (by simp)
    exact ⟨[(s.write text).2], by rw [← hok], by simpa using hs⟩
  · refine ⟨(sinks.map (·.write text)).map (·.2), ?_, fun s hs => ?_⟩
    · dsimp only
      rw [List.findSome?_eq_none_iff.mpr]
      rintro ⟨r, s⟩ hx
      obtain rfl : r = .ok text.utf8ByteSize := (hwritten _ hx).1
      exact if_pos rfl
    · obtain ⟨x, hx, rfl⟩ := List.mem_map.mp hs
      exact (hwritten x hx).2

theorem writePieces_obliging (h : ∀ s ∈ sinks, s.Obliging) (pieces : List String) :
    ∃ sinks', writePieces sinks pieces = (.ok (), sinks') ∧ ∀ s ∈ sinks', s.Obliging := by
  induction pieces generalizing sinks with
  | nil => exact ⟨sinks, rfl, h⟩
  | cons text pieces ih =>
    obtain ⟨sinks', hw, h'⟩ := writeAll_obliging h text
    obtain ⟨sinks'', hp, h''⟩ := ih h'
    refine ⟨sinks'', ?_, h''⟩
    simp only [writePieces, hw, hp]

theorem flushAll_obliging (h : ∀ s ∈ sinks, s.Obliging) :
    ∃ sinks', flushAll sinks = (.ok (), sinks') ∧ ∀ s ∈ sinks', s.Obliging := by
  have hflushed : ∀ x ∈ sinks.map flush, x.1 = .ok () ∧ x.2.Obliging := by
    intro x hx
    obtain ⟨s, hs, rfl⟩ := List.mem_map.mp hx
    exact ⟨(h s hs).flushes s.content, (h s hs).writes, (h s hs).flushes⟩
  refine ⟨(sinks.map flush).map (·.2), ?_, fun s hs => ?_⟩
  · unfold flushAll
    simp only [Prod.mk.injEq, and_true]
    rw [List.findSome?_eq_none_iff.mpr]
    · rfl
    · rintro ⟨r, s⟩ hx
      obtain rfl : r = .ok () := (hflushed _ hx).1
      rfl
  · obtain ⟨x, hx, rfl⟩ := List.mem_map.mp hs
    exact (hflushed x hx).2

end Sink

namespace Engine

variable {base : Nat} {R : Pairing} {x y e : Engine} {p : Program} {m : Memory} {w w' : World}
  {src : String}

theorem dump_obliging (h : ∀ s ∈ e.sinks, s.Obliging) (p : Program) :
    ∃ sinks, dump p e = .ok () { e with sinks := sinks } ∧ ∀ s ∈ sinks, s.Obliging := by
  unfold dump
  split
  · exact ⟨e.sinks, rfl, h⟩
  · obtain ⟨sinks, hw, h'⟩ := Sink.writePieces_obliging h p.listingPieces
    obtain ⟨sinks', hf, h''⟩ := Sink.flushAll_obliging h'
    exact ⟨sinks', by rw [hw]; simp only [hf], h''⟩

/-- The engine once it has built a program. -/
abbrev built (src : String) (p : Program) (m : Memory) (s : Store) (sinks : List Sink)
    (e : Engine) : Engine :=
  { e with
    world.store := s, sinks := sinks
    kept := if e.options.reexecute then some ⟨e.key src, p, m⟩ else e.kept
    processor := e.processor.forget }

/-! With sinks that take everything, building depends on the assembler and on the allocation. -/

theorem build_of_assemble {a : Assembler.Error}
    (hp : Assembler.assemble src e.table.symbols = .error a) :
    build src e = .error (.assembly a) e := by
  unfold build
  simp only [bind, EStateM.bind, assemble, hp]

theorem build_of_refused {a : AllocationError} (h : ∀ s ∈ e.sinks, s.Obliging)
    (hp : Assembler.assemble src e.table.symbols = .ok p)
    (ha : Memory.allocate e.world.store p.layout e.table.globals = .error a) :
    ∃ sinks, (∀ s ∈ sinks, s.Obliging) ∧
      build src e = .error (.ofAllocation a) { e with sinks := sinks } := by
  obtain ⟨sinks, hd, hs⟩ := dump_obliging h p
  refine ⟨sinks, hs, ?_⟩
  unfold build
  simp only [bind, EStateM.bind, assemble, hp, hd, allocate, ha]

theorem build_of_allocate {s : Store} (h : ∀ s ∈ e.sinks, s.Obliging)
    (hp : Assembler.assemble src e.table.symbols = .ok p)
    (ha : Memory.allocate e.world.store p.layout e.table.globals = .ok (m, s)) :
    ∃ sinks, (∀ s ∈ sinks, s.Obliging) ∧
      build src e = .ok (p, m, false) (built src p m s sinks e) := by
  obtain ⟨sinks, hd, hs⟩ := dump_obliging h p
  refine ⟨sinks, hs, ?_⟩
  unfold build
  simp only [bind, EStateM.bind, assemble, hp, hd, allocate, ha]
  rfl

/-! ### Partners -/

/-- Two engines with the same bindings, of which only the second one may keep programs: containers of
the host, and others that `R` pairs, show the same. -/
structure Partners (base : Nat) (R : Pairing) (x y : Engine) : Prop where
  options : x.options = { y.options with reexecute := false }
  table : x.table = y.table
  sinks : ∀ s ∈ x.sinks, s.Obliging
  sinks' : ∀ s ∈ y.sinks, s.Obliging
  fair : y.table.Fair base
  worlds : World.Mated base R x.world y.world

/-- Partners, of which the second one has a plan for the memory that it keeps. -/
structure Attuned (base : Nat) (R : Pairing) (x y : Engine) : Prop extends Partners base R x y where
  tuned : ∀ k, y.kept = some k → Tuned base y k.program k.memory

/-- No pairs at all. -/
def nowhere : Pairing := fun _ _ => False

/-- Results of partners that show the same. -/
def Shows (base : Nat) (a a' : Option CellId) (x y : Engine) : Prop :=
  ∃ R : Pairing, Option.Rel R a a' ∧ Attuned base R x y

theorem Partners.mono {R' : Pairing} (hle : R.Below R') (h : Partners base R' x y) :
    Partners base R x y :=
  ⟨h.options, h.table, h.sinks, h.sinks', h.fair, h.worlds.mono hle⟩

theorem Partners.base_le (h : Partners base R x y) :
    base ≤ x.world.store.cells.size ∧ base ≤ y.world.store.cells.size := by
  obtain ⟨R', -, hw⟩ := h.worlds
  constructor
  · by_contra hlt
    exact Nat.lt_irrefl _ (hw.store.lt (hw.host _ (Nat.lt_of_not_le hlt))).1
  · by_contra hlt
    exact Nat.lt_irrefl _ (hw.store.lt (hw.host _ (Nat.lt_of_not_le hlt))).2

theorem Partners.reaches (h : Partners base R x y) : y.table.Reaches (· < base) :=
  h.fair.reaches fun _ => id

/-! ### Code of the host -/

theorem Partners.hosted (h : Partners base R x y) (hw : World.Mated base R w w') (active : Bool) :
    Partners base R { x with world := w, table := { y.table with active := active } }
      { y with world := w', table := { y.table with active := active } } :=
  ⟨h.options, rfl, h.sinks, h.sinks', h.fair.mark active, hw⟩

theorem Attuned.hosted (h : Attuned base R x y) (hw : World.Mated base R w w')
    (hm : HostMoves (· < base) y.world w') (active : Bool) :
    Attuned base R { x with world := w, table := { y.table with active := active } }
      { y with world := w', table := { y.table with active := active } } :=
  ⟨h.toPartners.hosted hw active, fun k hk => ((h.tuned k hk).host hm).congr rfl rfl rfl⟩

theorem blind_activate_attuned : Blind (Attuned base R) activate := by
  intro x y h
  have hdo := h.fair.blind_activate x.world y.world h.worlds
  have hm := hostMoves_activate h.reaches
  rw [activate_eq, activate_eq, h.table]
  cases hx : y.table.activate x.world <;> cases hy : y.table.activate y.world <;>
    rw [hx, hy] at hdo <;> rw [hy] at hm <;> cases hdo
  · obtain rfl := table_activate hy
    exact .ok (h.hosted ‹_› hm true)
  · exact .error (h.hosted ‹_› hm y.table.active)

theorem couples_writeBack_attuned : Couples (Attuned base R) (Attuned base R) (Partners base R)
    (do onWorld (← get).table.writeBack) := by
  intro x y h
  change SameOutcome _ _ (onWorld x.table.writeBack x) (onWorld y.table.writeBack y)
  have hdo := h.fair.blind_writeBack x.world y.world h.worlds
  have hm : HostMoves (· < base) y.world (finalState (y.table.writeBack y.world)) :=
    .of_touching (fun _ hC => h.reaches.writeBack hC) fun c hc =>
      ⟨h.fair.bound c hc, Nat.lt_of_lt_of_le (h.fair.bound c hc) h.base_le.2⟩
  unfold onWorld
  rw [h.table]
  cases hx : y.table.writeBack x.world <;> cases hy : y.table.writeBack y.world <;>
    rw [hx, hy] at hdo <;> rw [hy] at hm <;> cases hdo
  · exact .ok (h.hosted ‹_› hm y.table.active)
  · exact .error (h.toPartners.hosted ‹_› y.table.active)

/-- What holds of partners after code of the host holds after they have been deactivated. -/
theorem Partners.deactivated {P : Engine → Engine → Prop} (h : Partners base R x y)
    (hP : ∀ w w', World.Mated base R w w' → HostMoves (· < base) y.world w' →
      P { x with world := w, table := { y.table with active := false } }
        { y with world := w', table := { y.table with active := false } }) :
    SameOutcome P P (deactivate x) (deactivate y) := by
  have hdo := (h.fair.mark false).blind_deactivate x.world y.world h.worlds
  have hm := hostMoves_deactivate h.reaches
  rw [deactivate_eq, deactivate_eq, h.table]
  change SameOutcome _ _ (y.table.inactive.deactivate x.world)
    (y.table.inactive.deactivate y.world) at hdo
  cases hx : y.table.inactive.deactivate x.world <;>
    cases hy : y.table.inactive.deactivate y.world <;> rw [hx, hy] at hdo <;> rw [hy] at hm <;>
    cases hdo
  · exact .ok (hP _ _ ‹_› hm)
  · exact .error (hP _ _ ‹_› hm)

theorem blind_deactivate_partners : Blind (Partners base R) deactivate :=
  fun _ _ h => h.deactivated fun _ _ hw _ => h.hosted hw false

theorem blind_deactivate_attuned : Blind (Attuned base R) deactivate :=
  fun _ _ h => h.deactivated fun _ _ hw hm => h.hosted hw hm false

/-- Partners close their bindings alike after computations that come to the same end. -/
theorem jointly_thenDeactivate {f g : Action (Option CellId)}
    (h : Jointly (Shows base) (Partners base nowhere) (f x) (g y)) :
    Jointly (Shows base) (Partners base nowhere) (thenDeactivate f x) (thenDeactivate g y) := by
  unfold thenDeactivate
  cases hf : f x <;> cases hg : g y <;> rw [hf, hg] at h
  · obtain ⟨R, hcells, ha⟩ := h
    have hd := blind_deactivate_attuned _ _ ha
    simp only
    generalize deactivate _ = r at hd ⊢
    generalize deactivate _ = r' at hd ⊢
    cases hd with
    | ok h => exact ⟨R, hcells, h⟩
    | error h => exact ⟨rfl, h.toPartners.mono fun _ _ => False.elim⟩
  · exact h.elim
  · exact h.elim
  · obtain ⟨rfl, h⟩ := h
    have hd := blind_deactivate_partners _ _ h
    simp only
    generalize deactivate _ = r at hd ⊢
    generalize deactivate _ = r' at hd ⊢
    cases hd with
    | ok h => exact ⟨rfl, h⟩
    | @error d _ _ h => cases d <;> exact ⟨rfl, h⟩

end Engine

end VectorMachine
