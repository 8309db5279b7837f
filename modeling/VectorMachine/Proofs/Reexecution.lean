import VectorMachine.Proofs.Bindings
import VectorMachine.Proofs.Engine.Loading

/-!
# Keeping programs shows only where a run looks at what it has not assigned

An engine that keeps the program and the memory of its last run answers all that the host asks of it
like one that keeps nothing, if the runs that find a kept memory assign its locals and registers before
they look at them.  A run that does not can tell the two apart: an allocation keeps what an earlier run
has left.
-/

namespace VectorMachine
set_option autoImplicit false

open Store (Pairing Matches)
open Binding (HostAction Table)

theorem World.Mates.argument_eq {base : Nat} {R : Pairing} {w w' : World} {c c' : CellId}
    (h : World.Mates base R w w') (hc : R c c') : w.argument c = w'.argument c' := by
  have halike := h.store.alike hc
  rw [World.argument, World.argument, halike.shape_eq, halike.elements_eq]

namespace Binding

/-- Requests for fair bindings to containers of the host. -/
def Request.Fair (base : Nat) : Request → Prop
  | .addVariable v => v.Fair base
  | .addFunction f => f.Fair base
  | .set _ c => c < base

theorem Table.Fair.serve {base : Nat} {t : Table} {r : Request} (h : t.Fair base)
    (hr : r.Fair base) : (t.serve r).2.Fair base := by
  rcases serve_cases t r with ht | ⟨v, i, rfl, ht⟩ | ⟨f, i, rfl, ht⟩ | ⟨name, c, rfl, ht⟩
  · rw [ht]
    exact h
  · exact h.addVariable hr ht
  · exact h.addFunction hr ht
  · exact h.set hr ht

end Binding

namespace Engine

variable {S : String → Prop} {base : Nat} {R : Pairing} {x y x' y' e e' : Engine} {src : String}
  {last last' : Option (String × Nat)} {patience : Patience}

/-! ### Runs -/

theorem Attuned.opened (h : Attuned base R x y) :
    SameOutcome (Attuned base R) (Partners base R) (opened x) (opened y) := by
  unfold Engine.opened
  rw [h.options, h.table]
  split
  · exact (blind_activate_attuned x y h).imp (fun _ _ => id) fun _ _ h => h.toPartners
  · exact .ok h

theorem known_forgotten {c : CellId} (hc : c < e.world.store.cells.size) :
    Known { e with kept := none } c :=
  ⟨hc, by simp⟩

theorem Partners.forgotten (h : Partners base R x y) :
    Attuned base R { x with kept := none } { y with kept := none } :=
  ⟨⟨h.options, h.table, h.sinks, h.sinks', h.fair, h.worlds⟩, by simp⟩

/-- A run does not take containers that the host knows for a memory. -/
theorem Recorded.known_exec (h : Recorded S last e) (hr : e.table.Reaches e.Known) (src : String)
    (patience : Patience) {c : CellId} (hc : e.Known c) :
    (finalState (Engine.exec src patience e)).Known c := by
  by_cases hadmits : e.Admits
  · rw [exec_of_admits hadmits]
    rcases withBindings_perform h.before hr h.reexecute src patience with
      ⟨hb, ⟨a, e', he⟩, -⟩ | ⟨e₁, p, m, hit, e₂, -, hd⟩
    · rw [he] at hb ⊢
      exact known_forgotten (hb.steady.lt c hc)
    · cases he : withBindings (perform src patience) e with
      | ok a e' =>
        rw [he] at hd
        obtain ⟨m', hm, hkept⟩ := hd.loaded
        refine ⟨hd.steady.lt c hc, fun k hk => ?_⟩
        change e'.kept = some k at hk
        change e'.kept = _ at hkept
        rw [hkept] at hk
        split at hk <;> cases hk
        exact hm.unknown c hc
      | error a e' =>
        rw [he] at hd
        exact known_forgotten (hd.steady.lt c hc)
  · rw [exec_of_not_admits hadmits]
    exact hc

/-- Partners between runs: what they keep belongs to their last runs, and none of the containers of the
host to a kept memory. -/
structure Abreast (S : String → Prop) (base : Nat) (x y : Engine) : Prop
    extends Attuned base nowhere x y where
  record : ∃ last, Recorded S last x
  record' : ∃ last, Recorded S last y
  known : ∀ c < base, x.Known c
  known' : ∀ c < base, y.Known c

/-- A run of the source that gets to its processor can do with a kept memory. -/
def Favours (e : Engine) (src : String) (patience : Patience) : Prop :=
  ∀ e₁ p m hit e₂, Loads e src e₁ p m hit e₂ → Favourable patience p m hit e₂

theorem Abreast.perform (h : Abreast S base x y) (hS : Distinguishes S) (hsrc : S src)
    (hok : y.Favours src patience) :
    Jointly (Shows base) (Partners base nowhere) (withBindings (perform src patience) x)
      (withBindings (perform src patience) y) := by
  obtain ⟨last, hx⟩ := h.record
  obtain ⟨last', hy⟩ := h.record'
  have hreach : x.table.Reaches x.Known := by
    rw [h.table]
    exact h.fair.reaches h.known
  have hreach' := h.fair.reaches h.known'
  have hopened := h.opened
  rw [withBindings_eq, withBindings_eq, h.options, h.table]
  cases ho : opened x <;> cases ho' : opened y <;> rw [ho, ho'] at hopened <;> cases hopened
  · rename_i x₁ y₁ hattuned
    have hb := hx.opened hreach ho
    have hb' := hy.opened hreach' ho'
    have hrec' := hy.of_before hb'
    have hnone : x₁.kept = none := (hx.of_before hb).kept_eq_none (by rw [hattuned.options])
    have hwaiting : Waiting base x y x₁ y₁ :=
      ⟨hattuned, hb, hb', h.known, h.known', hnone, hrec'.reexecute⟩
    have hasm : ∀ k, y₁.lookup src = some k →
        Assembler.assemble src y₁.table.symbols = .ok k.program := fun k hk =>
      hrec'.attests.of_lookup hS hsrc hk
    have hload := hwaiting.load hasm fun p m hit y₂ hl => hok y₁ p m hit y₂ ⟨ho', hl⟩
    have hrun : Jointly (Shows base) (Partners base nowhere) (Engine.perform src patience x₁)
        (Engine.perform src patience y₁) := by
      rw [perform_eq]
      refine hload.bind fun r r' x₂ y₂ hr => ?_
      obtain ⟨hp, hprimed⟩ := hr
      rw [← hp]
      exact hprimed.finish _ _
    simp only
    split
    · exact jointly_thenDeactivate hrun
    · exact hrun
  · exact ⟨rfl, ‹_›⟩

theorem Abreast.admits_iff (h : Abreast S base x y) : x.Admits ↔ y.Admits := by
  rw [Admits, Admits, h.options, h.table]

/-- Partners run a source alike. -/
theorem Abreast.exec (h : Abreast S base x y) (hS : Distinguishes S) (hsrc : S src)
    (hok : y.Favours src patience) :
    Jointly (Shows base) (Attuned base nowhere) (Engine.exec src patience x)
      (Engine.exec src patience y) := by
  by_cases hadmits : y.Admits
  · have hrun := h.perform hS hsrc hok
    rw [exec_of_admits hadmits, exec_of_admits (h.admits_iff.mpr hadmits)]
    cases hx : withBindings (Engine.perform src patience) x <;>
      cases hy : withBindings (Engine.perform src patience) y <;> rw [hx, hy] at hrun
    · exact hrun
    · exact hrun.elim
    · exact hrun.elim
    · obtain ⟨rfl, hp⟩ := hrun
      exact ⟨rfl, hp.forgotten⟩
  · rw [exec_of_not_admits hadmits, exec_of_not_admits (mt h.admits_iff.mp hadmits)]
    exact ⟨rfl, h.toAttuned⟩

/-! ### Events -/

/-- What a host does with an engine. -/
inductive Event where
  | exec (src : String) (patience : Patience)
  | bind (r : Binding.Request)
  | activate
  | deactivate
  | host (f : HostAction)

/-- The cell of a result, if the event has one. -/
def Event.handle : Event → Action (Option CellId)
  | .exec src patience => Engine.exec src patience
  | .bind r => fun e =>
    match (e.table.serve r).1 with
    | .ok _ => .ok none { e with table := (e.table.serve r).2 }
    | .error a => .error (.binding a) { e with table := (e.table.serve r).2 }
  | .activate => do Engine.activate; return none
  | .deactivate => do Engine.deactivate; return none
  | .host f => fun e => .ok none { e with world := finalState (f e.world) }

/-- What the host sees after an event: what a result holds or the error, and what the globals hold. -/
structure Answer where
  result : Except Error (Option Argument)
  globals : Array Argument

def answerOf : EStateM.Result Error Engine (Option CellId) → Answer
  | .ok c e => ⟨.ok (c.map e.world.argument), e.table.globals.map e.world.argument⟩
  | .error a e => ⟨.error a, e.table.globals.map e.world.argument⟩

def answers : List Event → Engine → List Answer
  | [], _ => []
  | x :: xs, e => answerOf (x.handle e) :: answers xs (finalState (x.handle e))

/-- Events of a host that runs sources from `S` and has fair code and containers of its own only. -/
def Event.Fair (S : String → Prop) (base : Nat) : Event → Prop
  | .exec src _ => S src
  | .bind r => r.Fair base
  | .activate | .deactivate => True
  | .host f => f.Fair base []

/-- A run, if the event is one, can do with a kept memory. -/
def Event.Favoured (e : Engine) : Event → Prop
  | .exec src patience => e.Favours src patience
  | _ => True

/-- All runs can do with kept memories. -/
def Favoured : List Event → Engine → Prop
  | [], _ => True
  | x :: xs, e => x.Favoured e ∧ Favoured xs (finalState (x.handle e))

/-! ### Partners answer alike -/

theorem Partners.globals_eq (h : Partners base R x y) :
    x.table.globals.map x.world.argument = y.table.globals.map y.world.argument := by
  obtain ⟨R', -, hw⟩ := h.worlds
  rw [h.table]
  exact Array.map_congr_left fun c hc => hw.argument_eq (hw.host c (h.fair.bound c hc))

/-- What a step of partners comes to. -/
abbrev StepsAlike (S : String → Prop) (base : Nat) :
    EStateM.Result Error Engine (Option CellId) → EStateM.Result Error Engine (Option CellId) → Prop :=
  Jointly (fun a a' x y => Shows base a a' x y ∧ Abreast S base x y) (Abreast S base)

theorem StepsAlike.answerOf_eq {r r' : EStateM.Result Error Engine (Option CellId)}
    (h : StepsAlike S base r r') : answerOf r = answerOf r' := by
  cases r <;> cases r'
  · obtain ⟨⟨R, hc, ha⟩, -⟩ := h
    obtain ⟨R', hle, hw⟩ := ha.worlds
    rw [answerOf, answerOf, ha.globals_eq]
    cases hc with
    | none => rfl
    | some hc =>
      rw [Option.map_some, Option.map_some, hw.argument_eq (hle _ _ hc)]
  · exact h.elim
  · exact h.elim
  · obtain ⟨rfl, h⟩ := h
    rw [answerOf, answerOf, h.globals_eq]

theorem StepsAlike.abreast {r r' : EStateM.Result Error Engine (Option CellId)}
    (h : StepsAlike S base r r') : Abreast S base (finalState r) (finalState r') := by
  cases r <;> cases r'
  · exact h.2
  · exact h.elim
  · exact h.elim
  · exact h.2

theorem stepsAlike_of_jointly {r r' : EStateM.Result Error Engine (Option CellId)}
    (h : Jointly (Shows base) (Attuned base nowhere) r r')
    (hrec : ∃ last, Recorded S last (finalState r))
    (hrec' : ∃ last, Recorded S last (finalState r'))
    (hk : ∀ c < base, (finalState r).Known c) (hk' : ∀ c < base, (finalState r').Known c) :
    StepsAlike S base r r' := by
  cases r <;> cases r'
  · obtain ⟨R, hc, ha⟩ := h
    exact ⟨⟨R, hc, ha⟩, ⟨ha.toPartners.mono fun _ _ => False.elim, ha.tuned⟩, hrec, hrec', hk, hk'⟩
  · exact h.elim
  · exact h.elim
  · exact ⟨h.1, h.2, hrec, hrec', hk, hk'⟩

/-- What host code does to partners between runs. -/
theorem Abreast.of_before (h : Abreast S base x y) (ha : Attuned base nowhere x' y')
    (hx : Before x x') (hy : Before y y') : Abreast S base x' y' := by
  obtain ⟨last, hrec⟩ := h.record
  obtain ⟨last', hrec'⟩ := h.record'
  have hknown : ∀ {e e' : Engine}, Before e e' → ∀ c, e.Known c → e'.Known c :=
    fun hb c hc => ⟨hb.steady.lt c hc, fun k hk => hc.2 k (hb.kept ▸ hk)⟩
  exact ⟨ha, ⟨last, hrec.of_before hx⟩, ⟨last', hrec'.of_before hy⟩,
    fun c hc => hknown hx c (h.known c hc), fun c hc => hknown hy c (h.known' c hc)⟩

theorem Abreast.reaches (h : Abreast S base x y) :
    x.table.Reaches x.Known ∧ y.table.Reaches y.Known := by
  constructor
  · rw [h.table]
    exact h.fair.reaches h.known
  · exact h.fair.reaches h.known'

/-- Host code that keeps partners attuned keeps them abreast. -/
theorem Abreast.coupled {f : Action Unit} (h : Abreast S base x y)
    (hf : Blind (Attuned base nowhere) f) (hx : Preserves (Before x) f)
    (hy : Preserves (Before y) f) :
    StepsAlike S base ((do f; return none : Action (Option CellId)) x)
      ((do f; return none : Action (Option CellId)) y) := by
  obtain ⟨last, hrec⟩ := h.record
  obtain ⟨last', hrec'⟩ := h.record'
  have hdo := hf x y h.toAttuned
  have hbx := hx x hrec.before
  have hby := hy y hrec'.before
  simp only [bind, EStateM.bind]
  cases h₁ : f x <;> cases h₂ : f y <;> rw [h₁] at hdo hbx <;> rw [h₂] at hdo hby <;> cases hdo
  · exact ⟨⟨nowhere, .none, ‹_›⟩, h.of_before ‹_› hbx hby⟩
  · exact ⟨rfl, h.of_before ‹_› hbx hby⟩

theorem Abreast.host {f : HostAction} (h : Abreast S base x y) (hf : f.Fair base []) :
    StepsAlike S base ((Event.host f).handle x) ((Event.host f).handle y) := by
  obtain ⟨last, hrec⟩ := h.record
  obtain ⟨last', hrec'⟩ := h.record'
  have hmoves : ∀ {e : Engine}, (∀ c < base, e.Known c) →
      HostMoves e.Known e.world (finalState (f e.world)) := fun hk C hC hw =>
    hf.reaches C _ (fun c hc => hC c (hk c hc)) hw (by simp)
  have hmoves' : HostMoves (· < base) y.world (finalState (f y.world)) := fun C hC hw =>
    hf.reaches C _ hC hw (by simp)
  have hworlds : World.Mated base nowhere (finalState (f x.world)) (finalState (f y.world)) := by
    have hdo := hf.impartial nowhere x.world y.world h.worlds
    generalize f x.world = r, f y.world = r' at hdo ⊢
    cases hdo <;> assumption
  have ha : Attuned base nowhere { x with world := finalState (f x.world) }
      { y with world := finalState (f y.world) } :=
    ⟨⟨h.options, h.table, h.sinks, h.sinks', h.fair, hworlds⟩,
      fun k hk => (h.tuned k hk).host hmoves'⟩
  exact ⟨⟨nowhere, .none, ha⟩, h.of_before ha (hrec.before.host (hmoves h.known))
    (hrec'.before.host (hmoves h.known'))⟩

theorem Recorded.serve {r : Binding.Request} (h : Recorded S last e) (hr : r.Fair base)
    (hk : ∀ c < base, e.Known c) : Recorded S last { e with table := (e.table.serve r).2 } := by
  rcases Binding.serve_cases e.table r with
    ht | ⟨v, i, rfl, ht⟩ | ⟨f, i, rfl, ht⟩ | ⟨name, c, rfl, ht⟩
  · rw [ht]
    exact h
  · exact h.addVariable (hk _ hr.bound) ht
  · exact h.addFunction ht
  · exact h.set (hk c hr) ht

theorem Abreast.bind {r : Binding.Request} (h : Abreast S base x y) (hr : r.Fair base) :
    StepsAlike S base ((Event.bind r).handle x) ((Event.bind r).handle y) := by
  obtain ⟨last, hrec⟩ := h.record
  obtain ⟨last', hrec'⟩ := h.record'
  have hserve : x.table.serve r = y.table.serve r := by rw [h.table]
  have ha : Attuned base nowhere { x with table := (x.table.serve r).2 }
      { y with table := (y.table.serve r).2 } :=
    ⟨⟨h.options, by rw [hserve], h.sinks, h.sinks', h.fair.serve hr, h.worlds⟩,
      fun k hk => (h.tuned k hk).congr rfl rfl rfl⟩
  have hnext : Abreast S base _ _ := ⟨ha, ⟨last, hrec.serve hr h.known⟩,
    ⟨last', hrec'.serve hr h.known'⟩, h.known, h.known'⟩
  simp only [Event.handle]
  rw [hserve] at ha hnext ⊢
  cases (y.table.serve r).1 with
  | ok i => exact ⟨⟨nowhere, .none, ha⟩, hnext⟩
  | error a => exact ⟨rfl, hnext⟩

theorem Abreast.handle (hS : Distinguishes S) {a : Event} (h : Abreast S base x y)
    (ha : a.Fair S base) (hok : a.Favoured y) :
    StepsAlike S base (a.handle x) (a.handle y) := by
  obtain ⟨last, hrec⟩ := h.record
  obtain ⟨last', hrec'⟩ := h.record'
  obtain ⟨hreach, hreach'⟩ := h.reaches
  cases a with
  | exec src patience =>
    exact stepsAlike_of_jointly (h.exec hS ha hok)
      ⟨_, hrec.exec ha hreach patience⟩ ⟨_, hrec'.exec ha hreach' patience⟩
      (fun c hc => hrec.known_exec hreach src patience (h.known c hc))
      fun c hc => hrec'.known_exec hreach' src patience (h.known' c hc)
  | bind r => exact h.bind ha
  | activate =>
    exact h.coupled blind_activate_attuned
      (preserves_activate hostly_before fun _ hb => hb.reaches hreach)
      (preserves_activate hostly_before fun _ hb => hb.reaches hreach')
  | deactivate =>
    exact h.coupled blind_deactivate_attuned
      (preserves_deactivate hostly_before fun _ hb => hb.reaches hreach)
      (preserves_deactivate hostly_before fun _ hb => hb.reaches hreach')
  | host f => exact h.host ha

/-- The host sees no difference between partners. -/
theorem Abreast.answers_eq (hS : Distinguishes S) {xs : List Event} (h : Abreast S base x y)
    (hxs : ∀ a ∈ xs, a.Fair S base) (hok : Favoured xs y) : answers xs x = answers xs y := by
  induction xs generalizing x y with
  | nil => rfl
  | cons a xs ih =>
    rw [List.forall_mem_cons] at hxs
    have hstep : StepsAlike S base (a.handle x) (a.handle y) := h.handle hS hxs.1 hok.1
    rw [answers, answers, hstep.answerOf_eq, ih hstep.abreast hxs.2 hok.2]

/-! ### Keeping programs -/

/-- The engine with its options changed so that it keeps nothing. -/
def forgetful (e : Engine) : Engine := { e with options := { e.options with reexecute := false } }

theorem New.abreast (h : e.New) (hbase : base ≤ e.world.store.cells.size)
    (hsinks : ∀ s ∈ e.sinks, s.Obliging) (hfair : e.table.Fair base) :
    Abreast S base e.forgetful e := by
  have hnew : e.forgetful.New := ⟨h.kept, h.processor, h.sound, h.bound⟩
  have hworlds : World.Mates base (fun c c' => c = c' ∧ c < e.world.store.cells.size) e.world
      e.world :=
    ⟨.refl False h.sound, rfl, fun c hc => ⟨rfl, Nat.lt_of_lt_of_le hc hbase⟩⟩
  have hknown : ∀ c < base, e.Known c := fun c hc =>
    ⟨Nat.lt_of_lt_of_le hc hbase, by simp [h.kept]⟩
  exact ⟨⟨⟨rfl, rfl, hsinks, hsinks, hfair, _, fun _ _ => False.elim, hworlds⟩, by simp [h.kept]⟩,
    ⟨none, hnew.recorded⟩, ⟨none, h.recorded⟩, hknown, hknown⟩

/-- A new engine gives the same answers as one that keeps nothing, whatever its host does with it, if
the programs that it keeps run as well on used memories. -/
theorem reexecution_transparent (hS : Distinguishes S) (h : e.New)
    (hbase : base ≤ e.world.store.cells.size) (hsinks : ∀ s ∈ e.sinks, s.Obliging)
    (hfair : e.table.Fair base) {xs : List Event} (hxs : ∀ a ∈ xs, a.Fair S base)
    (hok : Favoured xs e) : answers xs e.forgetful = answers xs e :=
  (h.abreast hbase hsinks hfair).answers_eq hS hxs hok

theorem favours_iff : e.Favours src patience ↔
    ∀ r ∈ loading? e src, Favourable patience r.program r.memory r.hit r.after :=
  ⟨fun h _ hr => h _ _ _ _ _ (loading?_eq_some_iff.mp hr),
    fun h e₁ p m hit e₂ hl => h ⟨e₁, p, m, hit, e₂⟩ (loading?_eq_some_iff.mpr hl)⟩

instance : Decidable (e.Favours src patience) := decidable_of_iff _ favours_iff.symm

instance : (a : Event) → Decidable (a.Favoured e)
  | .exec src patience => inferInstanceAs (Decidable (e.Favours src patience))
  | .bind _ | .activate | .deactivate | .host _ => inferInstanceAs (Decidable True)

instance decidableFavoured : (xs : List Event) → (e : Engine) → Decidable (Favoured xs e)
  | [], _ => inferInstanceAs (Decidable True)
  | x :: xs, e =>
    have := decidableFavoured xs (finalState (x.handle e))
    inferInstanceAs (Decidable (x.Favoured e ∧ Favoured xs (finalState (x.handle e))))

/-- The result of an event if it is a single integer. -/
def Answer.int? (a : Answer) : Option Int64 :=
  match a.result with
  | .ok (some (_, [.int v])) => some v
  | _ => none

/-- An engine with the variable `n`, bound to the first of two containers of the host. -/
def squaring : Engine :=
  { table := { vars := #[{ name := "n", cell := 0 }], varIndex := [("n", 0)], version := 1 }
    world := { store := ((({} : Store).ofScalar (.int 3)).2.ofScalar (.int 4)).2 } }

/-- The second of two runs that square a variable finds the memory of the first, and the variable bound
to another container. -/
theorem reexecution_transparent_squaring :
    let src := "MUL int R0 G0 G0; END int - R0;"
    let xs : List Event :=
      [.exec src ⟨1, .canceled⟩, .bind (.set "n" 1), .exec src ⟨1, .canceled⟩]
    (xs.foldl (fun e x => finalState (x.handle e)) squaring).stats.cacheHit = true ∧
      (answers xs squaring).map Answer.int? = [some 9, none, some 16] ∧
        answers xs squaring.forgetful = answers xs squaring := by
  intro src xs
  have hS : Distinguishes (· = src) := fun a b ha hb _ => ha.trans hb.symm
  have hs : squaring.world.store.Sound :=
    (Store.Touches.ofScalar (C := fun _ => True) Store.region_true _).sound
      ((Store.Touches.ofScalar (C := fun _ => True) Store.region_true _).sound Store.sound_empty)
  have hbound : ∀ c ∈ squaring.table.globals, c < 2 := by decide +kernel
  have hnew : squaring.New := ⟨rfl, rfl, hs, hbound⟩
  have hfair : squaring.table.Fair 2 := by
    refine ⟨fun v hv => ?_, by simp [squaring]⟩
    obtain rfl : v = { name := "n", cell := 0 } := by simpa [squaring] using hv
    exact ⟨by decide, by simp, by simp, by simp⟩
  have hxs : ∀ a ∈ xs, a.Fair (· = src) 2 := by
    simp [xs, Event.Fair, Binding.Request.Fair]
  have hok : Favoured xs squaring := by decide +kernel
  exact ⟨by decide +kernel, by decide +kernel,
    reexecution_transparent hS hnew (by decide +kernel) (by simp [squaring]) hfair hxs hok⟩

/-- A run that allocates a local and increments it finds what the run before has left. -/
theorem reexecution_shows_leftovers :
    let src := "ALLOC int L0; ADD int L0 L0 ~int:1; END int - L0;"
    let xs : List Event := [.exec src ⟨1, .canceled⟩, .exec src ⟨1, .canceled⟩]
    (answers xs {}).map Answer.int? = [some 1, some 2] ∧
      (answers xs (forgetful {})).map Answer.int? = [some 1, some 1] ∧
        answers xs (forgetful {}) ≠ answers xs {} := by
  intro src xs
  have hkept : (answers xs {}).map Answer.int? = [some 1, some 2] := by decide +kernel
  have hnew : (answers xs (forgetful {})).map Answer.int? = [some 1, some 1] := by decide +kernel
  refine ⟨hkept, hnew, fun heq => ?_⟩
  rw [heq, hkept] at hnew
  exact absurd hnew (by decide)

end Engine

end VectorMachine
