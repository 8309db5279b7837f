import VectorMachine.Proofs.Engine.Runs

/-!
# Runs as on a new engine

A run that reuses nothing has the same result as on a new engine with the same options, bindings and
containers, and leaves the same.  Neither the plan of an earlier program, nor the trace or the counts of
earlier runs, have a part in it.
-/

namespace VectorMachine
set_option autoImplicit false

/-- Processors of one kind that have forgotten their plans. -/
theorem Processor.Suits.alike {o : Engine.Options} {proc : Processor} (h : proc.Suits o) :
    proc.forget.Alike o.processor.forget := by
  unfold Engine.Options.processor
  cases proc with
  | interpreter =>
    simp only [Processor.Suits] at h
    simp only [h]
    exact .interpreter
  | accelerator cache plan width =>
    obtain ⟨ha, rfl⟩ := h
    simp only [ha, if_true]
    exact .accelerator _ none width 0

namespace Engine

variable {α : Type} {src : String} {r r' : RunStats} {x y : Engine} {R E : Engine → Engine → Prop}

/-- Engines with the same options, bindings, containers and sinks. -/
structure Agrees (x y : Engine) : Prop where
  options : x.options = y.options
  table : x.table = y.table
  world : x.world = y.world
  sinks : x.sinks = y.sinks

/-- Two engines before they build a program for the source, with the counts of earlier runs. -/
structure Unbuilt (src : String) (r r' : RunStats) (x y : Engine) : Prop extends Agrees x y where
  processor : x.processor.forget.Alike y.processor.forget
  lookup : x.lookup src = none
  lookup' : y.lookup src = none
  kept : x.options.reexecute = false → x.kept = y.kept
  stats : x.stats = r
  stats' : y.stats = r'

/-- Two engines with the same program and memory, if any, that count the same. -/
structure Serves (x y : Engine) : Prop extends Agrees x y where
  processor : x.processor.Alike y.processor
  kept : x.kept = y.kept
  counts : x.stats.counts = y.stats.counts
  cacheHit : x.stats.cacheHit = y.stats.cacheHit

/-- Two engines after a failure, which both have counted or neither. -/
structure Fails (r r' : RunStats) (x y : Engine) : Prop extends Agrees x y where
  stats : (x.stats.counts = y.stats.counts ∧ x.stats.cacheHit = y.stats.cacheHit) ∨
    (x.stats = r ∧ y.stats = r')

theorem Unbuilt.fails (h : Unbuilt src r r' x y) : Fails r r' x y :=
  ⟨h.toAgrees, .inr ⟨h.stats, h.stats'⟩⟩

theorem Serves.fails (h : Serves x y) : Fails r r' x y :=
  ⟨h.toAgrees, .inl ⟨h.counts, h.cacheHit⟩⟩

/-! ### Host code -/

/-- A relation between engines that host code cannot tell apart. -/
structure Shares (R : Engine → Engine → Prop) : Prop where
  agrees : ∀ {x y}, R x y → Agrees x y
  host : ∀ {x y} (w : World), R x y → R { x with world := w } { y with world := w }
  mark : ∀ {x y} (b : Bool), R x y →
    R { x with table := { x.table with active := b } } { y with table := { y.table with active := b } }

theorem shares_unbuilt : Shares (Unbuilt src r r') where
  agrees h := h.toAgrees
  host _ h := ⟨⟨h.options, h.table, rfl, h.sinks⟩, h.processor, h.lookup, h.lookup', h.kept, h.stats,
    h.stats'⟩
  mark _ h := ⟨⟨h.options, by simp only [h.table], h.world, h.sinks⟩, h.processor, h.lookup,
    h.lookup', h.kept, h.stats, h.stats'⟩

theorem shares_serves : Shares Serves where
  agrees h := h.toAgrees
  host _ h := ⟨⟨h.options, h.table, rfl, h.sinks⟩, h.processor, h.kept, h.counts, h.cacheHit⟩
  mark _ h := ⟨⟨h.options, by simp only [h.table], h.world, h.sinks⟩, h.processor, h.kept, h.counts,
    h.cacheHit⟩

theorem shares_fails : Shares (Fails r r') where
  agrees h := h.toAgrees
  host _ h := ⟨⟨h.options, h.table, rfl, h.sinks⟩, h.stats⟩
  mark _ h := ⟨⟨h.options, by simp only [h.table], h.world, h.sinks⟩, h.stats⟩

theorem couples_onWorld (hR : Shares R) (hE : ∀ {x y}, R x y → E x y)
    (f : EStateM Binding.Stop World α) : Couples R R E (onWorld f) := by
  intro x y h
  unfold onWorld
  rw [(hR.agrees h).world]
  cases f y.world with
  | ok a w => exact .ok (hR.host w h)
  | error s w => exact .error (hE (hR.host w h))

theorem couples_writeBack (hR : Shares R) (hE : ∀ {x y}, R x y → E x y) :
    Couples R R E (do onWorld (← get).table.writeBack) := by
  intro x y h
  change SameOutcome R E (onWorld x.table.writeBack x) (onWorld y.table.writeBack y)
  rw [(hR.agrees h).table]
  exact couples_onWorld hR hE _ x y h

theorem couples_activate (hR : Shares R) (hE : ∀ {x y}, R x y → E x y) :
    Couples R R E activate := by
  intro x y h
  have hact : x.table.activate x.world = y.table.activate y.world := by
    rw [(hR.agrees h).table, (hR.agrees h).world]
  rw [activate_eq, activate_eq, hact]
  cases ha : y.table.activate y.world with
  | ok t w =>
    obtain rfl := table_activate ha
    have := hR.mark true (hR.host w h)
    simp only [(hR.agrees h).table] at this
    exact .ok this
  | error s w => exact .error (hE (hR.host w h))

theorem couples_deactivate (hR : Shares R) (hE : ∀ {x y}, R x y → E x y) :
    Couples R R E deactivate := by
  intro x y h
  have hmark := fun w => hR.mark false (hR.host w h)
  rw [deactivate_eq, deactivate_eq, (hR.agrees h).table, (hR.agrees h).world]
  simp only [(hR.agrees h).table] at hmark
  cases y.table.inactive.deactivate y.world with
  | ok u w => exact .ok (hmark w)
  | error s w => exact .error (hE (hmark w))

/-! ### Building -/

theorem couples_assemble (src' : String) :
    Couples (Unbuilt src r r') (Unbuilt src r r') (Fails r r') (assemble src') := by
  intro x y h
  unfold assemble
  rw [h.table]
  cases Assembler.assemble src' y.table.symbols with
  | ok p => exact .ok h
  | error a => exact .error h.fails

theorem couples_dump (p : Program) :
    Couples (Unbuilt src r r') (Unbuilt src r r') (Fails r r') (dump p) := by
  intro x y h
  have hsinks : ∀ sinks, Unbuilt src r r' { x with sinks := sinks } { y with sinks := sinks } :=
    fun sinks => ⟨⟨h.options, h.table, h.world, rfl⟩, h.processor, h.lookup, h.lookup', h.kept,
      h.stats, h.stats'⟩
  unfold dump
  rw [h.sinks]
  split
  · exact .ok h
  · split
    · exact .error (hsinks _).fails
    · split
      · exact .error (hsinks _).fails
      · exact .ok (hsinks _)

theorem couples_allocate (p : Program) :
    Couples (Unbuilt src r r') (Unbuilt src r r') (Fails r r') (allocate p) := by
  intro x y h
  unfold allocate
  have hglobals : x.table.globals = y.table.globals := by rw [h.table]
  rw [hglobals, h.world]
  cases Memory.allocate y.world.store p.layout y.table.globals with
  | ok a => exact .ok (shares_unbuilt.host { y.world with store := a.2 } h)
  | error a => exact .error h.fails

/-- Two engines that have just built the same program. -/
structure Built (r r' : RunStats) (x y : Engine) : Prop extends Agrees x y where
  processor : x.processor.Alike y.processor
  kept : x.kept = y.kept
  stats : x.stats = r
  stats' : y.stats = r'

theorem couples_keep (p : Program) (m : Memory) :
    Couples (Unbuilt src r r') (Built r r') (Fails r r') (keep src p m) := by
  intro x y h
  have hkey : x.key src = y.key src := by rw [key, key, h.table]
  refine .ok ⟨⟨h.options, h.table, h.world, h.sinks⟩, h.processor, ?_, h.stats, h.stats'⟩
  simp only [hkey, ← h.options]
  split
  · rfl
  · exact h.kept (Bool.eq_false_iff.mpr ‹_›)

theorem couples_load : Couples (Unbuilt src r r') (Built r r') (Fails r r') (load src) := by
  intro x y h
  rw [load_of_none h.lookup, load_of_none h.lookup']
  have hbuild : Couples (Unbuilt src r r') (Built r r') (Fails r r') (build src) :=
    (couples_assemble src).bind fun p => (couples_dump p).bind fun _ => (couples_allocate p).bind
      fun m => (couples_keep p m).bind fun _ => fun _ _ h => .ok h
  exact hbuild x y h

/-! ### Running -/

theorem couples_process (p : Program) (m : Memory) (patience : Patience) :
    Couples Serves Serves (Fails r r') (process p m patience) := by
  intro x y h
  have hlink : y.table.link = x.table.link := by rw [h.table]
  obtain ⟨hsame, halike⟩ := h.processor.same_process ⟨p, some x.table.link⟩ patience x.world m x.trace
    y.trace
  unfold process
  rw [hlink, ← h.world]
  generalize x.processor.process ⟨p, some x.table.link⟩ patience x.world m x.trace = a at *
  generalize y.processor.process ⟨p, some x.table.link⟩ patience x.world m y.trace = b at *
  have hserves : Serves
      { x with world := a.1.world, trace := a.1.trace, processor := a.2, stats.counts := a.1.stats,
               kept := x.kept.map fun k => { k with memory := a.1.memory } }
      { y with world := b.1.world, trace := b.1.trace, processor := b.2, stats.counts := b.1.stats,
               kept := y.kept.map fun k => { k with memory := a.1.memory } } :=
    ⟨⟨h.options, h.table, hsame.world, h.sinks⟩, halike, by simp only [h.kept], hsame.stats,
      h.cacheHit⟩
  simp only
  rw [hsame.outcome, ← hsame.memory]
  cases b.1.outcome with
  | ok u => exact .ok hserves
  | error s => exact .error hserves.fails

theorem couples_cellAt (m : Memory) (z : Operand) :
    Couples Serves Serves (Fails r r') (cellAt m z) := by
  intro x y h
  unfold cellAt
  rw [h.world]
  cases m.get y.world.store z with
  | ok a => exact .ok (shares_serves.host _ h)
  | error a => exact .error h.fails

theorem couples_finish (p : Program) (m : Memory) (hit : Bool) (patience : Patience) :
    Couples (Built r r') Serves (Fails r r') (finish p m hit patience) := by
  -- a note changes the trace alone, whatever it tells of the runs so far
  have hnote : ∀ f : Engine → String, Couples Serves Serves (Fails r r') (do note (f (← get))) :=
    fun f x y h => .ok ⟨⟨h.options, h.table, h.world, h.sinks⟩, h.processor, h.kept, h.counts,
      h.cacheHit⟩
  have hcount : Couples (Built r r') Serves (Fails r r') (modify fun e =>
      { e with stats := { cacheHit := hit, runs := e.stats.runs + 1 } } : Action Unit) :=
    fun x y h => .ok ⟨⟨h.options, h.table, h.world, h.sinks⟩, h.processor, h.kept, rfl, rfl⟩
  refine hcount.bind fun _ => ?_
  rw [← bind_assoc]
  refine (hnote fun e => "run " ++ toString e.stats.runs ++ " cache hit:" ++ toString hit).bind
    fun _ => (couples_process p m patience).bind fun m' => ?_
  rw [← bind_assoc]
  refine (hnote fun e => "ran " ++ toString e.stats.counts.steps ++ " steps").bind fun _ => ?_
  rw [← bind_assoc]
  refine (couples_writeBack shares_serves Serves.fails).bind fun _ => ?_
  split
  · exact fun x y h => .ok h
  · exact (couples_cellAt m' p.result).bind fun _ => fun x y h => .ok h

theorem couples_perform (patience : Patience) :
    Couples (Unbuilt src r r') Serves (Fails r r') (perform src patience) :=
  couples_load.bind fun a => couples_finish a.1 a.2.1 a.2.2 patience

theorem couples_thenDeactivate {P : Engine → Engine → Prop} {f : Action α}
    (hf : Couples P Serves (Fails r r') f) : Couples P Serves (Fails r r') (thenDeactivate f) := by
  intro x y h
  have h₁ := hf x y h
  unfold thenDeactivate
  generalize f x = a, f y = b at h₁ ⊢
  cases h₁ with
  | ok h₂ =>
    have hfails : ∀ {x y}, Serves x y → Fails r r' x y := Serves.fails
    have h₃ := couples_deactivate shares_serves hfails _ _ h₂
    simp only
    generalize deactivate _ = a at h₃ ⊢
    generalize deactivate _ = b at h₃ ⊢
    cases h₃ with
    | ok h => exact .ok h
    | error h => exact .error h
  | error h₂ =>
    have h₃ := couples_deactivate shares_fails id _ _ h₂
    simp only
    generalize deactivate _ = a at h₃ ⊢
    generalize deactivate _ = b at h₃ ⊢
    cases h₃ with
    | ok h => exact .error h
    | @error d _ _ h => cases d <;> exact .error h

theorem couples_withBindings (patience : Patience) :
    Couples (Unbuilt src r r') Serves (Fails r r') (withBindings (perform src patience)) := by
  intro x y h
  rw [withBindings_eq, withBindings_eq]
  have hopened : SameOutcome (Unbuilt src r r') (Fails r r') (opened x) (opened y) := by
    unfold opened
    rw [h.options, h.table]
    split
    · exact couples_activate shares_unbuilt Unbuilt.fails x y h
    · exact .ok h
  generalize opened x = a, opened y = b at hopened ⊢
  rw [h.options, h.table]
  cases hopened with
  | ok h₁ =>
    simp only
    split
    · exact couples_thenDeactivate (couples_perform patience) _ _ h₁
    · exact couples_perform patience _ _ h₁
  | error h₁ => exact .error h₁

/-- A new engine with the options, the bindings, the containers and the sinks of this one. -/
def renewed (e : Engine) : Engine :=
  { options := e.options, table := e.table, world := e.world, sinks := e.sinks }

/-- A run that finds nothing kept for its source is as on a new engine. -/
theorem exec_renewed {e : Engine} (hadmits : e.Admits) (hsuits : e.processor.Suits e.options)
    (hkept : e.options.reexecute = false → e.kept = none) (hlookup : e.lookup src = none)
    (patience : Patience) :
    SameOutcome Serves (fun x y => Fails e.stats {} x y ∧ x.kept = none ∧ y.kept = none)
      (exec src patience e) (exec src patience e.renewed) := by
  have hstart : Unbuilt src e.stats {} e e.renewed :=
    ⟨⟨rfl, rfl, rfl, rfl⟩, hsuits.alike, hlookup, rfl, fun ho => hkept ho, rfl, rfl⟩
  have hdo : ¬ (!e.options.autoActivate && !e.table.active) = true := by
    rcases hadmits with h | h <;> simp [h]
  have hrun := couples_withBindings patience _ _ hstart
  unfold exec
  rw [if_neg hdo, if_neg (show ¬ (!e.renewed.options.autoActivate && !e.renewed.table.active) = true
    from hdo)]
  generalize withBindings (perform src patience) e = a at hrun ⊢
  generalize withBindings (perform src patience) e.renewed = b at hrun ⊢
  cases hrun with
  | ok h => exact .ok h
  | error h => exact .error ⟨⟨⟨h.options, h.table, h.world, h.sinks⟩, h.stats⟩, rfl, rfl⟩

end Engine

end VectorMachine
