import VectorMachine.Proofs.Refinement

/-!
# Faults of accelerated runs

A unit fetches other operands than the machine does: the operands of an instruction without effect
are never fetched, the label of a jump is fetched when the plan is compiled, and a jump on a slot
fetches nothing when it is executed.  If the labels are there, and those other operands whenever the
machine comes to their instruction, a run by a plan faults exactly if the run of the machine faults.
Instructions that are not executed may name whatever they like.
-/

namespace VectorMachine
set_option autoImplicit false

/-- A run that ends in a fault. -/
def RunResult.Faults (r : RunResult) : Prop := ∃ f, r.outcome = .error (.abort (.fault f))

namespace Launch

variable {l : Launch} {cache : Bool}

theorem Agree.faults_iff {base : Nat} {r r' : RunResult} (h : Agree base r r') :
    r.Faults ↔ r'.Faults := by
  unfold RunResult.Faults
  rw [h.outcome]

/-- If the machine comes only to instructions whose operands can be fetched as far as no unit fetches
them, each run by a plan faults if and only if the run of the machine does, and in any case the runs
cannot be told apart. -/
theorem faults_agree (hl : l.Steady cache) (width : Nat) (patience : Patience)
    (trace : Log.Trace) (rest : List Rerun) (hg : ∀ next ∈ rest, ∀ c ∈ next.globals, c < l.base)
    (hb : ∀ s ∈ l.starts patience trace rest,
      l.HeedsWithin cache s.1 (pollInterval * s.2.polls)) :
    List.Forall₂ (fun r r' => (r.Faults ↔ r'.Faults) ∧ Agree l.base r r')
      (l.results .interpreter patience trace rest)
      (l.results (.accelerator cache none width) patience trace rest) := by
  refine (hl.sameResults width patience trace rest hg hb).imp fun r r' h => ?_
  have hagree := h.agree hl.valid
  exact ⟨hagree.faults_iff, hagree⟩

/-- Jumps over an instruction without effect whose operand is out of range, and executes another one with
such an operand. -/
def reachesOut : Program where
  code := #[
    { opcode := .jump true, types := [.bool],
      operands := [⟨.absent, 0⟩, ⟨.constants, 0⟩, ⟨.constants, 1⟩] },
    { opcode := .nop, types := [.void], operands := [⟨.globals, 7⟩] },
    { opcode := .nop, types := [.void] },
    { opcode := .arithmetic .add, types := [.int],
      operands := [⟨.locals, 0⟩, ⟨.globals, 9⟩, ⟨.constants, 2⟩] },
    { opcode := .finish, types := [.void] }]
  labels := ⟨[("&on", 2)]⟩
  constants := ⟨[("~int:1", 2), ("~bool:true", 1), ("~int:2", 0)]⟩
  result := Operand.absent
  extent := { globals := 9, locals := 0, constants := 2 }

/-- Without globals the run faults at its third step, with and without cached scalars. -/
theorem faults_agree_reachesOut :
    let l := Launch.on reachesOut none {} #[]
    (∀ r ∈ l.results .interpreter ⟨1, .canceled⟩ {} [],
      r.outcome = .error (.abort (Memory.outside ⟨.globals, 9⟩ 0))) ∧
    ∀ cache, l.Steady cache ∧ List.Forall₂ (fun r r' => (r.Faults ↔ r'.Faults) ∧ Agree l.base r r')
      (l.results .interpreter ⟨1, .canceled⟩ {} [])
      (l.results (.accelerator cache none 0) ⟨1, .canceled⟩ {} []) := by
  intro l
  have hasm : (Assembler.assemble ("JMP bool - &on ~bool:true; NOP void G7; " ++
      "#LABEL &on; ADD int L0 G9 ~int:1; END void;") {}).toOption = some reachesOut := by
    decide +kernel
  have hvalid : l.Valid := valid_on hasm Store.sound_empty (by decide +kernel) (by decide +kernel)
    nofun
  have hlabels : ∀ z ∈ reachesOut.code, ∀ on, z.opcode = .jump on →
      ∀ a ∈ z.operands[1]?, a.part ≠ .globals ∧ (l.memory.cell? a).isSome := by decide +kernel
  have hend : Machine.visit l.environment l.machine 3 = none := by decide +kernel
  have hvisited : ∀ k < 3, ∀ x ∈ Machine.visit l.environment l.machine k,
      ∀ z ∈ Machine.instructionAt? reachesOut x.1,
        (Accelerator.isNoOperation z.opcode = true → z.operands = []) ∧
        ∀ on, z.opcode = .jump on → ∀ y ∈ z.operands[0]?, y.part = .absent := by
    decide +kernel
  have hb : ∀ cache limit, l.HeedsWithin cache l.machine limit := by
    intro cache limit k _ pc z m he i y hy ho
    have hk : k < 3 := by
      by_contra hge
      have hnone := Machine.visit_eq_none_of_le hend (Nat.not_lt.mp hge)
      exact Option.some_ne_none _ (he.visit_eq.symm.trans hnone)
    obtain ⟨hidle, hjump⟩ := hvisited k hk _ he.visit_eq z he.fetched
    rcases ho with hop | ⟨-, rfl, on, hop⟩
    · rw [hidle hop] at hy
      cases hy
    · exact .inl (hjump on hop y hy)
  refine ⟨by decide +kernel, fun cache => ?_⟩
  have hl : l.Steady cache := by
    refine ⟨hvalid, nofun,
      hvalid.cell_of_typed (by decide) (by decide), fun _ z hz on hop a ha => ?_,
      fun z hz on hop a _ ha _ _ => (hlabels z hz on hop a ha).1⟩
    exact .inr (Option.isSome_iff_exists.mp (hlabels z hz on hop a ha).2)
  exact ⟨hl, faults_agree hl 0 ⟨1, .canceled⟩ {} [] (by simp)
    (by simpa [starts, restarts] using hb cache _)⟩

end Launch

end VectorMachine
