import VectorMachine.Interpreter.Run
import VectorMachine.Proofs.Machine.Reach

/-!
# Runs

A run that the caller waits for with patience is one of as many instructions as the patience allows.
What every step keeps, a run keeps.  The trace of a run is no part of what it computes.
-/

namespace VectorMachine
set_option autoImplicit false

/-- Executes instructions while `pc` is inside the code, at most `fuel` of them. -/
def drive {σ : Type} (size : Nat) (step : Int → EStateM Stop σ Int) (stop : Stop) :
    Nat → Nat → Int → σ → Except Stop Unit × Nat × σ
  | fuel, steps, pc, x =>
    if pc < 0 ∨ (size : Int) ≤ pc then (.ok (), steps, x)
    else match fuel with
      | 0 => (.error stop, steps, x)
      | fuel + 1 =>
        match step pc x with
        | .ok next y => drive size step stop fuel (steps + 1) next y
        | .error e y => (.error e, steps + 1, y)

/-- Asking the caller now and then stops a run after the instructions that are allowed. -/
theorem proceed_eq_drive {σ : Type} (size : Nat) (step : Int → EStateM Stop σ Int) (p : Patience)
    (steps : Nat) (pc : Int) (x : σ) : proceed size step p steps pc x =
      drive size step p.stop (p.allowance steps) steps pc x := by
  fun_induction proceed size step p steps pc x with
  | case1 p steps pc x hpc =>
    unfold drive
    rw [if_pos hpc]
  | case2 p steps pc x hpc e he =>
    obtain ⟨hzero, rfl⟩ := Patience.allowance_of_poll_error he
    unfold drive
    rw [if_neg hpc, hzero]
  | case3 p steps pc x hpc q hq next y hy ih =>
    obtain ⟨hsucc, hstop⟩ := Patience.allowance_of_poll hq
    unfold drive
    rw [if_neg hpc, hsucc]
    simp only [hy]
    rw [ih, hstop]
  | case4 p steps pc x hpc q hq e y hy =>
    unfold drive
    rw [if_neg hpc, (Patience.allowance_of_poll hq).1]
    simp only [hy]

theorem driveAll_eq {σ : Type} (size : Nat) (step : Int → EStateM Stop σ Int) (p : Patience)
    (x : σ) : driveAll size step p x =
      drive size step p.stop (pollInterval * p.polls) 0 0 x :=
  proceed_eq_drive size step p 0 0 x

theorem drive_keeps {σ : Type} {P : σ → Prop} {step : Int → EStateM Stop σ Int}
    (hstep : ∀ pc x, P x → P (finalState (step pc x))) (size : Nat) (stop : Stop)
    (fuel steps : Nat) (pc : Int) (x : σ) (hx : P x) :
    P (drive size step stop fuel steps pc x).2.2 := by
  induction fuel generalizing steps pc x with
  | zero =>
    unfold drive
    split <;> exact hx
  | succ fuel ih =>
    unfold drive
    split
    · exact hx
    · have h := hstep pc x hx
      simp only
      split
      · rename_i next y hy
        rw [hy] at h
        exact ih (steps + 1) next y h
      · rename_i e y hy
        rw [hy] at h
        exact h

theorem driveAll_keeps {σ : Type} {P : σ → Prop} {step : Int → EStateM Stop σ Int}
    (hstep : ∀ pc x, P x → P (finalState (step pc x))) (size : Nat) (p : Patience) (x : σ)
    (hx : P x) : P (driveAll size step p x).2.2 := by
  rw [driveAll_eq]
  exact drive_keeps hstep size p.stop _ 0 0 x hx

namespace Traced

theorem machine_note (p : Program) (pc : Int) (z : Traced) :
    (z.note p pc).machine = z.machine := by
  unfold note
  split
  · split <;> rfl
  · rfl

theorem step_eq (env : Environment) (pc : Int) (z : Traced) : ∃ trace width,
    step env pc z = match Machine.step env pc z.machine with
      | .ok next m => .ok next ⟨m, trace, width⟩
      | .error e m => .error e ⟨m, trace, width⟩ := by
  have hm := machine_note env.program pc z
  cases hn : z.note env.program pc with
  | mk machine trace width =>
    rw [hn] at hm
    change machine = z.machine at hm
    subst hm
    refine ⟨trace, width, ?_⟩
    cases hr : Machine.step env pc z.machine with
    | ok next m => simp only [step, hn, hr]
    | error e m => simp only [step, hn, hr]

theorem finalState_step (env : Environment) (pc : Int) (z : Traced) :
    (finalState (step env pc z)).machine = finalState (Machine.step env pc z.machine) := by
  obtain ⟨trace, width, h⟩ := step_eq env pc z
  rw [h]
  cases Machine.step env pc z.machine <;> rfl

end Traced

namespace Machine

variable {env : Environment} {start m m' : Machine} {pc next : Int} {z : Instruction} {j k : Nat}

/-! ### The steps of a run -/

/-- Where a run is after a number of steps that succeed, and in which state. -/
def visit (env : Environment) (start : Machine) : Nat → Option (Int × Machine)
  | 0 => some (0, start)
  | k + 1 =>
    match visit env start k with
    | none => none
    | some (pc, m) =>
      match step env pc m with
      | .ok next m' => some (next, m')
      | .error _ _ => none

/-- The `k`-th step of a run executes the instruction `z` at `pc` in the state `m`. -/
structure Executes (env : Environment) (start : Machine) (k : Nat) (pc : Int) (z : Instruction)
    (m : Machine) : Prop where
  visit_eq : visit env start k = some (pc, m)
  fetched : instructionAt? env.program pc = some z

theorem visit_of_step (h : visit env start k = some (pc, m)) (hstep : step env pc m = .ok next m') :
    visit env start (k + 1) = some (next, m') := by
  simp only [visit, h, hstep]

theorem visit_succ (h : visit env start (k + 1) = some (next, m')) :
    ∃ pc z m, Executes env start k pc z m ∧ step env pc m = .ok next m' := by
  unfold visit at h
  split at h
  · cases h
  · rename_i pc m hk
    split at h
    · rename_i next' m'' hstep
      cases h
      cases hz : instructionAt? env.program pc with
      | none =>
        simp only [step, hz] at hstep
        cases hstep
      | some z => exact ⟨pc, z, m, ⟨hk, hz⟩, hstep⟩
    · cases h

theorem visit_eq_none_of_le (h : visit env start j = none) (hle : j ≤ k) :
    visit env start k = none := by
  induction hle with
  | refl => exact h
  | step _ ih => simp only [visit, ih]

theorem Executes.unique {pc' : Int} {z' : Instruction} (h : Executes env start k pc z m)
    (h' : Executes env start k pc' z' m') : pc' = pc ∧ z' = z ∧ m' = m := by
  obtain ⟨rfl, rfl⟩ := Prod.mk.inj (Option.some.inj (h'.visit_eq.symm.trans h.visit_eq))
  exact ⟨rfl, Option.some.inj (h'.fetched.symm.trans h.fetched), rfl⟩

theorem executes_of_lt_steps {size : Nat} (hsize : env.program.code.size = size) (stop : Stop)
    {fuel steps : Nat} {x : Traced} (hx : visit env start steps = some (pc, x.machine))
    (hlt : ∀ k < steps, ∃ pc z m, Executes env start k pc z m) :
    ∀ k < (drive size (Traced.step env) stop fuel steps pc x).2.1,
      ∃ pc z m, Executes env start k pc z m := by
  induction fuel generalizing steps pc x with
  | zero =>
    unfold drive
    split <;> exact hlt
  | succ fuel ih =>
    unfold drive
    split
    · exact hlt
    · rename_i hpc
      have hz : ∃ z, instructionAt? env.program pc = some z := by
        have hi : pc.toNat < env.program.code.size := by omega
        exact ⟨env.program.code[pc.toNat], by simp [instructionAt?, hi]; omega⟩
      obtain ⟨z, hz⟩ := hz
      have hlt' : ∀ k < steps + 1, ∃ pc z m, Executes env start k pc z m := by
        intro k hk
        rcases Nat.lt_succ_iff_lt_or_eq.mp hk with hk | rfl
        · exact hlt k hk
        · exact ⟨pc, z, x.machine, hx, hz⟩
      obtain ⟨trace, width, hstep⟩ := Traced.step_eq env pc x
      simp only [hstep]
      cases hr : step env pc x.machine with
      | ok next m' => exact ih (visit_of_step hx hr) hlt'
      | error e m' => exact hlt'

end Machine

end VectorMachine
