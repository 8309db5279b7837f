import VectorMachine.Proofs.Engine.Pasts
import VectorMachine.Proofs.Program.Positions

/-!
# Results of runs

The operand of a program's result is chosen when the program is assembled: it is the one that the last
END of the code gives.  A run of an engine that succeeds returns the container at this operand,
whichever END the run has come to.
-/

namespace VectorMachine
set_option autoImplicit false

/-- The operand that an END gives as the result of its program. -/
def Instruction.returned? (z : Instruction) : Option Operand :=
  if z.opcode = .finish then z.operands[1]? else none

namespace Program

/-- The operand of the last END in a code that gives one, absent without such an END. -/
def returned (code : Array Instruction) : Operand :=
  (code.toList.filterMap Instruction.returned?).getLast?.getD Operand.absent

theorem returned_push (code : Array Instruction) (z : Instruction) :
    returned (code.push z) = z.returned?.getD (returned code) := by
  have hfilter : (code.push z).toList.filterMap Instruction.returned? =
      code.toList.filterMap Instruction.returned? ++ z.returned?.toList := by
    rw [Array.toList_push, List.filterMap_append]
    cases hz : z.returned? <;> simp [hz]
  rw [returned, hfilter]
  cases z.returned? <;> simp [returned]

end Program

namespace Assembler

variable {p : Program} {syms : Symbols} {src : String} {e e' : Emitted} {st : Statement}

/-- Of the instructions that are emitted, the last END that gives an operand decides. -/
def Decided (e : Emitted) : Prop := e.program.result = Program.returned e.program.code

theorem Decided.landing (h : Decided e) :
    Decided (emit e (Instruction.landing Operand.absent)) := by
  simp only [Decided, emit, Program.returned_push]
  exact h

theorem Decided.emitInstruction (h : Decided e) (z : Instruction) :
    Decided (emitInstruction e z) := by
  by_cases hop : z.opcode = .finish
  · obtain ⟨op, types, ops, note⟩ := z
    cases hop
    rcases ops with _ | ⟨y, _ | ⟨result, ys⟩⟩
    · simpa [Decided, Assembler.emitInstruction, emit, Program.returned_push,
        Instruction.returned?] using h
    · simpa [Decided, Assembler.emitInstruction, emit, Program.returned_push,
        Instruction.returned?] using h
    · simp [Decided, Assembler.emitInstruction, emit, Program.returned_push,
        Instruction.returned?]
  · have hemit : Decided (emit e z) := by
      simp only [Decided, emit, Program.returned_push, Instruction.returned?, hop, if_false]
      exact h
    have hboth : Decided (if z.opcode = .call then
        emit (emit e z) (Instruction.landing Operand.absent) else emit e z) := by
      split
      · exact hemit.landing
      · exact hemit
    unfold Assembler.emitInstruction
    dsimp only
    split
    · exact absurd ‹_› hop
    · exact hboth

theorem Decided.statement (he : Emits e) (h : Decided e) (hst : assembleStatement e st = .ok e') :
    Decided e' := by
  cases assembles_of_statement hst with
  | note =>
    have hr := resolved_constant he.wellFormed.declares ("~string:" ++ st.words.tail.headD "")
    rw [Decided, hr.result, hr.code]
    exact h
  | label => exact h.landing
  | directive => exact h
  | @operation z q _ hz =>
    have hr := (instruction_ok he.wellFormed.declares hz).1
    refine Decided.emitInstruction ?_ z
    rw [Decided, hr.result, hr.code]
    exact h

/-- The result of an assembled program is what the last END of its code gives. -/
theorem result_assemble (h : assemble src syms = .ok p) : p.result = Program.returned p.code := by
  unfold assemble at h
  split at h
  · cases h
  · obtain ⟨d, hd, h⟩ := Store.bind_eq_ok.mp h
    obtain ⟨e, he, h⟩ := Store.bind_eq_ok.mp h
    cases h
    obtain ⟨hstart, hcode⟩ := emits_of_declared hd
    refine (pass_keeps (P := fun e => Emits e ∧ Decided e) (fun _ _ _ h hst =>
      ⟨h.1.statement hst, h.2.statement h.1 hst⟩) ⟨hstart, ?_⟩ he).2
    have hresult : d.program.result = Operand.absent := by
      have hfresh := pass_keeps (P := fun d => Fresh d.program) (fun _ _ _ h hst => h.declare hst)
        ⟨⟨by simp, by simp, by simp, by simp⟩, rfl, rfl⟩ hd
      exact hfresh.result
    rw [Decided, hresult, hcode]
    rfl

end Assembler

namespace Engine

variable {α β : Type} {S : String → Prop} {e e' e₁ e₂ : Engine}
  {p : Program} {m : Memory} {src : String} {hit : Bool} {patience : Patience}
  {r : Option CellId}

theorem bind_ok {x : Action α} {f : α → Action β} {b : β} :
    (x >>= f) e = .ok b e' ↔ ∃ a e₁, x e = .ok a e₁ ∧ f a e₁ = .ok b e' := by
  simp only [bind, EStateM.bind]
  cases x e <;> simp

/-- How the processor of an engine runs a program on a memory, with what the trace has so far. -/
def runOf (e : Engine) (p : Program) (m : Memory) (patience : Patience) (trace : Log.Trace) :
    RunResult :=
  (e.processor.process ⟨p, some e.table.link⟩ patience e.world m trace).1

theorem process_ok {m' : Memory} (h : process p m patience e = .ok m' e') :
    (runOf e p m patience e.trace).outcome = .ok () ∧
      m' = (runOf e p m patience e.trace).memory := by
  unfold process at h
  dsimp only at h
  split at h
  · rename_i hok
    cases h
    exact ⟨hok, rfl⟩
  · cases h

theorem cellAt_ok {x : Operand} {c : CellId} (hx : x.isAbsent = false)
    (h : cellAt m x e = .ok c e') : m.cell? x = some c := by
  unfold cellAt at h
  split at h
  · rename_i hg
    cases h
    have hpart : x.part ≠ .absent := by simpa [Operand.isAbsent] using hx
    exact ((Memory.get_eq_ok_iff hpart).mp hg).1
  · cases h

/-- What a run returns that ends without an error: the cell at the program's result operand in the
memory that the processor leaves, if the operand is there. -/
theorem finish_ok (h : finish p m hit patience e = .ok r e') : ∃ trace,
    (runOf e p m patience trace).outcome = .ok () ∧
    (p.result.isAbsent = true ∧ r = none ∨
      p.result.isAbsent = false ∧ ∃ c, r = some c ∧
        (runOf e p m patience trace).memory.cell? p.result = some c) := by
  unfold finish at h
  obtain ⟨_, e₁, h₁, h⟩ := bind_ok.mp h
  cases h₁
  obtain ⟨_, e₁, h₁, h⟩ := bind_ok.mp h
  cases h₁
  obtain ⟨_, e₁, h₁, h⟩ := bind_ok.mp h
  cases h₁
  obtain ⟨m', e₂, hprocess, h⟩ := bind_ok.mp h
  -- the counts go to the trace, and the variables back to the host
  obtain ⟨_, e₃, -, h⟩ := bind_ok.mp h
  obtain ⟨_, e₃, -, h⟩ := bind_ok.mp h
  obtain ⟨_, e₃, -, h⟩ := bind_ok.mp h
  obtain ⟨_, e₃, -, h⟩ := bind_ok.mp h
  obtain ⟨hok, rfl⟩ := process_ok hprocess
  refine ⟨_, hok, ?_⟩
  split at h
  · rename_i habs
    cases h
    exact .inl ⟨habs, rfl⟩
  · rename_i habs
    obtain ⟨c, e₄, hc, h⟩ := bind_ok.mp h
    cases h
    rw [Bool.not_eq_true] at habs
    exact .inr ⟨habs, c, rfl, cellAt_ok habs hc⟩

theorem exec_ok (h : exec src patience e = .ok r e') : ∃ e₁ p m hit e₂ e₃,
    Loads e src e₁ p m hit e₂ ∧ finish p m hit patience e₂ = .ok r e₃ := by
  unfold exec at h
  split at h
  · cases h
  · split at h
    · rename_i hrun
      cases h
      rw [withBindings_eq] at hrun
      split at hrun
      · rename_i e₁ ho
        have hperform : ∃ e₃, perform src patience e₁ = .ok r e₃ := by
          split at hrun
          · unfold thenDeactivate at hrun
            split at hrun
            · rename_i hx
              split at hrun
              · cases hrun
                exact ⟨_, hx⟩
              · cases hrun
            · split at hrun <;> cases hrun
          · exact ⟨_, hrun⟩
        obtain ⟨e₃, hx⟩ := hperform
        rw [perform_eq] at hx
        obtain ⟨⟨p, m, hit⟩, e₂, hload, hfinish⟩ := bind_ok.mp hx
        exact ⟨e₁, p, m, hit, e₂, e₃, ⟨ho, hload⟩, hfinish⟩
      · cases hrun
    · cases h

/-- The host value of a run's result, in the engine that the run leaves. -/
theorem run_of_exec (h : exec src patience e = .ok r e') : run src patience e =
    match r with
    | none => .ok none e'
    | some c =>
      match Host.ofContainer e'.world.store c with
      | .ok v => .ok v e'
      | .error a => .error (.abort a) e' := by
  unfold run
  simp only [bind, EStateM.bind, h]
  cases r with
  | none => rfl
  | some c => rfl

/-- The operand of a program's result is the one that the last END of its code gives.  Whatever an
engine has gone through and whichever END a run of it has come to, a run that succeeds returns the
container at this operand in the memory that the processor leaves, and nothing if no END gives an
operand; its host value is that of this container. -/
theorem Past.exec_returns (hS : Distinguishes S) (h : Past S e) (hsrc : S src)
    (hx : Engine.exec src patience e = .ok r e') :
    ∃ e₁ p m hit e₂ trace, Loads e src e₁ p m hit e₂ ∧
      Assembler.assemble src e.table.symbols = .ok p ∧
      p.result = Program.returned p.code ∧
      (runOf e₂ p m patience trace).outcome = .ok () ∧
      ((Program.returned p.code).isAbsent = true ∧ r = none ∨
        (Program.returned p.code).isAbsent = false ∧ ∃ c, r = some c ∧
          (runOf e₂ p m patience trace).memory.cell? (Program.returned p.code) = some c) ∧
      run src patience e =
        match r with
        | none => .ok none e'
        | some c =>
          match Host.ofContainer e'.world.store c with
          | .ok v => .ok v e'
          | .error a => .error (.abort a) e' := by
  obtain ⟨e₁, p, m, hit, e₂, e₃, hl, hfinish⟩ := exec_ok hx
  obtain ⟨trace, hok, hresult⟩ := finish_ok hfinish
  have hp := h.attests.assembled hS hsrc hl
  have hreturned := Assembler.result_assemble hp
  rw [hreturned] at hresult
  exact ⟨e₁, p, m, hit, e₂, trace, hl, hp, hreturned, hok, hresult, run_of_exec hx⟩

/-- A program with two ENDs, of which a run comes to the first. -/
def twoEnds : Program where
  code := #[
    { opcode := .finish, types := [.int], operands := [Operand.absent, ⟨.constants, 0⟩] },
    { opcode := .finish, types := [.int], operands := [Operand.absent, ⟨.constants, 1⟩] }]
  constants := ⟨[("~int:2", 1), ("~int:1", 0)]⟩
  result := ⟨.constants, 1⟩
  extent := { constants := 1 }

def twoEndsText : String := "END int - ~int:1; END int - ~int:2;"

theorem assemble_twoEnds : Assembler.assemble twoEndsText {} = .ok twoEnds :=
  eq_ok_of_toOption (by decide +kernel)

/-- A new engine runs one instruction and returns the container of the second constant. -/
theorem runs_twoEnds : ∃ c e', Engine.exec twoEndsText { polls := 1 } {} = .ok (some c) e' ∧
    e'.stats.counts.steps = 1 ∧ e'.kept.bind (fun k => k.memory.cell? ⟨.constants, 0⟩) ≠ some c ∧
    (e'.world.store.int c).toOption = some 2 := by
  have hx : (success? (Engine.exec twoEndsText { polls := 1 } {})).any (fun (result, e') =>
      result.any fun c => e'.stats.counts.steps = 1 ∧
        e'.kept.bind (fun k => k.memory.cell? ⟨.constants, 0⟩) ≠ some c ∧
        (e'.world.store.int c).toOption = some 2) = true := by decide +kernel
  obtain ⟨result, e', hexec, hresult⟩ := exists_ok hx
  obtain ⟨c, rfl, hc⟩ := (Option.any_eq_true _ _).mp hresult
  exact ⟨c, e', hexec, of_decide_eq_true hc⟩

/-- The END that the run executes gives the constant 1, and the run returns the container of the
constant 2. -/
theorem exec_later_end : Assembler.assemble twoEndsText {} = .ok twoEnds ∧
    twoEnds.code[0]?.bind Instruction.returned? = some ⟨.constants, 0⟩ ∧
    twoEnds.immediates[0]? = some "~int:1" ∧
    ∃ c e', Engine.exec twoEndsText { polls := 1 } {} = .ok (some c) e' ∧
      e'.stats.counts.steps = 1 ∧
      e'.kept.bind (fun k => k.memory.cell? ⟨.constants, 0⟩) ≠ some c ∧
      (e'.world.store.int c).toOption = some 2 :=
  ⟨assemble_twoEnds, by decide, by decide +kernel, runs_twoEnds⟩

/-- A new engine that runs the program returns what the last END gives. -/
theorem Past.exec_returns_twoEnds : ∃ c e' e₂ p m trace,
    Past (· = twoEndsText) {} ∧
    Engine.exec twoEndsText { polls := 1 } {} = .ok (some c) e' ∧
    Assembler.assemble twoEndsText {} = .ok p ∧ Program.returned p.code = ⟨.constants, 1⟩ ∧
    (runOf e₂ p m { polls := 1 } trace).memory.cell? ⟨.constants, 1⟩ = some c := by
  obtain ⟨c, e', hx, -⟩ := runs_twoEnds
  have hS : Distinguishes (· = twoEndsText) := fun a b ha hb _ => ha.trans hb.symm
  have hnew : Past (· = twoEndsText) {} := .new rfl
  obtain ⟨e₁, p, m, hit, e₂, trace, -, hp, -, -, hresult, -⟩ :=
    hnew.exec_returns hS rfl hx
  have hp' : p = twoEnds := Except.ok.inj (hp.symm.trans assemble_twoEnds)
  subst hp'
  have hreturned : Program.returned twoEnds.code = ⟨.constants, 1⟩ := by decide
  rw [hreturned] at hresult
  rcases hresult with ⟨-, hnone⟩ | ⟨-, d, hd, hcell⟩
  · cases hnone
  · cases hd
    exact ⟨c, e', e₂, twoEnds, m, trace, hnew, hx, hp, hreturned, hcell⟩

end Engine

end VectorMachine
