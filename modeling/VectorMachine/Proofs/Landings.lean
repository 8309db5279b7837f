import VectorMachine.Proofs.Constants
import VectorMachine.Proofs.JumpTargets
import VectorMachine.Proofs.Machine.Calls
import VectorMachine.Proofs.Program.Labels

/-!
# Where labels land

A label is a constant of the program, and constants never change.  So a jump that branches and a call
that succeeds go on exactly where the second pass of the assembler has put the landing of the label,
on the machine and by a plan.
-/

namespace VectorMachine
set_option autoImplicit false

open Accelerator (Plan State)
open Assembler (Targets ComesTo NamesLabel Returns statements assemble)

namespace Machine

variable {m : Machine} {env : Environment} {pc next i : Int} {z : Instruction} {y : Operand}

/-- The operand `y` holds the address `i`. -/
def HoldsAddress (m : Machine) (y : Operand) (i : Int) : Prop :=
  ∃ c n, m.memory.cell? y = some c ∧ m.store.int c = .ok n ∧ n.toInt = i

/-- Where an instruction with the label `i` goes on if `goes next` says that it goes on at `next`: a
call at the label, a jump at the label or behind itself, as its condition says in the state `m`, and
it goes on if it can branch. -/
structure Lands (m : Machine) (z : Instruction) (pc i : Int) (goes : Int → Prop) : Prop where
  call : z.opcode = .call → ∀ next, goes next → next = i
  jump : ∀ {on : Bool} {d a b : Operand}, z.opcode = .jump on → z.operands = [d, a, b] →
    ∀ next, goes next → ∃ c, m.memory.cell? b = some c ∧
      (m.store.branches on c = .ok true ∧ next = i ∨
        m.store.branches on c = .ok false ∧ next = pc + 1)
  branch : ∀ {on : Bool} {d a b : Operand} {c : CellId}, z.opcode = .jump on →
    z.operands = [d, a, b] → (∀ y ∈ z.operands, m.memory.Fetches y) → m.memory.cell? b = some c →
    m.store.branches on c = .ok true → goes i

/-- A call that succeeds continues at the address that its label holds. -/
theorem names_of_call (hs : m.store.Sound) (ha : m.Addressable)
    (hz : instructionAt? env.program pc = some z) (hop : z.opcode = .call) {m' : Machine}
    (h : step env pc m = .ok next m') : m.Names z next := by
  obtain ⟨k, ops, -, hops, he⟩ := (step_eq_ok ha hz).mp h
  simp only [execute, change?, hop, control, call] at he
  rcases ops with _ | ⟨o, _ | ⟨target, args⟩⟩
  · cases he
  · cases he
  obtain ⟨f, m₁, haddr, he⟩ := bind_ok.mp he
  obtain ⟨rfl, v, hv, rfl⟩ := address_ok.mp haddr
  obtain ⟨_, _, -, he⟩ := bind_ok.mp he
  split at he
  · obtain ⟨_, _, he, -⟩ := bind_ok.mp he
    cases he
  obtain ⟨_, _, -, he⟩ := bind_ok.mp he
  obtain ⟨_, _, -, he⟩ := bind_ok.mp he
  obtain ⟨_, _, -, he⟩ := bind_ok.mp he
  cases he
  obtain ⟨y, hy, hc, -⟩ := hops.at (i := 1) rfl
  exact names_of_int hs hy hc hv

theorem JumpsTo.lands {on : Bool} {a b : Operand} (h : m.JumpsTo on a b pc next)
    (hi : m.HoldsAddress a i) : ∃ c, m.memory.cell? b = some c ∧
      (m.store.branches on c = .ok true ∧ next = i ∨
        m.store.branches on c = .ok false ∧ next = pc + 1) := by
  obtain ⟨t, n, ht, hn, rfl⟩ := hi
  cases h with
  | branch hb hc ha hv =>
    rw [ht] at ha
    cases ha
    rw [hn] at hv
    cases hv
    exact ⟨_, hb, .inl ⟨hc, rfl⟩⟩
  | pass hb hc => exact ⟨_, hb, .inr ⟨hc, rfl⟩⟩

theorem Names.eq_of_holdsAddress (h : m.Names z next) (hy : z.operands[1]? = some y)
    (hi : m.HoldsAddress y i) : next = i := by
  obtain ⟨y', c, v, hy', hc, hv, rfl⟩ := h
  obtain ⟨c', n, hc', hn, rfl⟩ := hi
  rw [hy] at hy'
  cases hy'
  rw [hc] at hc'
  cases hc'
  rw [hv] at hn
  cases hn
  rfl

/-- Steps of the machine land where the label says. -/
theorem lands_step (hs : m.store.Sound) (ha : m.Addressable)
    (hz : instructionAt? env.program pc = some z) (hy : z.operands[1]? = some y)
    (hi : m.HoldsAddress y i) : m.Lands z pc i fun next => ∃ m', step env pc m = .ok next m' := by
  refine ⟨fun hop next ⟨m', h⟩ => ?_, fun {on d a b} hop hops next ⟨m', h⟩ => ?_,
    fun {on d a b c} hop hops hf hb hc => ?_⟩
  · exact (names_of_call hs ha hz hop h).eq_of_holdsAddress hy hi
  · have hya : y = a := by simpa [hops] using hy.symm
    exact ((step_jump hs hz hop hops).mp ⟨m', h⟩).2.lands (hya ▸ hi)
  · have hya : y = a := by simpa [hops] using hy.symm
    obtain ⟨t, n, ht, hn, rfl⟩ := hi
    exact (step_jump hs hz hop hops).mpr ⟨hf, .branch hb hc (hya ▸ ht) hn⟩

end Machine

namespace Launch

variable {l : Launch} {cache accelerated : Bool} {plan : Plan} {x : State} {m : Machine}
  {pc next i : Int} {z : Instruction} {y : Operand}

theorem Valid.holds_targets (hl : l.Valid) (ht : Targets l.program y i) : y.IsConstant ∧
    ∃ c n, l.memory.cell? y = some c ∧ l.store.Holds c (some (.int n)) ∧ n.toInt = i := by
  have ha := Memory.allocated hl.sound hl.allocated
  obtain ⟨n, hn, rfl⟩ := ht.decodes
  have hlt : y.addr.toNat < l.program.immediates.length := (List.getElem?_eq_some_iff.mp ht.pooled).1
  obtain ⟨c, hc⟩ : ∃ c, l.memory.cell? y = some c := by
    simp [Memory.cell?, ht.part, Memory.cells?, Int.not_lt.mpr ht.nonneg, ha.constants_eq,
      Program.layout, hlt]
  refine ⟨ht.part, c, n, hc, ?_, rfl⟩
  obtain ⟨text, v, htext, hv, hold⟩ := hl.holds_constant ht.part hc
  rw [ht.pooled] at htext
  cases htext
  rw [hn] at hv
  cases hv
  exact hold

theorem Preserves.holdsAddress (hl : l.Valid) (h : l.Preserves m) (ht : Targets l.program y i) :
    m.HoldsAddress y i := by
  obtain ⟨hy, c, n, hc, hold, hn⟩ := hl.holds_targets ht
  exact ⟨c, n, (h.own hy.isOwn).trans hc, (h.holds hy hc hold).int_eq, hn⟩

theorem Sealed.holdsAddress {g : Accelerator.Typing} (hl : l.Valid) (h : l.Sealed g m)
    (ht : Targets l.program y i) : m.HoldsAddress y i := by
  obtain ⟨hy, c, n, hc, hold, hn⟩ := hl.holds_targets ht
  exact ⟨c, n, (h.own hy.isOwn).trans hc, (h.constants hy hc hold).int_eq, hn⟩

/-- A call by a plan falls back to the machine. -/
theorem Slotted.lands_call (hl : l.Valid) (hp : l.Planned cache plan) (hx : l.Slotted cache plan x)
    (hz : Machine.instructionAt? l.program pc = some z) (hop : z.opcode = .call)
    (hy : z.operands[1]? = some y) (ht : Targets l.program y i) {x' : State}
    (h : Accelerator.step l.environment plan pc x = .ok next x') : next = i := by
  obtain ⟨u, hu, hunit⟩ := hp.unitOf hz
  obtain ⟨x₁, hm, hv, hstep⟩ := step_of_unit l.environment x hu
  have hx₁ : l.Slotted cache plan x₁ := hx.keeps (hm ▸ hx.isSealed) hv fun _ _ ho => by
    rwa [State.store, hm]
  rw [hstep] at h
  cases hunit with
  | fallback hc =>
    obtain ⟨y', hw, -, hfall⟩ := hx₁.fallBack_iff hp _ pc
    obtain ⟨n, hn⟩ := (hfall next).mp ⟨x', h⟩
    have hs := hw.slotted.isSealed
    exact (Machine.names_of_call hs.guarded.sound hs.guarded.addressable hz hop
      hn).eq_of_holdsAddress hy (hs.holdsAddress hl ht)
  | skip ho => simp [hop, Accelerator.isNoOperation] at ho
  | alloc ho => simp [hop] at ho
  | jump ho => simp [hop] at ho
  | scalar ho => simp [Accelerator.scalarOp?, hop] at ho
  | vector ho => simp [hop] at ho

/-- Steps by a plan land where the label says. -/
theorem Slotted.lands_step (hl : l.Valid) (hp : l.Planned cache plan) (hx : l.Slotted cache plan x)
    (hz : Machine.instructionAt? l.program pc = some z) (hy : z.operands[1]? = some y)
    (ht : Targets l.program y i) : (Stage.accelerating plan x).ended.machine.Lands z pc i
      fun next => ∃ x', Accelerator.step l.environment plan pc x = .ok next x' := by
  obtain ⟨w, hw, hback, -⟩ := hx.flush hp plan.slotIds
  have hended : (Stage.accelerating plan x).ended.machine = w.machine := by
    simp only [Stage.ended, hw]
    rfl
  have hs := hback.slotted.isSealed
  have hi : w.machine.HoldsAddress y i := hs.holdsAddress hl ht
  have hmachine : w.machine.Lands z pc i
      fun next => ∃ m', Machine.step l.environment pc w.machine = .ok next m' :=
    Machine.lands_step hs.guarded.sound hs.guarded.addressable hz hy hi
  have hfixed : plan.KeepsTarget pc → y.part ≠ .globals := fun _ => by simp [ht.part]
  have hjump : ∀ {on : Bool} {d a b : Operand}, z.opcode = .jump on → z.operands = [d, a, b] → _ :=
    fun {on d a b} hop hops => hx.step_jump hl hp hz hop hops (a := a) (by
      have hya : y = a := by simpa [hops] using hy.symm
      exact hya ▸ hfixed)
  rw [hended] at hjump ⊢
  refine ⟨?_, ?_, fun {on d a b c} hop hops hf hb hc => ?_⟩
  · rintro hop next ⟨x', h⟩
    exact hx.lands_call hl hp hz hop hy ht h
  · rintro on d a b hop hops next ⟨x', h⟩
    have hya : y = a := by simpa [hops] using hy.symm
    exact ((hjump hop hops).1 next x' h).lands (hya ▸ hi)
  · obtain ⟨n, hn⟩ := hmachine.branch hop hops hf hb hc
    exact (hjump hop hops).2 i n hn

end Launch

/-- Calls a function that is declared behind the call, and jumps over it. -/
def callsAhead : Program where
  code := #[
    { opcode := .call, types := [.void], operands := [Operand.absent, ⟨.constants, 0⟩] },
    Instruction.landing Operand.absent,
    { opcode := .jump true, types := [.bool],
      operands := [Operand.absent, ⟨.constants, 1⟩, ⟨.constants, 2⟩] },
    Instruction.landing Operand.absent,
    { opcode := .ret, types := [.void], operands := [Operand.absent, ⟨.constants, 0⟩] },
    Instruction.landing Operand.absent,
    { opcode := .finish, types := [.void] }]
  labels := ⟨[("&end", 5), ("&f", 3)]⟩
  constants := ⟨[("~bool:true", 2), ("~int:5", 1), ("~int:3", 0)]⟩
  extent := { constants := 2 }

def callsAheadText : String :=
  "CALL void - &f; JMP bool - &end ~bool:true; #LABEL &f; RET void - &f; #LABEL &end; END void;"

end VectorMachine
