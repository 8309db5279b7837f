import Mathlib.Algebra.Group.Nat.Defs
import VectorMachine.Proofs.Machine.Calls
import VectorMachine.Proofs.Session

/-!
# The discipline of calls and returns

The return address that a call pushes is in a container which nothing else can reach, and no
instruction moves what lies below the top of the stack.  So the return that finds the stack as high
as the call left it, return address included, continues behind the call, whatever the function has
done in between.  The functions that a call finds running are those that the run has called and has
not returned from by name.
-/

namespace VectorMachine
set_option autoImplicit false

namespace Launch

variable {l : Launch} {m : Machine} {stage : Stage}

/-- A session whose host code may know all containers that were there when the memory was ready,
constants apart. -/
structure Hosted (l : Launch) : Prop extends l.Prepared where
  reaches : ∀ link, l.linker = some link →
    link.Reaches fun c => c < l.store.cells.size ∧ c ∉ l.memory.constants

/-- What every stage of a session has of the memory that the session starts with. -/
structure Sustained (l : Launch) (m : Machine) : Prop where
  pools : m.Pools l.program
  constants : m.memory.constants = l.memory.constants
  size_le : l.store.cells.size ≤ m.store.cells.size

theorem Sustained.moves {m' : Machine} (h : l.Sustained m) (hm : Machine.Moves m.Unpooled m m') :
    l.Sustained m' :=
  ⟨h.pools.moves hm, hm.constants.trans h.constants, h.size_le.trans hm.touches.cells_le⟩

theorem Sustained.moves_step (hl : l.Hosted) (h : l.Sustained m) (pc : Int) :
    Machine.Moves m.Unpooled m (finalState (Machine.step l.environment pc m)) := by
  refine h.pools.moves_step (fun z hz => hl.admissible hz) fun link hlink => ?_
  refine hl.reaches link hlink _ fun c hc => ?_
  rw [Machine.Unpooled, h.constants]
  exact hc.2

theorem Sustained.restart (h : l.Sustained m) : l.Sustained { m with running := [] } :=
  ⟨h.pools.restart, h.constants, h.size_le⟩

theorem sustained_of_reached (hl : l.Hosted) (h : Reached l false stage) :
    l.Sustained stage.machine := by
  have halloc := Memory.allocated hl.sound hl.allocated
  induction h with
  | allocated =>
    exact ⟨Machine.pools_of_allocated hl.sound halloc hl.globals_lt, rfl, Nat.le_refl _⟩
  | @rewound m globals _ hg ih =>
    have hbound : ∀ c ∈ globals, c < m.store.cells.size ∧ m.Unpooled c := by
      intro c hc
      have hlt : c < l.containers.cells.size := hg c hc
      refine ⟨Nat.lt_of_lt_of_le hlt (halloc.adds.size_le.trans ih.size_le), fun hmem => ?_⟩
      -- the constants are newer than the containers of the host
      rw [show m.memory.constants = l.memory.constants from ih.constants,
        halloc.constants_eq] at hmem
      have hle := Memory.le_of_mem_consecutive hmem
      exact Nat.not_lt.mpr (Nat.le_trans (by omega) hle) hlt
    refine ⟨ih.pools.rewound hbound, ih.constants, ?_⟩
    rw [Stage.machine, Machine.rewound_store]
    exact ih.size_le.trans (Machine.moves_unlinkAll (C := fun _ => True) _
      ⟨Store.region_true, fun c hc => ⟨trivial, (ih.pools.within.stack c hc).2⟩⟩
      fun _ _ => trivial).touches.cells_le
  | interpret _ ih => exact ih.restart
  | step pc _ ih => exact ih.moves (ih.moves_step hl pc)
  | interpreted _ ih => exact ih
  | accelerate _ _ ha => cases ha
  | unit _ h _ => exact absurd rfl (not_accelerating h)
  | accelerated h _ => exact absurd rfl (not_accelerating h)

end Launch

namespace Machine

variable {env : Environment} {start m m' : Machine} {pc next f : Int} {z : Instruction}
  {i j k : Nat}

/-! ### Calls that a run has not returned from -/

/-- The function has been called in the first `k` steps of a run, and no return has named it since. -/
def Pending (env : Environment) (start : Machine) (k : Nat) (f : Int) : Prop :=
  ∃ i pc z m, i < k ∧ Executes env start i pc z m ∧ z.opcode = .call ∧ m.Names z f ∧
    ∀ j pc' z' m', i < j → j < k → Executes env start j pc' z' m' → z'.opcode = .ret →
      ¬ m'.Names z' f

theorem Names.unique {f' : Int} (h : m.Names z f) (h' : m.Names z f') : f' = f := by
  obtain ⟨y, c, v, hy, hc, hv, rfl⟩ := h
  obtain ⟨y', c', v', hy', hc', hv', rfl⟩ := h'
  rw [hy] at hy'
  cases hy'
  rw [hc] at hc'
  cases hc'
  rw [hv] at hv'
  cases hv'
  rfl

/-- One step more: a call adds the function that it names, a return removes the one that it names. -/
theorem pending_succ (h : Executes env start k pc z m) : Pending env start (k + 1) f ↔
    (z.opcode = .call ∧ m.Names z f) ∨
      (Pending env start k f ∧ ¬ (z.opcode = .ret ∧ m.Names z f)) := by
  constructor
  · rintro ⟨i, pc', z', m', hi, he, hop, hn, hlater⟩
    rcases Nat.lt_succ_iff_lt_or_eq.mp hi with hi | rfl
    · refine .inr ⟨⟨i, pc', z', m', hi, he, hop, hn, fun j _ _ _ hij hjk => ?_⟩, fun hret => ?_⟩
      · exact hlater j _ _ _ hij (Nat.lt_succ_of_lt hjk)
      · exact hlater k pc z m hi (Nat.lt_succ_self k) h hret.1 hret.2
    · obtain ⟨-, rfl, rfl⟩ := h.unique he
      exact .inl ⟨hop, hn⟩
  · rintro (⟨hop, hn⟩ | ⟨⟨i, pc', z', m', hi, he, hop, hn, hlater⟩, hret⟩)
    · exact ⟨k, pc, z, m, Nat.lt_succ_self k, h, hop, hn, fun j _ _ _ hkj hjk => by omega⟩
    · refine ⟨i, pc', z', m', Nat.lt_succ_of_lt hi, he, hop, hn, fun j pc'' z'' m'' hij hjk he' => ?_⟩
      rcases Nat.lt_succ_iff_lt_or_eq.mp hjk with hjk | rfl
      · exact hlater j pc'' z'' m'' hij hjk he'
      · obtain ⟨-, rfl, rfl⟩ := h.unique he'
        exact fun hop' hn' => hret ⟨hop', hn'⟩

/-- A return closes a call if it is the first one that finds the stack as high as the call left it
below its arguments, and the stack was never lower in between. -/
structure Closes (env : Environment) (start : Machine) (i : Nat) (m : Machine) (j : Nat)
    (m' : Machine) : Prop where
  lt : i < j
  height : m'.memory.stack.size = m.memory.stack.size + 1
  least : ∀ k pc z n, i < k → k < j → Executes env start k pc z n →
    m.memory.stack.size + 1 ≤ n.memory.stack.size
  first : ∀ k pc z n, i < k → k < j → Executes env start k pc z n → z.opcode = .ret →
    n.memory.stack.size ≠ m.memory.stack.size + 1

/-- Arguments from a number on have been taken from the stack, later ones before earlier ones: at the
step `τ a` the argument `a` is on top and is removed. -/
structure Takes (env : Environment) (start : Machine) (P : Array CellId) (args : List CellId)
    (i u k : Nat) (τ : Nat → Nat) : Prop where
  at_top : ∀ a, u ≤ a → a < args.length → i < τ a ∧ τ a < k ∧ ∃ pc z m,
    Executes env start (τ a) pc z m ∧ z.opcode.pops = true ∧
      m.memory.stack = P ++ (args.take (a + 1)).toArray
  anti : ∀ a b, u ≤ a → a < b → b < args.length → τ b < τ a

theorem Takes.mono {P : Array CellId} {args : List CellId} {u k' : Nat} {τ : Nat → Nat}
    (h : Takes env start P args i u k τ) (hk : k ≤ k') : Takes env start P args i u k' τ := by
  refine ⟨fun a hu ha => ?_, h.anti⟩
  obtain ⟨hi, hlt, htop⟩ := h.at_top a hu ha
  exact ⟨hi, Nat.lt_of_lt_of_le hlt hk, htop⟩

/-- The topmost argument that is left is taken. -/
theorem Takes.taken {P : Array CellId} {args : List CellId} {u : Nat} {τ : Nat → Nat}
    (h : Takes env start P args i (u + 1) k τ) (hik : i < k) (he : Executes env start k pc z m)
    (hpops : z.opcode.pops = true) (hstack : m.memory.stack = P ++ (args.take (u + 1)).toArray) :
    Takes env start P args i u (k + 1) fun a => if a = u then k else τ a := by
  refine ⟨fun a hu ha => ?_, fun a b hu hab hb => ?_⟩
  · by_cases hau : a = u
    · subst hau
      simp only [if_true]
      exact ⟨hik, Nat.lt_succ_self k, pc, z, m, he, hpops, hstack⟩
    · obtain ⟨hi, hlt, htop⟩ := h.at_top a (by omega) ha
      simp only [hau, if_false]
      exact ⟨hi, Nat.lt_succ_of_lt hlt, htop⟩
  · have hbu : b ≠ u := by omega
    simp only [hbu, if_false]
    split
    · exact (h.at_top b (by omega) hb).2.1
    · exact h.anti a b (by omega) hab hb

end Machine

namespace Launch

open Machine

variable {l : Launch} {m m' n n' : Machine} {pc pc' next f : Int} {z z' : Instruction}
  {i j k : Nat} {start : Machine}

/-- A run of the session's program from an idle stage. -/
structure Starts (l : Launch) (start : Machine) : Prop where
  hosted : l.Hosted
  reached : Reached l false (.interpreting start)
  running : start.running = []

theorem Starts.reached_visit (hs : l.Starts start)
    (h : visit l.environment start k = some (pc, m)) : Reached l false (.interpreting m) := by
  induction k generalizing pc m with
  | zero =>
    cases h
    exact hs.reached
  | succ k ih =>
    obtain ⟨pc₀, z, m₀, he, hstep⟩ := visit_succ h
    have := (ih he.visit_eq).step pc₀
    rwa [hstep] at this

theorem Starts.sustained (hs : l.Starts start)
    (h : visit l.environment start k = some (pc, m)) : l.Sustained m :=
  sustained_of_reached hs.hosted (hs.reached_visit h)

/-- The functions that are running are those that the run has called and that no return has named
since. -/
theorem Starts.mem_running (hs : l.Starts start)
    (h : visit l.environment start k = some (pc, m)) :
    f ∈ m.running ↔ Pending l.environment start k f := by
  induction k generalizing pc m with
  | zero =>
    cases h
    simp [hs.running, Pending]
  | succ k ih =>
    obtain ⟨pc₀, z, n, he, hstep⟩ := visit_succ h
    have hp := (hs.sustained he.visit_eq).pools
    rw [pending_succ he, ← ih he.visit_eq]
    by_cases hcall : z.opcode = .call
    · obtain ⟨hnames, -, hrunning, -⟩ := step_call hp he.fetched hcall hstep
      rw [hrunning, List.mem_cons]
      have hiff : n.Names z f ↔ f = pc := ⟨fun h => hnames.unique h, fun h => h ▸ hnames⟩
      simp [hcall, hiff]
    · by_cases hret : z.opcode = .ret
      · obtain ⟨-, -, -, -, ⟨g, hnames, hrunning⟩, -⟩ := step_ret hp he.fetched hret hstep
        rw [hrunning]
        have hiff : n.Names z f ↔ f = g := ⟨fun h => hnames.unique h, fun h => h ▸ hnames⟩
        simp [hret, hiff]
      · rw [running_of_step hp.addressable he.fetched hcall hret hstep]
        simp [hcall, hret]

theorem visit_of_le (h : visit l.environment start j = some (pc, m)) (hk : k ≤ j) :
    ∃ pc m, visit l.environment start k = some (pc, m) := by
  induction j generalizing pc m with
  | zero =>
    obtain rfl : k = 0 := by omega
    exact ⟨pc, m, h⟩
  | succ j ih =>
    rcases Nat.lt_or_eq_of_le hk with hk | rfl
    · obtain ⟨pc₀, z, m₀, he, -⟩ := visit_succ h
      exact ih he.visit_eq (by omega)
    · exact ⟨pc, m, h⟩

/-- The state of a run inside the body of a function: over the return address lie the arguments that
have not been taken, and then what the body has pushed. -/
structure InBody (l : Launch) (start : Machine) (i : Nat) (P : Array CellId) (r : CellId)
    (v : Int64) (args : List CellId) (k : Nat) (n : Machine) (u : Nat) (τ : Nat → Nat) :
    Prop where
  awaits : n.Awaits r v
  left : u ≤ args.length
  stack : ∃ T, n.memory.stack = (args.take u).toArray ++ T
  takes : Takes l.environment start P args i u k τ

/-- What a step keeps of the state inside a body, if it does not take the return address. -/
theorem InBody.step {P : Array CellId} {r : CellId} {v : Int64} {args : List CellId} {u : Nat}
    {τ : Nat → Nat} (h : l.InBody start i P r v args k n u τ) (hs : l.Starts start) (hik : i < k)
    (hr : l.store.cells.size ≤ r) (he : Executes l.environment start k pc z (n.above P))
    (hpops : z.opcode.pops = true → n.memory.stack ≠ #[])
    (hstep : Machine.step l.environment pc (n.above P) = .ok next m') :
    ∃ n' u' τ', m' = n'.above P ∧ l.InBody start i P r v args (k + 1) n' u' τ' := by
  have hcont := hs.sustained he.visit_eq
  have htop := (hs.hosted.admissible he.fetched).topmost
  obtain ⟨n', rfl, hn', hlower⟩ := h.awaits.step hcont.pools.addressable he.fetched htop
    (fun link hlink => hs.hosted.reaches link hlink _ fun c hc hcr =>
      Nat.not_lt.mpr hr (hcr ▸ hc.1)) hpops hstep
  obtain ⟨T, hT⟩ := h.stack
  by_cases hkeep : z.opcode.pops = true → T ≠ #[]
  · exact ⟨n', u, τ, rfl, hn', h.left, hlower _ T hT hkeep, h.takes.mono (Nat.le_succ k)⟩
  · -- the last argument that is left is on top
    simp only [Classical.not_imp, not_not] at hkeep
    obtain ⟨hpop, rfl⟩ := hkeep
    obtain ⟨w, rfl⟩ : ∃ w, u = w + 1 := by
      refine Nat.exists_eq_succ_of_ne_zero fun hu => hpops hpop ?_
      simp [hT, hu]
    have hw : w < args.length := h.left
    have hsplit : n.memory.stack = (args.take w).toArray ++ #[args[w]] := by
      rw [hT, List.take_succ_eq_append_getElem hw]
      simp
    refine ⟨n', w, _, rfl, hn', Nat.le_of_lt hw, hlower _ _ hsplit (by simp),
      h.takes.taken hik he hpop ?_⟩
    simp [hT]

/-- From the call to the return that closes it, a run is inside the body. -/
theorem inBody_of_closes (hs : l.Starts start) (hcall : Executes l.environment start i pc z m)
    (hop : z.opcode = .call) (hclose : Executes l.environment start j pc' z' m')
    (hc : Closes l.environment start i m j m') :
    ∃ r args f m₁, visit l.environment start (i + 1) = some (f, m₁) ∧
      m₁.memory.stack = m.memory.stack.push r ++ args.toArray ∧
      List.Forall₂ (fun y c => m.Passes y m₁.store c) (z.operands.drop 2) args ∧
      ∀ k, i < k → k ≤ j → ∃ at_k n u τ,
        visit l.environment start k = some (at_k, n.above (m.memory.stack.push r)) ∧
        l.InBody start i (m.memory.stack.push r) r (Int64.ofInt (pc + 1)) args k n u τ := by
  have hcont := hs.sustained hcall.visit_eq
  obtain ⟨f, m₁, hfirst⟩ := visit_of_le hclose.visit_eq hc.lt
  obtain ⟨pc₀, z₀, m₀, he, hstep⟩ := visit_succ hfirst
  obtain ⟨rfl, rfl, rfl⟩ := hcall.unique he
  obtain ⟨-, -, -, r, n₁, args, rfl, hawaits, hr, hstack, hargs⟩ :=
    step_call hcont.pools hcall.fetched hop hstep
  refine ⟨r, args, f, _, hfirst, by simp [hstack], hargs, fun k hik hkj => ?_⟩
  have hheight : (m₀.memory.stack.push r).size = m₀.memory.stack.size + 1 := by simp
  induction k, hik using Nat.le_induction with
  | base =>
    refine ⟨f, n₁, args.length, fun _ => 0, hfirst, hawaits, Nat.le_refl _, ⟨#[], ?_⟩, ?_⟩
    · simp [hstack]
    · exact ⟨fun a hu ha => by omega, fun a b hu hab hb => by omega⟩
  | succ k hik ih =>
    obtain ⟨at_k, n, u, τ, hvisit, hbody⟩ := ih (by omega)
    obtain ⟨next, m₂, hnext⟩ := visit_of_le hclose.visit_eq hkj
    obtain ⟨pc₁, z₁, n', he₁, hstep₁⟩ := visit_succ hnext
    obtain ⟨rfl, rfl⟩ := Prod.mk.inj (Option.some.inj (he₁.visit_eq.symm.trans hvisit))
    -- nothing takes the return address: no return before the one that closes the call, and no other
    -- operation, which would leave the stack too low
    have hpops : z₁.opcode.pops = true → n.memory.stack ≠ #[] := by
      intro hpop hempty
      by_cases hret : z₁.opcode = .ret
      · exact hc.first k pc₁ z₁ _ hik (by omega) he₁ hret (by simp [hempty])
      · have hpopped := stack_of_pops (hs.sustained hvisit).pools.addressable he₁.fetched hpop hret
          hstep₁
        have hlow : m₂.memory.stack.size = m₀.memory.stack.size := by
          simp [hpopped, hempty]
        rcases Nat.lt_or_eq_of_le hkj with hlt | rfl
        · obtain ⟨_, _, hlater⟩ := visit_of_le hclose.visit_eq hlt
          obtain ⟨pc₂, z₂, m₃, he₂, -⟩ := visit_succ hlater
          obtain ⟨-, rfl⟩ := Prod.mk.inj (Option.some.inj (he₂.visit_eq.symm.trans hnext))
          have := hc.least (k + 1) pc₂ z₂ _ (by omega) hlt he₂
          omega
        · obtain ⟨-, rfl⟩ := Prod.mk.inj (Option.some.inj (hclose.visit_eq.symm.trans hnext))
          have := hc.height
          omega
    obtain ⟨n', u', τ', rfl, hbody'⟩ :=
      hbody.step hs hik (hcont.size_le.trans hr) he₁ hpops hstep₁
    exact ⟨next, n', u', τ', hnext, hbody'⟩

theorem toInt_back {pc : Int} {p : Program} {z : Instruction}
    (hz : instructionAt? p pc = some z) (hsize : p.code.size < 2 ^ 63) :
    (Int64.ofInt (pc + 1)).toInt = pc + 1 := by
  have hpc : 0 ≤ pc ∧ pc.toNat < p.code.size := by
    unfold instructionAt? at hz
    split at hz
    · cases hz
    · exact ⟨by omega, (Array.getElem?_eq_some_iff.mp hz).1⟩
  rw [Int64.toInt_ofInt_of_le] <;> omega

/-- Calls and returns of every run of the machine.  Every step that the run counts is one of the
steps that are spoken of here.  A return that closes a call continues behind the call, and leaves the
stack as the call found it with the value of the return on top; before that all arguments have been
taken from the stack, later ones first.  A call whose operands are there fails as a recursive one
exactly if its function has been called before in the run and no return has named it since; the stack
and the running functions stay as they are. -/
theorem calls_return (hl : l.Hosted) (hm : Reached l false (.idle m))
    (hsize : l.program.code.size < 2 ^ 63) :
    (∀ patience trace, ∀ k < (interpret l.environment patience m.world m.memory trace).stats.steps,
      ∃ pc z n, Executes l.environment { m with running := [] } k pc z n) ∧
    (∀ {i j : Nat} {pc pc' : Int} {z z' : Instruction} {n n' : Machine},
      Executes l.environment { m with running := [] } i pc z n → z.opcode = .call →
      Executes l.environment { m with running := [] } j pc' z' n' → z'.opcode = .ret →
      Closes l.environment { m with running := [] } i n j n' →
      (∃ r args f n₁ τ, visit l.environment { m with running := [] } (i + 1) = some (f, n₁) ∧
        n₁.memory.stack = n.memory.stack.push r ++ args.toArray ∧
        List.Forall₂ (fun y c => n.Passes y n₁.store c) (z.operands.drop 2) args ∧
        Takes l.environment { m with running := [] } (n.memory.stack.push r) args i 0 j τ) ∧
      ∀ next n'', Machine.step l.environment pc' n' = .ok next n'' → next = pc + 1 ∧
        ∃ c, n''.memory.stack = n.memory.stack.push c ∧ n'.Passes (valueOf z') n''.store c) ∧
    ∀ {k : Nat} {pc : Int} {z : Instruction} {n : Machine},
      Executes l.environment { m with running := [] } k pc z n → z.opcode = .call →
      (∃ ops n₁, fetchAll z.operands n = .ok ops n₁) →
      ((∃ e n', Machine.step l.environment pc n = .error (.data e) n' ∧
          e.cause.kind = .recursiveCall) ↔
        ∃ f, n.Names z f ∧ Pending l.environment { m with running := [] } k f) ∧
      ∀ e n', Machine.step l.environment pc n = .error (.data e) n' →
        n'.memory.stack = n.memory.stack ∧ n'.running = n.running := by
  have hs : l.Starts { m with running := [] } := ⟨hl, hm.interpret, rfl⟩
  refine ⟨fun patience trace k hk => ?_, fun {i j pc pc' z z' n n'} he hop he' hop' hc => ?_,
    fun {k pc z n} he hop hfetch => ?_⟩
  · let x : Traced := { machine := { world := m.world, memory := m.memory }, trace := trace }
    have hx : visit l.environment { m with running := [] } 0 = some (0, x.machine) := rfl
    have hlt : k < (driveAll l.program.code.size (Traced.step l.environment) patience x).2.1 := hk
    rw [driveAll_eq] at hlt
    exact executes_of_lt_steps rfl patience.stop hx (fun k hk => absurd hk (Nat.not_lt_zero k)) k hlt
  · obtain ⟨r, args, f, n₁, hfirst, hstack, hargs, hbody⟩ := inBody_of_closes hs he hop he' hc
    obtain ⟨_, n₂, u, τ, hvisit, hbody⟩ := hbody j hc.lt (Nat.le_refl j)
    obtain ⟨rfl, rfl⟩ := Prod.mk.inj (Option.some.inj (he'.visit_eq.symm.trans hvisit))
    -- nothing lies over the return address
    obtain ⟨T, hT⟩ := hbody.stack
    have hheight := hc.height
    have hleft := hbody.left
    simp only [stack_above, hT, Array.size_append, Array.size_push, List.size_toArray,
      List.length_take] at hheight
    obtain rfl : u = 0 := by omega
    have hempty : n₂.memory.stack = #[] := by
      refine Array.eq_empty_of_size_eq_zero ?_
      simp only [hT, Array.size_append, List.size_toArray, List.length_take]
      omega
    refine ⟨⟨r, args, f, n₁, τ, hfirst, hstack, hargs, hbody.takes⟩, fun next n'' hstep => ?_⟩
    obtain ⟨S, r', hS, ⟨v, hv, hnext⟩, -, c, hc', hpass⟩ :=
      step_ret (hs.sustained he'.visit_eq).pools he'.fetched hop' hstep
    rw [stack_above, hempty, Array.append_empty] at hS
    obtain ⟨hr, hS⟩ := Array.push_eq_push.mp hS
    refine ⟨?_, c, hS ▸ hc', hpass⟩
    have hback : n₂.store.int r = .ok (Int64.ofInt (pc + 1)) := hbody.awaits.holds.int_eq
    rw [← hr] at hv
    rw [hnext, ← Except.ok.inj (hback.symm.trans hv)]
    exact toInt_back he.fetched hsize
  · have hcont := hs.sustained he.visit_eq
    obtain ⟨hiff, hkeep⟩ := step_call_recursive hcont.pools (hl.admissible he.fetched) he.fetched hop
      hfetch
    refine ⟨hiff.trans ⟨?_, ?_⟩, fun e n' h => ⟨congrArg Memory.stack (hkeep e n' h).1,
      (hkeep e n' h).2⟩⟩
    · rintro ⟨f, hf, hnames⟩
      exact ⟨f, hnames, (hs.mem_running he.visit_eq).mp hf⟩
    · rintro ⟨f, hnames, hf⟩
      exact ⟨f, (hs.mem_running he.visit_eq).mpr hf, hnames⟩

theorem hosted_on {p : Program} {linker : Option Linker} {src : String}
    (hasm : (Assembler.assemble src {}).toOption = some p)
    (hok : (Memory.allocate {} p.layout #[]).toOption.isSome = true)
    (hlink : ∀ link, linker = some link → link.Confined) :
    (Launch.on p linker {} #[]).Hosted :=
  ⟨prepared_on hasm Store.sound_empty (by simp) hok, fun link h => (hlink link h).reaches _⟩

/-- Calls a function with the argument 7, which the function drops before it returns 5. -/
def callsDropping : Program where
  code := #[
    { opcode := .call, types := [.int], operands := [.absent, ⟨.constants, 0⟩, ⟨.constants, 1⟩] },
    { opcode := .nop, types := [.void] },
    { opcode := .finish, types := [.void] },
    { opcode := .nop, types := [.void] },
    { opcode := .pop, types := [.void] },
    { opcode := .ret, types := [.int], operands := [.absent, ⟨.constants, 0⟩, ⟨.constants, 2⟩] }]
  labels := ⟨[("&f", 3)]⟩
  constants := ⟨[("~int:5", 2), ("~int:7", 1), ("~int:3", 0)]⟩
  extent := { constants := 2 }

/-- The return at the fourth step continues behind the call, with its value alone on the stack. -/
theorem calls_return_dropping :
    let l := Launch.on callsDropping none {} #[]
    l.Hosted ∧ ∃ pc z n next n', Executes l.environment l.machine 3 pc z n ∧ z.opcode = .ret ∧
      Machine.step l.environment pc n = .ok next n' ∧ next = 1 ∧ n'.memory.stack.size = 1 := by
  intro l
  have hasm : (Assembler.assemble
      "CALL int - &f ~int:7; END void; #LABEL &f; POP void; RET int - &f ~int:5;" {}).toOption =
      some callsDropping := by decide +kernel
  have hl : l.Hosted := hosted_on hasm (by decide +kernel) nofun
  have hheight : [1, 2, 3].map (fun k => (visit l.environment l.machine k).map fun x =>
      (x.1, x.2.memory.stack.size)) = [some (3, 2), some (4, 2), some (5, 1)] := by decide +kernel
  simp only [List.map_cons, List.map_nil, List.cons.injEq, and_true, Option.map_eq_some_iff,
    Prod.mk.injEq, Prod.exists] at hheight
  obtain ⟨⟨_, n₁, h₁, rfl, s₁⟩, ⟨_, n₂, h₂, rfl, s₂⟩, _, n, h₃, rfl, s₃⟩ := hheight
  have hcall : Executes l.environment l.machine 0 0 callsDropping.code[0] l.machine := ⟨rfl, rfl⟩
  have hret : Executes l.environment l.machine 3 5 callsDropping.code[5] n := ⟨h₃, rfl⟩
  have hbetween : ∀ k pc z n, 0 < k → k < 3 → Executes l.environment l.machine k pc z n →
      n.memory.stack.size = 2 := by
    intro k pc z n hpos hlt he
    have hk : k = 1 ∨ k = 2 := by omega
    rcases hk with rfl | rfl
    · obtain ⟨-, rfl⟩ := Prod.mk.inj (Option.some.inj (he.visit_eq.symm.trans h₁))
      exact s₁
    · obtain ⟨-, rfl⟩ := Prod.mk.inj (Option.some.inj (he.visit_eq.symm.trans h₂))
      exact s₂
  have hcloses : Closes l.environment l.machine 0 l.machine 3 n := by
    refine ⟨by decide, s₃, fun k pc z n' hpos hlt he => ?_, fun k pc z n' hpos hlt he _ => ?_⟩
    · rw [hbetween k pc z n' hpos hlt he]
      decide
    · rw [hbetween k pc z n' hpos hlt he]
      decide
  obtain ⟨x, hx⟩ := Option.isSome_iff_exists.mp
    (show (visit l.environment l.machine 4).isSome = true by decide +kernel)
  obtain ⟨next, m'⟩ := x
  obtain ⟨pc, z, n', he, hstep⟩ := visit_succ hx
  obtain ⟨rfl, rfl, rfl⟩ := hret.unique he
  obtain ⟨-, hreturns, -⟩ := calls_return hl .allocated (by decide)
  obtain ⟨hnext, c, hstack, -⟩ := (hreturns hcall rfl hret rfl hcloses).2 _ _ hstep
  refine ⟨hl, 5, _, _, next, m', hret, rfl, hstep, hnext, ?_⟩
  rw [hstack]
  rfl

/-- Calls a function that calls itself with an argument that is not bound. -/
def callsUnbound : Program where
  code := #[
    { opcode := .call, types := [.void], operands := [.absent, ⟨.constants, 0⟩] },
    { opcode := .nop, types := [.void] },
    { opcode := .finish, types := [.void] },
    { opcode := .nop, types := [.void] },
    { opcode := .call, types := [.void], operands := [.absent, ⟨.constants, 0⟩, ⟨.globals, 0⟩] },
    { opcode := .nop, types := [.void] }]
  labels := ⟨[("&f", 3)]⟩
  constants := ⟨[("~int:3", 0)]⟩
  extent := { globals := 0, constants := 0 }

/-- Whether a step ends in an abort. -/
def aborts : EStateM.Result Stop Machine Int → Bool
  | .error (.abort _) _ => true
  | _ => false

/-- The second call names a function that is running, but aborts when it fetches its argument. -/
theorem calls_unbound :
    let l := Launch.on callsUnbound none {} #[]
    l.Hosted ∧ ∃ pc z n f, Executes l.environment l.machine 2 pc z n ∧ z.opcode = .call ∧
      n.Names z f ∧ Pending l.environment l.machine 2 f ∧
      ∃ a n', Machine.step l.environment pc n = .error (.abort a) n' := by
  intro l
  have hasm : (Assembler.assemble "CALL void - &f; END void; #LABEL &f; CALL void - &f G0;"
      {}).toOption = some callsUnbound := by decide +kernel
  have hl : l.Hosted := hosted_on hasm (by decide +kernel) nofun
  have hrun : (visit l.environment l.machine 2).map (fun x => (x.1, x.2.running,
      (x.2.memory.cell? ⟨.constants, 0⟩).bind fun c => (x.2.store.int c).toOption,
      aborts (Machine.step l.environment x.1 x.2))) = some (4, [3], some 3, true) := by
    decide +kernel
  simp only [Option.map_eq_some_iff, Prod.mk.injEq, Prod.exists, Option.bind_eq_some_iff] at hrun
  obtain ⟨_, n, hvisit, rfl, hrunning, ⟨c, hc, hv⟩, hstep⟩ := hrun
  have hs : l.Starts l.machine := ⟨hl, .interpret .allocated, rfl⟩
  have hpending : Pending l.environment l.machine 2 3 := by
    rw [← hs.mem_running hvisit, hrunning]
    exact List.mem_singleton.mpr rfl
  have hnames : n.Names callsUnbound.code[4] 3 :=
    ⟨⟨.constants, 0⟩, c, 3, rfl, hc, eq_ok_of_toOption hv, rfl⟩
  refine ⟨hl, 4, callsUnbound.code[4], n, 3, ⟨hvisit, rfl⟩, rfl, hnames, hpending, ?_⟩
  unfold aborts at hstep
  split at hstep
  · rename_i a n' habort
    exact ⟨a, n', habort⟩
  · cases hstep

end Launch

end VectorMachine
