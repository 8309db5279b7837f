import VectorMachine.Proofs.Machine.Frames
import VectorMachine.Proofs.Machine.Pools
import VectorMachine.Proofs.Machine.Progress

/-!
# Calls and returns

What a successful call and a successful return do to the stack and to the set of running functions.
A call pushes its return address in a container of its own, which nothing else shows, and then its
arguments; a return takes the top of the stack for its return address.  No other instruction changes
the set of running functions.
-/

namespace VectorMachine
set_option autoImplicit false

open Store (Alters)

theorem Store.Holds.clone_holds {s t : Store} {c d : CellId} {v : Scalar}
    (h : s.Holds c (some v)) (hs : s.Sound) (hc : s.clone c = .ok (d, t)) :
    d = s.cells.size ∧ s.Adds t ∧ t.Holds d (some v) := by
  have htouches := Store.Touches.of_clone Store.region_new hc
  have hfresh : s.fresh.2.Holds s.cells.size none := by simp [Store.Holds, Store.cell_of_le]
  obtain ⟨w, u, hw, -, hu, hst⟩ := Store.alloc_holds_none
    ((Store.Touches.fresh Store.region_new).sound hs) (Store.isolated_fresh hs) hfresh
    v.isConcrete_type
  have hvoid : s.isVoid c = false := by rw [h.isVoid_eq]; rfl
  have htype : s.type c = v.type := by rw [h.type_eq]; rfl
  simp only [Store.clone, hvoid, htype, h.lengths_eq, Store.fresh_fst, hu, h.window_eq,
    Bool.false_eq_true, if_false, Store.ok_bind, Except.ok.injEq, Prod.mk.injEq] at hc
  obtain ⟨rfl, rfl⟩ := hc
  have hwrite := Store.stores_write hst.isolated hst.holds hw
  refine ⟨rfl, ⟨htouches, fun c hge hlt => ?_⟩, hwrite.holds⟩
  have hsize : (u.write s.cells.size (Lanes.ofScalar v)).cells.size = s.cells.size + 1 := by
    rw [hwrite.size_eq, hst.size_eq, Store.size_cells_fresh]
  obtain rfl : c = s.cells.size := by omega
  exact hwrite.isolated

namespace Machine

variable {m m' : Machine} {α β ε : Type} {pc next f : Int} {z : Instruction} {ops : List CellId}
  {env : Environment}

theorem bind_ok {x : EStateM ε Machine α} {g : α → EStateM ε Machine β} {b : β} :
    (x >>= g) m = .ok b m' ↔ ∃ a m₁, x m = .ok a m₁ ∧ g a m₁ = .ok b m' := by
  simp only [bind, EStateM.bind]
  cases x m <;> simp

theorem bind_error {x : EStateM ε Machine α} {g : α → EStateM ε Machine β} {e : ε} :
    (x >>= g) m = .error e m' ↔
      x m = .error e m' ∨ ∃ a m₁, x m = .ok a m₁ ∧ g a m₁ = .error e m' := by
  simp only [bind, EStateM.bind]
  cases x m <;> simp

/-! ### What else does not change the set of running functions -/

/-- A computation leaves the set of running functions. -/
def Quiet (x : EStateM ε Machine α) : Prop := ∀ m, (finalState (x m)).running = m.running

theorem Quiet.bind {x : EStateM ε Machine α} {g : α → EStateM ε Machine β} (hx : Quiet x)
    (hg : ∀ a, Quiet (g a)) : Quiet (x >>= g) := by
  intro m
  have h := hx m
  simp only [Bind.bind, EStateM.bind]
  cases hr : x m with
  | ok a m₁ =>
    rw [hr] at h
    exact (hg a m₁).trans h
  | error e m₁ =>
    rw [hr] at h
    exact h

theorem Quiet.pure (a : α) : Quiet (Pure.pure a : EStateM ε Machine α) := fun _ => rfl

theorem Quiet.throw (e : ε) : Quiet (MonadExcept.throw e : EStateM ε Machine α) := fun _ => rfl

theorem Quiet.get : Quiet (MonadState.get : EStateM ε Machine Machine) := fun _ => rfl

theorem quiet_consult (g : Machine → Except Failure α) : Quiet (consult g) := by
  intro m
  unfold consult
  split <;> rfl

theorem quiet_onStore (g : Store → Except Failure Store) : Quiet (onStore g) := by
  intro m
  unfold onStore
  split <;> rfl

theorem quiet_onDestination (g : CellId → Store → Except Failure Store) :
    Quiet (onDestination ops g) := by
  cases ops with
  | nil => exact .throw _
  | cons d ops => exact quiet_onStore _

theorem quiet_push (c : CellId) : Quiet (push c) := fun _ => rfl

theorem quiet_pop : Quiet pop := by
  intro m
  unfold pop
  split <;> rfl

theorem quiet_handedOver (y : Operand) (c : CellId) : Quiet (handedOver y c) := by
  intro m
  unfold handedOver
  split
  · split <;> rfl
  · rfl

theorem quiet_handedOverAll (ys : List Operand) (cs : List CellId) :
    Quiet (handedOverAll ys cs) := by
  induction ys generalizing cs with
  | nil => exact .pure _
  | cons y ys ih =>
    cases cs with
    | nil => exact .pure _
    | cons c cs => exact (quiet_handedOver y c).bind fun _ => (ih cs).bind fun _ => .pure _

theorem quiet_pushAll (ys : List Operand) (cs : List CellId) : Quiet (pushAll ys cs) := by
  induction ys generalizing cs with
  | nil => exact .pure _
  | cons y ys ih =>
    cases cs with
    | nil => exact .pure _
    | cons c cs => exact (quiet_handedOver y c).bind fun _ => (quiet_push _).bind fun _ => ih cs

theorem quiet_pushValue : Quiet (pushValue z ops) := by
  unfold pushValue
  split
  · exact (quiet_handedOver _ _).bind fun _ => quiet_push _
  · exact fun _ => rfl

theorem quiet_invoke (p : Program) (link : Linker) (index : Int) (args : List CellId)
    (result : CellId) : Quiet (invoke p link index args result) := by
  intro m
  unfold invoke
  split <;> rfl

theorem quiet_callExternal (env : Environment) : Quiet (callExternal env z ops) := by
  unfold callExternal
  split
  · exact .throw _
  · refine (quiet_consult _).bind fun _ => (quiet_handedOverAll _ _).bind fun _ => ?_
    exact quiet_invoke _ _ _ _ _
  · exact .throw _

theorem quiet_endFunction (p : Program) : Quiet (endFunction p ops) := by
  refine Quiet.bind ?_ fun _ => .throw _
  cases ops with
  | nil => exact .pure _
  | cons c cs =>
    refine Quiet.get.bind fun n => ?_
    cases n.world.store.type c
    case string => exact quiet_consult _
    case int => exact (quiet_consult _).bind fun _ => .pure _
    all_goals exact .pure _

theorem quiet_execute (hcall : z.opcode ≠ .call) (hret : z.opcode ≠ .ret) :
    Quiet (execute env pc z ops) := by
  unfold execute
  split
  · exact (quiet_onStore _).bind fun _ => .pure _
  unfold control
  cases hop : z.opcode
  case call => exact absurd hop hcall
  case ret => exact absurd hop hret
  case allocTop =>
    exact (quiet_consult _).bind fun _ => (quiet_onDestination _).bind fun _ => .pure _
  case pop => exact quiet_pop.bind fun _ => .pure _
  case movePop | referPop =>
    exact quiet_pop.bind fun _ => (quiet_onDestination _).bind fun _ => .pure _
  case jump on =>
    rcases ops with _ | ⟨_, _ | ⟨target, _ | ⟨condition, ops⟩⟩⟩
    case cons.cons.cons =>
      refine (quiet_consult _).bind fun b => ?_
      cases b with
      | true => exact quiet_consult _
      | false => exact .pure _
    all_goals exact .throw _
  case callExternal => exact (quiet_callExternal env).bind fun _ => .pure _
  case endFunction => exact (quiet_endFunction _).bind fun _ => .pure _
  case finish | nop | label | allocType | endParameters => exact .pure _
  all_goals exact .throw _

theorem step_eq_ok (ha : m.Addressable) (hz : instructionAt? env.program pc = some z) :
    step env pc m = .ok next m' ↔ ∃ k ops, fetchAll z.operands m = .ok ops (m.grown k) ∧
      FetchedAll m k z.operands ops ∧ execute env pc z ops (m.grown k) = .ok next m' := by
  refine (step_eq_ok_iff hz).trans ⟨?_, ?_⟩
  · rintro ⟨k, ops, hf, hops, he⟩
    exact ⟨k, ops, hf, hops.imp fun y c hc => ⟨hc.1, hc.1.lt_of_addressable ha hc.2⟩, he⟩
  · rintro ⟨k, ops, hf, hops, he⟩
    exact ⟨k, ops, hf, hops.imp fun y c hc => ⟨hc.1, fun _ => hc.2⟩, he⟩

theorem running_of_step (ha : m.Addressable) (hz : instructionAt? env.program pc = some z)
    (hcall : z.opcode ≠ .call) (hret : z.opcode ≠ .ret) (h : step env pc m = .ok next m') :
    m'.running = m.running := by
  obtain ⟨k, ops, -, -, he⟩ := (step_eq_ok ha hz).mp h
  have hquiet : Quiet (execute env pc z ops) := quiet_execute hcall hret
  have hq := hquiet (m.grown k)
  rw [he] at hq
  exact hq

/-- The second operand of an instruction holds an address. -/
def Names (m : Machine) (z : Instruction) (f : Int) : Prop :=
  ∃ y c v, z.operands[1]? = some y ∧ m.memory.cell? y = some c ∧ m.store.int c = .ok v ∧
    v.toInt = f

theorem names_of_int {k : Nat} {y : Operand} {c : CellId} {v : Int64} (hs : m.store.Sound)
    (hy : z.operands[1]? = some y) (hc : Fetched m y c) (hv : (m.grown k).store.int c = .ok v) :
    m.Names z v.toInt := by
  refine ⟨y, c, v, hy, cell?_of_fetched hc (type_ne_void_of_int hv), ?_, rfl⟩
  rw [← (alike_grown hs k c).int_eq]
  exact hv

/-! ### Calls -/

/-- A container that waits below the stack: it holds an integer, and nothing that the machine can
address or find on its stack shows it. -/
structure Awaits (r : CellId) (v : Int64) (m : Machine) : Prop where
  sound : m.store.Sound
  isolated : m.store.Isolated r
  holds : m.store.Holds r (some (.int v))
  within : m.Within (· ≠ r)
  addressable : m.Addressable
  away : ∀ {y : Operand}, y.part ≠ .stack → m.memory.cell? y ≠ some r

theorem Awaits.moves {r : CellId} {v : Int64} (h : m.Awaits r v) (hm : Moves (· ≠ r) m m') :
    m'.Awaits r v where
  sound := hm.touches.sound h.sound
  isolated := h.isolated.of_touches hm.touches h.sound (by simp)
  holds := h.holds.of_touches h.isolated hm.touches h.sound (by simp)
  within := hm.within h.within
  addressable := hm.addressable h.addressable
  away hy := by
    rw [hm.cell? hy]
    exact h.away hy

/-- The container that a call or a return passes for an operand: the one that the operand stands for,
a copy of it if it is a constant, and a new void container if there is no operand. -/
def Passes (m : Machine) (y : Operand) (s : Store) (c : CellId) : Prop :=
  match y.part with
  | .absent => m.store.cells.size ≤ c ∧ s.Isolated c ∧ s.Holds c none
  | .constants => m.store.cells.size ≤ c ∧ s.Isolated c ∧
      ∃ d v, m.memory.cell? y = some d ∧ m.store.Holds d (some v) ∧ s.Holds c (some v)
  | _ => m.memory.cell? y = some c

theorem Passes.adds {y : Operand} {s t : Store} {c : CellId} (h : m.Passes y s c) (hs : s.Sound)
    (ha : s.Adds t) : m.Passes y t c := by
  unfold Passes at *
  split at h
  · exact ⟨h.1, ha.isolated_old hs h.2.1, ha.holds_old hs h.2.1 h.2.2⟩
  · obtain ⟨hc, hi, d, v, hd, hv, hold⟩ := h
    exact ⟨hc, ha.isolated_old hs hi, d, v, hd, hv, ha.holds_old hs hi hold⟩
  · exact h

theorem passes_handedOver {p : Program} {k : Nat} {n n' : Machine} {y : Operand} {c d : CellId}
    (hp : m.Pools p) (hc : Fetched m y c ∧ c < (m.grown k).store.cells.size)
    (ha : (m.grown k).store.Adds n.store) (h : handedOver y c n = .ok d n') :
    n'.memory = n.memory ∧ n.store.Adds n'.store ∧ m.Passes y n'.store d := by
  have hadd := Store.Adds.freshMany hp.sound k
  have hsg : (m.grown k).store.Sound := hadd.touches.sound hp.sound
  have hsn : n.store.Sound := ha.touches.sound hsg
  unfold handedOver at h
  split at h
  · rename_i hy
    split at h
    · rename_i e s hclone
      cases h
      have hcell : m.memory.cell? y = some c := by simpa [Fetched, hy] using hc.1
      obtain ⟨v, hv⟩ := hp.holds hy hcell
      have hiso := hp.isolated c (mem_constants_of_cell? hy hcell)
      have hv₁ := hadd.holds_old hp.sound hiso hv
      have hv₂ := ha.holds_old hsg (hadd.isolated_old hp.sound hiso) hv₁
      obtain ⟨rfl, hadds, hold⟩ := hv₂.clone_holds hsn hclone
      refine ⟨rfl, hadds, ?_⟩
      have hle : m.store.cells.size ≤ n.store.cells.size := hadd.size_le.trans ha.size_le
      have hlt : n.world.store.cells.size < s.cells.size := (Store.clone_new hclone).2
      simp only [Passes, hy]
      exact ⟨hle, hadds.isolated _ (Nat.le_refl _) hlt, c, v, hcell, hv, hold⟩
    · cases h
  · rename_i hy
    cases h
    refine ⟨rfl, .refl, ?_⟩
    by_cases habs : y.part = .absent
    · have hge : m.store.cells.size ≤ c := by simpa [Fetched, habs] using hc.1
      have hiso := hadd.isolated c hge hc.2
      have hvoid : (m.grown k).store.Holds c none := by
        simp [Store.Holds, grown, store, Store.cell_freshMany, Store.cell_of_le hge]
      simp only [Passes, habs]
      exact ⟨hge, ha.isolated_old hsg hiso, ha.holds_old hsg hiso hvoid⟩
    · have hcell : m.memory.cell? y = some c := by simpa [Fetched, habs] using hc.1
      unfold Passes
      split <;> first | contradiction | exact hcell

theorem passes_pushAll {p : Program} {k : Nat} {n n' : Machine} {ys : List Operand}
    {cs : List CellId} {u : Unit} (hp : m.Pools p) (hcs : FetchedAll m k ys cs)
    (ha : (m.grown k).store.Adds n.store) (h : pushAll ys cs n = .ok u n') :
    n.store.Adds n'.store ∧ ∃ args : List CellId,
      n'.memory.stack = n.memory.stack ++ args.toArray ∧
      List.Forall₂ (fun y c => m.Passes y n'.store c) ys args := by
  have hsg : (m.grown k).store.Sound :=
    (Store.Adds.freshMany hp.sound k).touches.sound hp.sound
  induction hcs generalizing n with
  | nil =>
    cases h
    exact ⟨.refl, [], by simp, .nil⟩
  | cons hc hcs ih =>
    obtain ⟨d, n₁, h₁, h⟩ := bind_ok.mp h
    obtain ⟨_, n₂, h₂, h⟩ := bind_ok.mp h
    cases h₂
    obtain ⟨hmem, hadd, hpass⟩ := passes_handedOver hp hc ha h₁
    obtain ⟨hadd', args, hstack, hargs⟩ :=
      ih (n := { n₁ with memory := n₁.memory.push d }) (ha.trans hsg hadd) h
    have hsn : n₁.store.Sound := hadd.touches.sound (ha.touches.sound hsg)
    refine ⟨hadd.trans (ha.touches.sound hsg) hadd', d :: args, ?_,
      .cons (hpass.adds hsn hadd') hargs⟩
    rw [hstack]
    simp [Memory.push, hmem]

/-- The machine that a call leaves below its arguments: the return address is pushed, and nothing
lies on top of it. -/
def entered (m : Machine) (f : Int) (back : Int64) : Machine :=
  { world := ⟨(m.store.ofScalar (.int back)).2, m.world.journal⟩
    memory := { m.memory with stack := #[] }
    running := f :: m.running }

theorem pushScalar_entered (f : Int) (back : Int64) :
    pushScalar (.int back) { m with running := f :: m.running } =
      .ok () ((m.entered f back).above (m.memory.stack.push m.store.cells.size)) := by
  have habove : (m.entered f back).above (m.memory.stack.push m.store.cells.size) =
      { m.entered f back with memory := m.memory.push m.store.cells.size } := by
    simp [above, entered, Memory.push]
  rw [habove]
  rfl

theorem awaits_entered (hs : m.store.Sound) (ha : m.Addressable) (f : Int) (back : Int64) :
    (m.entered f back).Awaits m.store.cells.size back := by
  have hst := Store.stores_ofScalar (v := .int back) hs
  have hadd := Store.Adds.ofScalar hs (.int back)
  have hcell : ∀ {y : Operand} {c : CellId}, (m.entered f back).memory.cell? y = some c →
      c < m.store.cells.size := by
    intro y c hc
    by_cases hy : y.part = .stack
    · have := Memory.mem_stack_of_cell? hy hc
      simp [entered] at this
    · refine ha y c (.trans ?_ hc)
      exact Memory.cell?_of_stack_ne (m := (m.entered f back).memory) rfl rfl rfl rfl hy
  refine ⟨hadd.touches.sound hs, hst.isolated, hst.holds, ⟨?_, by simp [entered]⟩, ?_, ?_⟩
  · exact Store.region_of_isolated (P := (· = m.store.cells.size)) fun c hc => hc ▸ hst.isolated
  · intro y c hc
    exact Nat.lt_of_lt_of_le (hcell hc) hadd.size_le
  · intro y _ hc
    exact Nat.lt_irrefl _ (hcell hc)

theorem adds_entered (hs : m.store.Sound) (f : Int) (back : Int64) :
    m.store.Adds (m.entered f back).store := Store.Adds.ofScalar hs _

/-- A call that succeeds pushes its return address and then its arguments. -/
theorem step_call {p : Program} (hp : m.Pools p) (hz : instructionAt? env.program pc = some z)
    (hop : z.opcode = .call) (h : step env pc m = .ok next m') :
    m.Names z next ∧ next ∉ m.running ∧ m'.running = next :: m.running ∧
      ∃ (r : CellId) (n : Machine) (args : List CellId),
        m' = n.above (m.memory.stack.push r) ∧ n.Awaits r (Int64.ofInt (pc + 1)) ∧
        m.store.cells.size ≤ r ∧ n.memory.stack = args.toArray ∧
        List.Forall₂ (fun y c => m.Passes y m'.store c) (z.operands.drop 2) args := by
  have hs := hp.sound
  obtain ⟨k, ops, -, hops, he⟩ := (step_eq_ok hp.addressable hz).mp h
  simp only [execute, change?, hop, control, call] at he
  rcases ops with _ | ⟨o, _ | ⟨target, args⟩⟩
  · cases he
  · cases he
  obtain ⟨f, m₁, haddr, he⟩ := bind_ok.mp he
  obtain ⟨rfl, v, hv, rfl⟩ := address_ok.mp haddr
  obtain ⟨_, m₁, hget, he⟩ := bind_ok.mp he
  cases hget
  split at he
  · obtain ⟨_, _, he, -⟩ := bind_ok.mp he
    cases he
  rename_i hrun
  obtain ⟨_, m₁, hmod, he⟩ := bind_ok.mp he
  cases hmod
  obtain ⟨_, m₁, hpush, he⟩ := bind_ok.mp he
  obtain ⟨_, m₂, hall, he⟩ := bind_ok.mp he
  cases he
  obtain ⟨y, hy, hc, -⟩ := hops.at (i := 1) rfl
  have hadd := Store.Adds.freshMany hs k
  have hsg : (m.grown k).store.Sound := hadd.touches.sound hs
  have hag : (m.grown k).Addressable := fun y c hc =>
    Nat.lt_of_lt_of_le (hp.addressable y c hc) (by simp)
  have hw := awaits_entered hsg hag v.toInt (Int64.ofInt (pc + 1))
  have hadd₁ := adds_entered hsg v.toInt (Int64.ofInt (pc + 1))
  -- the arguments are pushed as on an empty stack
  have habove : m₁ = ((m.grown k).entered v.toInt (Int64.ofInt (pc + 1))).above
      (m.memory.stack.push (m.grown k).store.cells.size) :=
    (EStateM.Result.ok.inj (hpush.symm.trans (pushScalar_entered _ _))).2
  have hframe := frames_pushAll (P := m.memory.stack.push (m.grown k).store.cells.size)
    (m := (m.grown k).entered v.toInt (Int64.ofInt (pc + 1))) (z.operands.drop 2) args
  rw [Frames, ← habove, hall] at hframe
  have hkeeps := keeps_pushAll hw.within fun i (y' : Operand) c (_ : (z.operands.drop 2)[i]? = _)
      (hci : args[i]? = _) _ => by
    have hlt := hops.lt c (by simp [List.mem_of_getElem? hci])
    exact ⟨Nat.ne_of_lt hlt, Nat.lt_of_lt_of_le hlt hadd₁.size_le⟩
  have hquiet := quiet_pushAll (z.operands.drop 2) args
    ((m.grown k).entered v.toInt (Int64.ofInt (pc + 1)))
  have hfetched : FetchedAll m k (z.operands.drop 2) args := List.forall₂_drop 2 hops
  cases hr : pushAll (z.operands.drop 2) args
      ((m.grown k).entered v.toInt (Int64.ofInt (pc + 1))) with
  | error e n =>
    rw [hr] at hframe
    cases hframe
  | ok u n =>
    rw [hr] at hframe hkeeps hquiet
    obtain ⟨-, rfl⟩ := EStateM.Result.ok.inj hframe
    obtain ⟨-, ds, hstack, hds⟩ := passes_pushAll hp hfetched hadd₁ hr
    refine ⟨names_of_int hs hy hc hv, by simpa using hrun, hquiet, _, n, ds, rfl,
      hw.moves hkeeps.1, hadd.size_le, ?_, hds⟩
    simpa [entered] using hstack

/-! ### Returns -/

/-- The operand of a return that gives its value. -/
def valueOf (z : Instruction) : Operand := (z.operands[2]?).getD .absent

theorem passes_pushValue {p : Program} {k : Nat} {n n' : Machine} {u : Unit} (hp : m.Pools p)
    (hops : FetchedAll m k z.operands ops) (ha : (m.grown k).store.Adds n.store)
    (h : pushValue z ops n = .ok u n') :
    ∃ c, n'.memory.stack = n.memory.stack.push c ∧ m.Passes (valueOf z) n'.store c := by
  have hadd := Store.Adds.freshMany hp.sound k
  have hsn : n.store.Sound := ha.touches.sound (hadd.touches.sound hp.sound)
  have hvalue : valueOf z = ((z.operands.drop 2)[0]?).getD .absent := by
    simp [valueOf]
  rw [hvalue]
  unfold pushValue at h
  have hdrop := List.forall₂_drop 2 hops
  generalize z.operands.drop 2 = ys, ops.drop 2 = cs at h hdrop
  cases hdrop with
  | nil =>
    cases h
    have hvoid : n.store.fresh.2.Holds n.store.cells.size none := by
      simp [Store.Holds, Store.cell_of_le]
    exact ⟨n.store.cells.size, rfl, Nat.le_trans hadd.size_le ha.size_le,
      Store.isolated_fresh hsn, hvoid⟩
  | @cons y c ys cs hc hdrop =>
    obtain ⟨d, n₁, h₁, h⟩ := bind_ok.mp h
    cases h
    obtain ⟨hmem, -, hpass⟩ := passes_handedOver hp hc ha h₁
    exact ⟨d, by simp [Memory.push, hmem], hpass⟩

/-- A return that succeeds continues at the address on top of the stack, and leaves its value in the
place of this address. -/
theorem step_ret {p : Program} (hp : m.Pools p) (hz : instructionAt? env.program pc = some z)
    (hop : z.opcode = .ret) (h : step env pc m = .ok next m') :
    ∃ (S : Array CellId) (r : CellId), m.memory.stack = S.push r ∧
      (∃ v, m.store.int r = .ok v ∧ next = v.toInt) ∧
      (∃ f, m.Names z f ∧ m'.running = m.running.filter (· ≠ f)) ∧
      ∃ c, m'.memory.stack = S.push c ∧ m.Passes (valueOf z) m'.store c := by
  have hs := hp.sound
  obtain ⟨k, ops, -, hops, he⟩ := (step_eq_ok hp.addressable hz).mp h
  simp only [execute, change?, hop, control, ret] at he
  obtain ⟨top, m₁, hpop, he⟩ := bind_ok.mp he
  have hpopped : ∃ S : Array CellId, m.memory.stack = S.push top ∧
      m₁ = { m.grown k with memory.stack := S } := by
    have htop := (pop_ok hpop).1
    obtain ⟨S, hS⟩ := Array.back?_eq_some_iff.mp htop
    rw [memory_grown] at hS
    simp only [pop, Memory.pop, memory_grown, hS, Array.back?_push, Array.pop_push,
      EStateM.Result.ok.injEq] at hpop
    exact ⟨S, hS, hpop.2.symm⟩
  obtain ⟨S, hS, rfl⟩ := hpopped
  obtain ⟨back, m₁, haddr, he⟩ := bind_ok.mp he
  obtain ⟨rfl, v, hv, rfl⟩ := address_ok.mp haddr
  obtain ⟨_, m₂, hpush, he⟩ := bind_ok.mp he
  obtain ⟨_, m₃, hleave, he⟩ := bind_ok.mp he
  cases he
  obtain ⟨c, hstack, hpass⟩ :=
    passes_pushValue (n := { m.grown k with memory.stack := S }) hp hops .refl hpush
  have hquiet : Quiet (pushValue z ops) := quiet_pushValue
  have hrunning := hquiet { m.grown k with memory.stack := S }
  rw [hpush] at hrunning
  have hnew : GrantsNew (m.grown k).store.adding { m.grown k with memory.stack := S } :=
    fun _ hc => hc
  have hadds : Effects _ _ (pushValue z ops _) := effects_pushValue hnew
  rw [hpush] at hadds
  have hint : ∀ d, (m.grown k).store.Alike d m.store d := alike_grown hs k
  unfold leave at hleave
  split at hleave
  · rename_i o target rest
    obtain ⟨f, m₄, haddr', hleave⟩ := bind_ok.mp hleave
    obtain ⟨rfl, w, hw, rfl⟩ := address_ok.mp haddr'
    cases hleave
    obtain ⟨y, hy, hc, hlt⟩ := hops.at (i := 1) rfl
    have hsg : (m.grown k).store.Sound :=
      (Store.Adds.freshMany hs k).touches.sound hs
    have halike := Alters.alike hadds hsg hlt
    refine ⟨S, top, hS, ⟨v, (hint top).int_eq ▸ hv, rfl⟩, ⟨w.toInt, ?_, ?_⟩, c, hstack, hpass⟩
    · exact names_of_int hs hy hc (k := k) (halike.int_eq.trans hw)
    · exact congrArg (List.filter (· ≠ w.toInt)) hrunning
  · cases hleave

/-! ### The body of a function -/

/-- An operation that removes the top of the stack and is no return leaves the rest. -/
theorem stack_of_pops (ha : m.Addressable) (hz : instructionAt? env.program pc = some z)
    (hpops : z.opcode.pops = true) (hret : z.opcode ≠ .ret) (h : step env pc m = .ok next m') :
    m'.memory.stack = m.memory.stack.pop := by
  obtain ⟨k, ops, -, -, he⟩ := (step_eq_ok ha hz).mp h
  have hpop : ∀ {c : CellId} {n : Machine}, pop (m.grown k) = .ok c n →
      n.memory.stack = m.memory.stack.pop := by
    intro c n hn
    simp only [pop, Memory.pop, memory_grown] at hn
    split at hn
    · rename_i hb
      split at hb
      · cases hb
        cases hn
        rfl
      · cases hb
    · cases hn
  have hdst : ∀ {f : CellId → Store → Except Failure Store} {u : Unit} {n n' : Machine},
      onDestination ops f n = .ok u n' → n'.memory = n.memory := by
    intro f u n n' hn
    cases ops with
    | nil => cases hn
    | cons d ops =>
      simp only [onDestination, onStore] at hn
      split at hn
      · cases hn
        rfl
      · cases hn
  cases hop : z.opcode <;> simp only [hop, Opcode.pops, Bool.false_eq_true] at hpops
  case ret => exact absurd hop hret
  all_goals
    simp only [execute, change?, hop, control] at he
    obtain ⟨top, m₁, hm₁, he⟩ := bind_ok.mp he
  case pop =>
    cases he
    exact hpop hm₁
  all_goals
    obtain ⟨_, m₂, hm₂, he⟩ := bind_ok.mp he
    cases he
    rw [hdst hm₂, hpop hm₁]

section Body

variable {n : Machine} {r : CellId} {v : Int64} {P : Array CellId} {p : Program}

theorem Awaits.ne_of_fetched {y : Operand} {c : CellId} (hn : n.Awaits r v) (hy : y.part ≠ .stack)
    (hc : Fetched n y c) : c ≠ r := by
  unfold Fetched at hc
  split at hc
  · exact fun he => Nat.not_lt.mpr hc (he ▸ hn.isolated.lt)
  · exact fun he => hn.away hy (he ▸ hc)

/-- A container is allocated in the shape of the top of the stack, even if this is the return
address. -/
theorem Awaits.step_allocTop (hn : n.Awaits r v) (ha : (n.above P).Addressable)
    (hz : instructionAt? env.program pc = some z) (htop : Topmost z) (hop : z.opcode = .allocTop)
    (h : step env pc (n.above P) = .ok next m') :
    ∃ n' : Machine, m' = n'.above P ∧ n'.Awaits r v ∧ n'.memory = n.memory := by
  obtain ⟨k, ops, -, hops, he⟩ := (step_eq_ok ha hz).mp h
  simp only [execute, change?, hop, control] at he
  obtain ⟨like, m₁, hpeek, he⟩ := bind_ok.mp he
  obtain ⟨_, m₂, halloc, he⟩ := bind_ok.mp he
  cases he
  obtain rfl : m₁ = (n.above P).grown k := by
    simp only [peek, consult] at hpeek
    split at hpeek
    · cases hpeek
      rfl
    · cases hpeek
  rcases ops with _ | ⟨d, ops⟩
  · cases halloc
  simp only [onDestination, onStore] at halloc
  split at halloc
  · rename_i s hs
    cases halloc
    obtain ⟨y, hy, hc, -⟩ := hops.at (i := 0) rfl
    have hstack : y.part ≠ .stack := htop.operands y (List.mem_of_getElem? hy)
    have hd : d ≠ r := by
      refine hn.ne_of_fetched hstack ?_
      unfold Fetched at *
      rwa [cell?_above hstack] at hc
    have hgrown : Store.Touches (· ≠ r) n.store (n.grown k).store := .freshMany hn.within.region k
    have htouches : Store.Touches (· ≠ r) (n.grown k).store s :=
      (Alters.of_allocateLike (g := { stores := (· ≠ r) }) hd hs).touches
        Store.Grant.within_stores (hgrown.region hn.within.region)
    refine ⟨⟨⟨s, n.world.journal⟩, n.memory, n.running⟩, rfl, hn.moves ?_, rfl⟩
    refine ⟨hgrown.trans htouches, rfl, rfl, rfl, rfl, fun c hc => ?_⟩
    have hold := hn.within.stack c hc
    exact ⟨hold.1, Nat.lt_of_lt_of_le hold.2 (hgrown.trans htouches).cells_le⟩
  · cases halloc

/-- A step over a return address that does not take it from the stack leaves it as it is.  Of what
lies on top of it, every lower part stays from which nothing is taken. -/
theorem Awaits.step (hn : n.Awaits r v) (ha : (n.above P).Addressable)
    (hz : instructionAt? env.program pc = some z) (htop : Topmost z)
    (hlink : ∀ link, env.linker = some link → link.StaysIn (· ≠ r))
    (hpops : z.opcode.pops = true → n.memory.stack ≠ #[])
    (h : step env pc (n.above P) = .ok next m') :
    ∃ n' : Machine, m' = n'.above P ∧ n'.Awaits r v ∧
      ∀ A T, n.memory.stack = A ++ T → (z.opcode.pops = true → T ≠ #[]) →
        ∃ T', n'.memory.stack = A ++ T' := by
  by_cases hop : z.opcode = .allocTop
  · obtain ⟨n', rfl, hn', hmem⟩ := hn.step_allocTop ha hz htop hop h
    exact ⟨n', rfl, hn', fun A T hA _ => ⟨T, hmem ▸ hA⟩⟩
  have hframe := frames_step (P := P) (m := n) hz htop fun hc => hpops (hc.resolve_right hop)
  rw [Frames, h] at hframe
  cases hr : Machine.step env pc n with
  | error e n' =>
    rw [hr] at hframe
    cases hframe
  | ok next' n' =>
    rw [hr] at hframe
    obtain ⟨rfl, rfl⟩ := EStateM.Result.ok.inj hframe
    have hmoves : Moves _ n (finalState (Machine.step env pc n)) :=
      Machine.moves_step hn.within hn.addressable hlink fun x hx i y c _ hy hc he => by
        rw [hz] at hx
        cases hx
        exact hn.away (htop.operands y (List.mem_of_getElem? hy)) (he ▸ hc)
    rw [hr] at hmoves
    refine ⟨n', rfl, hn.moves hmoves, fun A T hA hT => ?_⟩
    obtain ⟨n₁, rfl, rfl⟩ := exists_above hA
    have hlower := frames_step (P := A) (m := n₁) hz htop fun hc => hT (hc.resolve_right hop)
    rw [Frames, hr] at hlower
    cases hr₁ : Machine.step env pc n₁ with
    | error e n₂ =>
      rw [hr₁] at hlower
      cases hlower
    | ok next₂ n₂ =>
      rw [hr₁] at hlower
      obtain ⟨-, rfl⟩ := EStateM.Result.ok.inj hlower
      exact ⟨n₂.memory.stack, rfl⟩

end Body

/-! ### Calls of functions that are running -/

theorem pushAll_ne_data {ys : List Operand} {cs : List CellId} {c : DataCause} :
    pushAll ys cs m ≠ .error (.data c) m' := by
  induction ys generalizing cs m with
  | nil => exact nofun
  | cons y ys ih =>
    cases cs with
    | nil => exact nofun
    | cons d cs =>
      intro h
      rcases bind_error.mp h with h | ⟨e, n, -, h⟩
      · unfold handedOver at h
        split at h
        · split at h <;> cases h
        · cases h
      · rcases bind_error.mp h with h | ⟨_, n', -, h⟩
        · cases h
        · exact ih h

/-- A call fails with a data error exactly if the function that it names is running, and then
nothing has happened yet. -/
theorem call_eq_data {q : Program} {o target : CellId} {args : List CellId} {c : DataCause} :
    call q pc z (o :: target :: args) m = .error (.data c) m' ↔
      m' = m ∧ ∃ v, m.store.int target = .ok v ∧ v.toInt ∈ m.running ∧
        c = .alreadyRunning (functionName q v.toInt) := by
  constructor
  · intro h
    rcases bind_error.mp h with h | ⟨f, n, haddr, h⟩
    · simp only [address, consult] at h
      cases hv : m.world.store.int target <;>
        simp [hv, Except.map, Except.mapError] at h
    obtain ⟨rfl, v, hv, rfl⟩ := address_ok.mp haddr
    rcases bind_error.mp h with h | ⟨n', m₁, hget, h⟩
    · cases h
    cases hget
    split at h
    · rename_i hrun
      rcases bind_error.mp h with h | ⟨_, _, h, -⟩
      · cases h
        exact ⟨rfl, v, hv, by simpa using hrun, rfl⟩
      · cases h
    · -- what follows can abort only
      rcases bind_error.mp h with h | ⟨_, m₁, -, h⟩
      · cases h
      rcases bind_error.mp h with h | ⟨_, m₂, -, h⟩
      · cases h
      rcases bind_error.mp h with h | ⟨_, m₃, -, h⟩
      · exact absurd h pushAll_ne_data
      · cases h
  · rintro ⟨rfl, v, hv, hrun, rfl⟩
    refine bind_error.mpr (.inr ⟨v.toInt, m', address_ok.mpr ⟨rfl, v, hv, rfl⟩, ?_⟩)
    refine bind_error.mpr (.inr ⟨m', m', rfl, ?_⟩)
    rw [if_pos (by simpa using hrun)]
    exact bind_error.mpr (.inl rfl)

theorem names_iff {k : Nat} {o target : CellId} {args : List CellId} {f : Int}
    (hs : m.store.Sound) (hops : FetchedAll m k z.operands (o :: target :: args)) :
    m.Names z f ↔ ∃ v, (m.grown k).store.int target = .ok v ∧ v.toInt = f := by
  obtain ⟨y, hy, hc, -⟩ := hops.at (i := 1) rfl
  constructor
  · rintro ⟨y', d, v, hy', hd, hv, rfl⟩
    rw [hy] at hy'
    cases hy'
    have hne : y.part ≠ .absent := fun hp => by simp [Memory.cell?, hp, Memory.cells?] at hd
    rw [Fetched, if_neg hne, hd] at hc
    cases hc
    exact ⟨v, (alike_grown hs k target).int_eq.trans hv, rfl⟩
  · rintro ⟨v, hv, rfl⟩
    exact names_of_int hs hy hc hv

/-- A call whose operands are there fails as a recursive one exactly if the function that it names is
running; the stack and the running functions stay as they are. -/
theorem step_call_recursive {p : Program} (hp : m.Pools p) (hadm : z.Admissible p)
    (hz : instructionAt? env.program pc = some z) (hop : z.opcode = .call)
    (hfetch : ∃ ops m₁, fetchAll z.operands m = .ok ops m₁) :
    ((∃ e m', step env pc m = .error (.data e) m' ∧ e.cause.kind = .recursiveCall) ↔
      ∃ f ∈ m.running, m.Names z f) ∧
    ∀ e m', step env pc m = .error (.data e) m' → m'.memory = m.memory ∧ m'.running = m.running := by
  obtain ⟨ops, m₁, hf⟩ := hfetch
  obtain ⟨k, rfl, hops⟩ := fetchAll_ok hp.addressable hf
  have harity : 2 ≤ ops.length := by
    have harity := hadm.arity
    simp only [hop, Opcode.arity, Opcode.Arity.admits, Bool.and_eq_true,
      decide_eq_true_eq] at harity
    exact hops.length_eq ▸ harity.1
  rcases ops with _ | ⟨o, _ | ⟨target, args⟩⟩
  · simp at harity
  · simp at harity
  have hexec : execute env pc z (o :: target :: args) =
      call env.program pc z (o :: target :: args) := by
    simp only [execute, change?, hop, control]
  have hpools : (m.grown k).Pools p := hp.moves (moves_grown hp.within k)
  -- a data error of the step is one of the call, with the note of the instruction
  have hstep : ∀ e m', step env pc m = .error (.data e) m' ↔ ∃ c,
      call env.program pc z (o :: target :: args) (m.grown k) = .error (.data c) m' ∧
        dataStop pc z (o :: target :: args) c m' = .data e := by
    intro e m'
    simp only [step, hz, hf, hexec]
    cases call env.program pc z (o :: target :: args) (m.grown k) with
    | ok next n => simp
    | error a n =>
      cases a with
      | abort a => simp
      | data c =>
        simp only [EStateM.Result.error.injEq, Failure.data.injEq]
        constructor
        · rintro ⟨h, rfl⟩
          exact ⟨c, ⟨rfl, rfl⟩, h⟩
        · rintro ⟨c', ⟨rfl, rfl⟩, h⟩
          exact ⟨h, rfl⟩
  refine ⟨⟨?_, ?_⟩, fun e m' h => ?_⟩
  · rintro ⟨e, m', h, -⟩
    obtain ⟨c, hc, -⟩ := (hstep e m').mp h
    obtain ⟨rfl, v, hv, hrun, -⟩ := call_eq_data.mp hc
    exact ⟨v.toInt, hrun, (names_iff hp.sound hops).mpr ⟨v, hv, rfl⟩⟩
  · rintro ⟨f, hrun, hnames⟩
    obtain ⟨v, hv, rfl⟩ := (names_iff hp.sound hops).mp hnames
    obtain ⟨text, htext⟩ := hpools.exists_note hadm.notes
    let e : DataError := ⟨pc, z, (o :: target :: args).map (m.grown k).world.store.shape, text,
      .alreadyRunning (functionName env.program v.toInt)⟩
    refine ⟨e, m.grown k, (hstep e _).mpr ⟨_, call_eq_data.mpr ⟨rfl, v, hv, hrun, rfl⟩, ?_⟩, rfl⟩
    simp only [dataStop, htext, e]
  · obtain ⟨c, hc, -⟩ := (hstep e m').mp h
    obtain ⟨rfl, -⟩ := call_eq_data.mp hc
    exact ⟨rfl, rfl⟩

end Machine

end VectorMachine
