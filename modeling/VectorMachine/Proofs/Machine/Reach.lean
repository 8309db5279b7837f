import VectorMachine.Proofs.Store.Changes
import VectorMachine.Interpreter.Machine

/-!
# The reach of a step

An instruction exposes some of its operands: it stores into them, links them, or hands them over.
A step touches only a region that holds the cells of the exposed operands and of the stack, and
it leaves nothing but cells of that region on the stack.
-/

namespace VectorMachine
set_option autoImplicit false

namespace Instruction

/-- Whether the operand at a position is there and is no constant, so that it is handed over as it
is and not as a copy. -/
def handsOver (x : Instruction) (i : Nat) : Bool :=
  (x.operands[i]?).any fun y => y.part != .constants

/-- Whether an instruction may change, link or hand over its operand at a position. -/
def exposes (x : Instruction) (i : Nat) : Bool :=
  match x.opcode with
  | .refer | .referElement => decide (i < 2)
  | .call => decide (2 ≤ i) && x.handsOver i
  | .ret => i == 2 && x.handsOver i
  | .callExternal => i == 0 || (decide (2 ≤ i) && x.handsOver i)
  | op => op.writes && i == 0

end Instruction

/-- The state in which a computation ends, whatever its outcome. -/
def finalState {ε σ α : Type} : EStateM.Result ε σ α → σ
  | .ok _ s => s
  | .error _ s => s

/-- The value of a computation that succeeds, with the state in which it ends. -/
def success? {ε σ α : Type} : EStateM.Result ε σ α → Option (α × σ)
  | .ok a s => some (a, s)
  | .error _ _ => none

/-- The error of a computation that fails, with the state in which it ends. -/
def failure? {ε σ α : Type} : EStateM.Result ε σ α → Option (ε × σ)
  | .ok _ _ => none
  | .error e s => some (e, s)

section

variable {ε σ α : Type} {r : EStateM.Result ε σ α}

theorem exists_ok {p : α × σ → Bool} (h : (success? r).any p = true) :
    ∃ a s, r = .ok a s ∧ p (a, s) = true := by
  cases r with
  | ok a s => exact ⟨a, s, rfl, h⟩
  | error e s => cases h

theorem eq_ok_of_success {x : α × σ} (h : x ∈ success? r) : r = .ok x.1 x.2 := by
  cases r with
  | ok a s =>
    cases h
    rfl
  | error e s => cases h

theorem exists_error {p : ε × σ → Bool} (h : (failure? r).any p = true) :
    ∃ e s, r = .error e s ∧ p (e, s) = true := by
  cases r with
  | ok a s => cases h
  | error e s => exact ⟨e, s, rfl, h⟩

end

/-- Host code that stays in a region if it is handed containers of that region. -/
def Linker.StaysIn (link : Linker) (C : CellId → Prop) : Prop :=
  ∀ (w : World) (index : Int) (args : List CellId) (result : CellId),
    w.store.Region C → (∀ c ∈ result :: args, C c ∧ c < w.store.cells.size) →
      Store.Touches C w.store (finalState (link index args result w)).store

/-- Host code that touches only containers that it knows, those that it is handed, and what these
show. -/
def Linker.Reaches (link : Linker) (known : CellId → Prop) : Prop :=
  ∀ C : CellId → Prop, (∀ c, known c → C c) → link.StaysIn C

/-- Host code that knows no containers but those that it is handed. -/
def Linker.Confined (link : Linker) : Prop := ∀ C : CellId → Prop, link.StaysIn C

theorem Linker.Confined.reaches {link : Linker} (h : link.Confined) (known : CellId → Prop) :
    link.Reaches known :=
  fun C _ => h C

theorem Linker.Reaches.mono {link : Linker} {known known' : CellId → Prop}
    (h : link.Reaches known) (hk : ∀ c, known c → known' c) : link.Reaches known' :=
  fun C hC => h C fun c hc => hC c (hk c hc)

namespace Memory

/-- The cell at an operand that is not absent. -/
def cell? (m : Memory) (x : Operand) : Option CellId :=
  (m.cells? x.part).bind fun cs => if x.addr < 0 then none else cs[x.addr.toNat]?

theorem get_eq_ok_iff {m : Memory} {s s' : Store} {x : Operand} {c : CellId}
    (hx : x.part ≠ .absent) : m.get s x = .ok (c, s') ↔ m.cell? x = some c ∧ s' = s := by
  unfold get cell?
  split
  · contradiction
  · rename_i p _
    cases hcs : m.cells? x.part with
    | none => simp
    | some cs =>
      simp only [Option.bind_some]
      split
      · simp
      · cases hc : cs[x.addr.toNat]? with
        | none => simp
        | some d =>
          simp only [Except.ok.injEq, Prod.mk.injEq, Option.some.injEq]
          exact ⟨fun ⟨h, h'⟩ => ⟨h, h'.symm⟩, fun ⟨h, h'⟩ => ⟨h, h'.symm⟩⟩

theorem sound_get {m : Memory} {s s' : Store} {x : Operand} {c : CellId} (hs : s.Sound)
    (h : m.get s x = .ok (c, s')) : s'.Sound := by
  by_cases hx : x.part = .absent
  · simp only [get, hx] at h
    cases h
    exact (Store.Touches.fresh Store.region_true).sound hs
  · obtain ⟨-, rfl⟩ := (get_eq_ok_iff hx).mp h
    exact hs

end Memory

namespace Machine

variable {C : CellId → Prop} {m m' m'' : Machine} {α β ε : Type}

abbrev store (m : Machine) : Store := m.world.store

/-- The cells of the stack lie in the region and in the store. -/
structure Within (C : CellId → Prop) (m : Machine) : Prop where
  region : m.store.Region C
  stack : ∀ c ∈ m.memory.stack, C c ∧ c < m.store.cells.size

/-- `m'` arises from `m` by changes in the region `C` and on the stack alone. -/
structure Moves (C : CellId → Prop) (m m' : Machine) : Prop where
  touches : Store.Touches C m.store m'.store
  globals : m'.memory.globals = m.memory.globals
  locals : m'.memory.locals = m.memory.locals
  constants : m'.memory.constants = m.memory.constants
  registers : m'.memory.registers = m.memory.registers
  stack : ∀ c ∈ m'.memory.stack, C c ∧ c < m'.store.cells.size

theorem Moves.within (h : Moves C m m') (hm : m.Within C) : m'.Within C :=
  ⟨h.touches.region hm.region, h.stack⟩

theorem Moves.refl (hm : m.Within C) : Moves C m m :=
  ⟨.refl hm.region, rfl, rfl, rfl, rfl, hm.stack⟩

theorem Moves.trans (h : Moves C m m') (h' : Moves C m' m'') : Moves C m m'' :=
  ⟨h.touches.trans h'.touches, h'.globals.trans h.globals, h'.locals.trans h.locals,
    h'.constants.trans h.constants, h'.registers.trans h.registers, h'.stack⟩

theorem Moves.lt {c : CellId} (h : Moves C m m') (hc : c < m.store.cells.size) :
    c < m'.store.cells.size :=
  Nat.lt_of_lt_of_le hc h.touches.cells_le

theorem Moves.of_touches {s : Store} (hm : m.Within C) (h : Store.Touches C m.store s) :
    Moves C m { m with world.store := s } :=
  ⟨h, rfl, rfl, rfl, rfl, fun c hc =>
    ⟨(hm.stack c hc).1, Nat.lt_of_lt_of_le (hm.stack c hc).2 h.cells_le⟩⟩

/-- All outcomes of a computation that starts at `m` stay in the region, and its result has the
property `V`. -/
def Keeps (C : CellId → Prop) (V : α → Machine → Prop) (m : Machine) :
    EStateM.Result ε Machine α → Prop
  | .ok a m' => Moves C m m' ∧ V a m'
  | .error _ m' => Moves C m m'

theorem Keeps.moves {V : α → Machine → Prop} {r : EStateM.Result ε Machine α}
    (h : Keeps C V m r) : Moves C m (finalState r) := by
  cases r with
  | ok => exact h.1
  | error => exact h

theorem Keeps.bind {V : α → Machine → Prop} {W : β → Machine → Prop} {x : EStateM ε Machine α}
    {f : α → EStateM ε Machine β} (hx : Keeps C V m (x m))
    (hf : ∀ a m', Moves C m m' → V a m' → Keeps C W m' (f a m')) : Keeps C W m ((x >>= f) m) := by
  change Keeps C W m (EStateM.bind x f m)
  unfold EStateM.bind
  cases hr : x m with
  | ok a m' =>
    rw [hr] at hx
    have h := hf a m' hx.1 hx.2
    simp only
    cases hr' : f a m' with
    | ok b m'' =>
      rw [hr'] at h
      exact ⟨hx.1.trans h.1, h.2⟩
    | error e m'' =>
      rw [hr'] at h
      exact hx.1.trans h
  | error e m' =>
    rw [hr] at hx
    exact hx

theorem Keeps.pure {V : α → Machine → Prop} {a : α} (hm : m.Within C) (ha : V a m) :
    Keeps C V m ((Pure.pure a : EStateM ε Machine α) m) :=
  ⟨.refl hm, ha⟩

theorem Keeps.throw {V : α → Machine → Prop} {e : ε} (hm : m.Within C) :
    Keeps C V m ((MonadExcept.throw e : EStateM ε Machine α) m) :=
  Moves.refl hm

/-- The cells that computations hand on lie in the region and in the store. -/
abbrev Held (C : CellId → Prop) (c : CellId) (m : Machine) : Prop := C c ∧ c < m.store.cells.size

theorem keeps_consult {V : α → Machine → Prop} {f : Machine → Except Failure α}
    (hm : m.Within C) (hv : ∀ a, f m = .ok a → V a m) : Keeps C V m (consult f m) := by
  unfold consult
  cases h : f m with
  | ok a => exact ⟨.refl hm, hv a h⟩
  | error e => exact Moves.refl hm

theorem keeps_onStore {f : Store → Except Failure Store} (hm : m.Within C)
    (hf : ∀ s, f m.store = .ok s → Store.Touches C m.store s) :
    Keeps C (fun _ _ => True) m (onStore f m) := by
  unfold onStore
  cases h : f m.world.store with
  | ok s => exact ⟨.of_touches hm (hf s h), trivial⟩
  | error e => exact Moves.refl hm

theorem keeps_push {c : CellId} (hm : m.Within C) (hc : Held C c m) :
    Keeps C (fun _ _ => True) m (push c m) := by
  refine ⟨⟨.refl hm.region, rfl, rfl, rfl, rfl, ?_⟩, trivial⟩
  intro d hd
  change d ∈ m.memory.stack.push c at hd
  rcases Array.mem_push.mp hd with hd | rfl
  · exact hm.stack d hd
  · exact hc

theorem mem_of_mem_pop {xs : Array CellId} {c : CellId} (h : c ∈ xs.pop) : c ∈ xs := by
  obtain ⟨i, hi, rfl⟩ := Array.mem_iff_getElem.mp h
  simp

theorem keeps_pop (hm : m.Within C) : Keeps C (Held C) m (pop m) := by
  unfold pop Memory.pop
  cases h : m.memory.stack.back? with
  | none => exact Moves.refl hm
  | some c =>
    have hc := hm.stack c (Array.mem_of_back? h)
    exact ⟨⟨.refl hm.region, rfl, rfl, rfl, rfl, fun d hd => hm.stack d (mem_of_mem_pop hd)⟩, hc⟩

theorem keeps_pushFresh (hm : m.Within C) : Keeps C (fun _ _ => True) m (pushFresh m) := by
  have h : Moves C m { m with world.store := m.store.fresh.2 } :=
    .of_touches hm (.fresh hm.region)
  have hp := keeps_push (h.within hm) (c := m.store.fresh.1)
    ⟨hm.region.fresh (Nat.le_refl _), by simp [store]⟩
  exact ⟨h.trans hp.1, trivial⟩

theorem keeps_pushScalar (hm : m.Within C) (x : Scalar) :
    Keeps C (fun _ _ => True) m (pushScalar x m) := by
  have h : Moves C m { m with world.store := (m.store.ofScalar x).2 } :=
    .of_touches hm (.ofScalar hm.region x)
  have hp := keeps_push (h.within hm) (c := (m.store.ofScalar x).1)
    ⟨hm.region.fresh (Nat.le_refl _), by simp [store, Store.ofScalar, Store.present]⟩
  exact ⟨h.trans hp.1, trivial⟩

theorem keeps_handedOver {y : Operand} {c : CellId} (hm : m.Within C)
    (hc : y.part ≠ .constants → Held C c m) : Keeps C (Held C) m (handedOver y c m) := by
  unfold handedOver
  split
  · cases h : m.world.store.clone c with
    | error a => exact Moves.refl hm
    | ok x =>
      have hx := Store.Touches.of_clone hm.region h
      obtain ⟨hnew, hlt⟩ := Store.clone_new h
      exact ⟨.of_touches hm hx, hm.region.fresh (Nat.le_of_eq hnew.symm), hlt⟩
  · rename_i hy
    exact ⟨.refl hm, hc hy⟩

theorem Held.mono {c : CellId} (h : Moves C m m') (hc : Held C c m) : Held C c m' :=
  ⟨hc.1, h.lt hc.2⟩

/-- What is handed over for operands that are no constants lies in the region. -/
abbrev Handed (C : CellId → Prop) (m : Machine) (ys : List Operand) (cs : List CellId) : Prop :=
  ∀ (i : Nat) (y : Operand) (c : CellId), ys[i]? = some y → cs[i]? = some c →
    y.part ≠ .constants → Held C c m

theorem Handed.mono {ys : List Operand} {cs : List CellId} (h : Moves C m m')
    (hc : Handed C m ys cs) : Handed C m' ys cs :=
  fun i y c hy hci hn => (hc i y c hy hci hn).mono h

theorem Handed.tail {y : Operand} {ys : List Operand} {c : CellId} {cs : List CellId}
    (hc : Handed C m (y :: ys) (c :: cs)) : Handed C m ys cs :=
  fun i y c hy hci hn => hc (i + 1) y c hy hci hn

theorem keeps_handedOverAll {ys : List Operand} {cs : List CellId} (hm : m.Within C)
    (hc : Handed C m ys cs) :
    Keeps C (fun ds m' => ∀ d ∈ ds, Held C d m') m (handedOverAll ys cs m) := by
  induction ys generalizing cs m with
  | nil => exact .pure hm (by simp)
  | cons y ys ih =>
    cases cs with
    | nil => exact .pure hm (by simp)
    | cons c cs =>
      refine (keeps_handedOver hm (hc 0 y c rfl rfl)).bind fun d m₁ h₁ hd => ?_
      refine (ih (h₁.within hm) (hc.tail.mono h₁)).bind fun ds m₂ h₂ hds => ?_
      refine .pure (h₂.within (h₁.within hm)) fun e he => ?_
      rcases List.mem_cons.mp he with rfl | he
      · exact hd.mono h₂
      · exact hds e he

theorem keeps_pushAll {ys : List Operand} {cs : List CellId} (hm : m.Within C)
    (hc : Handed C m ys cs) : Keeps C (fun _ _ => True) m (pushAll ys cs m) := by
  induction ys generalizing cs m with
  | nil => exact .pure hm trivial
  | cons y ys ih =>
    cases cs with
    | nil => exact .pure hm trivial
    | cons c cs =>
      refine (keeps_handedOver hm (hc 0 y c rfl rfl)).bind fun d m₁ h₁ hd => ?_
      refine (keeps_push (h₁.within hm) hd).bind fun _ m₂ h₂ _ => ?_
      exact ih (h₂.within (h₁.within hm)) (hc.tail.mono (h₁.trans h₂))

theorem keeps_address {c : CellId} (hm : m.Within C) :
    Keeps C (fun _ _ => True) m (address c m) :=
  keeps_consult hm fun _ _ => trivial

theorem keeps_modify {f : Machine → Machine} (hm : m.Within C)
    (hw : (f m).world = m.world) (hmem : (f m).memory = m.memory) :
    Keeps C (fun _ _ => True) m ((modify f : EStateM ε Machine PUnit) m) := by
  refine ⟨⟨?_, by rw [hmem], by rw [hmem], by rw [hmem], by rw [hmem], ?_⟩, trivial⟩
  · simp only [store, hw]
    exact .refl hm.region
  · intro c hc
    simp only [store, hw]
    exact hm.stack c (by rwa [hmem] at hc)

theorem keeps_get (hm : m.Within C) :
    Keeps C (fun _ _ => True) m ((get : EStateM ε Machine Machine) m) :=
  ⟨.refl hm, trivial⟩

theorem keeps_call {p : Program} {pc : Int} {x : Instruction} {ops : List CellId}
    (hm : m.Within C) (hc : Handed C m (x.operands.drop 2) (ops.drop 2)) :
    Keeps C (fun _ _ => True) m (call p pc x ops m) := by
  unfold call
  split
  · rename_i r target args
    refine (keeps_address hm).bind fun f m₁ h₁ _ => ?_
    refine (keeps_get (h₁.within hm)).bind fun n m₂ h₂ _ => ?_
    have hm₂ := h₂.within (h₁.within hm)
    have rest : ∀ u, Keeps C (fun _ _ => True) m₂ ((do
        modify fun m => { m with running := f :: m.running }
        pushScalar (.int (Int64.ofInt (pc + 1)))
        pushAll (x.operands.drop 2) args
        return u : Action Int) m₂) := by
      intro u
      refine (keeps_modify hm₂ rfl rfl).bind fun _ m₃ h₃ _ => ?_
      refine (keeps_pushScalar (h₃.within hm₂) _).bind fun _ m₄ h₄ _ => ?_
      have hm₄ := h₄.within (h₃.within hm₂)
      refine (keeps_pushAll hm₄ (hc.mono (h₁.trans (h₂.trans (h₃.trans h₄))))).bind
        fun _ m₅ h₅ _ => ?_
      exact .pure (h₅.within hm₄) trivial
    split
    · exact (Keeps.throw (V := fun _ _ => False) hm₂).bind fun _ _ _ h => h.elim
    · exact rest f
  · exact .throw hm

theorem keeps_pushValue {x : Instruction} {ops : List CellId} (hm : m.Within C)
    (hc : Handed C m ((x.operands.drop 2).take 1) (ops.drop 2)) :
    Keeps C (fun _ _ => True) m (pushValue x ops m) := by
  unfold pushValue
  cases hy : x.operands.drop 2 with
  | nil => exact keeps_pushFresh hm
  | cons y ys =>
    cases hcs : ops.drop 2 with
    | nil => exact keeps_pushFresh hm
    | cons c cs =>
      refine (keeps_handedOver hm fun hn => ?_).bind fun d m₁ h₁ hd => ?_
      · exact hc 0 y c (by simp [hy]) (by simp [hcs]) hn
      · exact keeps_push (h₁.within hm) hd

theorem keeps_leave {ops : List CellId} (hm : m.Within C) :
    Keeps C (fun _ _ => True) m (leave ops m) := by
  unfold leave
  split
  · refine (keeps_address hm).bind fun f m₁ h₁ _ => ?_
    exact keeps_modify (h₁.within hm) rfl rfl
  · exact .throw hm

theorem keeps_ret {x : Instruction} {ops : List CellId} (hm : m.Within C)
    (hc : Handed C m ((x.operands.drop 2).take 1) (ops.drop 2)) :
    Keeps C (fun _ _ => True) m (ret x ops m) := by
  refine (keeps_pop hm).bind fun top m₁ h₁ _ => ?_
  have hm₁ := h₁.within hm
  refine (keeps_address hm₁).bind fun back m₂ h₂ _ => ?_
  have hm₂ := h₂.within hm₁
  refine (keeps_pushValue hm₂ (hc.mono (h₁.trans h₂))).bind fun _ m₃ h₃ _ => ?_
  have hm₃ := h₃.within hm₂
  refine (keeps_leave hm₃).bind fun _ m₄ h₄ _ => ?_
  exact .pure (h₄.within hm₃) trivial

theorem keeps_invoke {p : Program} {link : Linker} {index : Int} {args : List CellId}
    {result : CellId} (hm : m.Within C) (hlink : link.StaysIn C)
    (hc : ∀ c ∈ result :: args, Held C c m) :
    Keeps C (fun _ _ => True) m (invoke p link index args result m) := by
  have ht := hlink m.world index args result hm.region hc
  have hmove : ∀ w, finalState (link index args result m.world) = w →
      Moves C m { m with world := w } := by
    rintro w rfl
    exact ⟨ht, rfl, rfl, rfl, rfl, fun c hcs =>
      ⟨(hm.stack c hcs).1, Nat.lt_of_lt_of_le (hm.stack c hcs).2 ht.cells_le⟩⟩
  unfold invoke
  cases hres : link index args result m.world with
  | ok u w => exact ⟨hmove w (by rw [hres]; rfl), trivial⟩
  | error e w =>
    cases e with
    | error e => exact hmove w (by rw [hres]; rfl)
    | abort a => exact hmove w (by rw [hres]; rfl)

theorem keeps_callExternal {env : Environment} {x : Instruction} {ops : List CellId}
    (hm : m.Within C) (hlink : ∀ link, env.linker = some link → link.StaysIn C)
    (hr : ∀ c, ops[0]? = some c → Held C c m)
    (hc : Handed C m (x.operands.drop 2) (ops.drop 2)) :
    Keeps C (fun _ _ => True) m (callExternal env x ops m) := by
  unfold callExternal
  cases hl : env.linker with
  | none => exact .throw hm
  | some link =>
    rcases ops with _ | ⟨result, _ | ⟨target, args⟩⟩
    · exact .throw hm
    · exact .throw hm
    · refine (keeps_address hm).bind fun index m₁ h₁ _ => ?_
      have hm₁ := h₁.within hm
      refine (keeps_handedOverAll hm₁ (hc.mono h₁)).bind fun ds m₂ h₂ hds => ?_
      refine keeps_invoke (h₂.within hm₁) (hlink link hl) fun c hcm => ?_
      rcases List.mem_cons.mp hcm with rfl | hcm
      · exact ((hr c rfl).mono h₁).mono h₂
      · exact hds c hcm

theorem keeps_endedName {p : Program} {ops : List CellId} (hm : m.Within C) :
    Keeps C (fun _ _ => True) m (endedName p ops m) := by
  cases ops with
  | nil => exact .pure hm trivial
  | cons c cs =>
    refine (keeps_get hm).bind fun n m₁ h₁ _ => ?_
    have hm₁ := h₁.within hm
    cases n.world.store.type c
    case string => exact keeps_consult hm₁ fun _ _ => trivial
    case int =>
      refine (keeps_address hm₁).bind fun f m₂ h₂ _ => ?_
      exact .pure (h₂.within hm₁) trivial
    all_goals exact .pure hm₁ trivial

theorem keeps_endFunction {p : Program} {ops : List CellId} (hm : m.Within C) :
    Keeps C (fun _ _ => True) m (endFunction p ops m) :=
  (keeps_endedName hm).bind fun _ _ h₁ _ => .throw (h₁.within hm)

theorem handed_of_exposed {x : Instruction} {ops : List CellId}
    (hx : ∀ i c, 2 ≤ i → x.handsOver i = true → ops[i]? = some c → Held C c m) :
    Handed C m (x.operands.drop 2) (ops.drop 2) := by
  intro i y c hy hc hn
  rw [List.getElem?_drop] at hy hc
  exact hx (2 + i) c (Nat.le_add_right 2 i) (by simp [Instruction.handsOver, hy, hn]) hc

theorem touches_change {x : Instruction} {ops : List CellId} {f : Store → Except Failure Store}
    {s : Store} (hm : m.Within C) (hx : ∀ i c, x.exposes i = true → ops[i]? = some c → Held C c m)
    (hf : change? x ops = some f) (hs : f m.store = .ok s) : Store.Touches C m.store s := by
  have h := hm.region
  unfold Instruction.exposes at hx
  unfold change? at hf
  split at hf
  all_goals cases hf
  all_goals
    rename_i hop
    simp only [hop] at hx
    have hd := hx 0 _ rfl rfl
    first
    | exact .of_receive h hd.1 hs
    | exact .of_allocate h hd.1 hs
    | exact .of_allocateLike h hd.1 hs
    | skip
  case h_8 => cases hs; exact .free h hd.1
  case h_12 =>
    cases hs
    have ha := hx 1 _ rfl rfl
    exact .link h hd.1 ha.1 ha.2
  case h_14 => exact .of_referElement h hd.1 (hx 1 _ rfl rfl).1 hs

theorem keeps_onDestination {ops : List CellId} {f : CellId → Store → Except Failure Store}
    (hm : m.Within C)
    (hf : ∀ d s, ops[0]? = some d → f d m.store = .ok s → Store.Touches C m.store s) :
    Keeps C (fun _ _ => True) m (onDestination ops f m) := by
  cases ops with
  | nil => exact .throw hm
  | cons d ops => exact keeps_onStore hm fun s hs => hf d s rfl hs

theorem keeps_control {env : Environment} {pc : Int} {x : Instruction} {ops : List CellId}
    (hm : m.Within C) (hlink : ∀ link, env.linker = some link → link.StaysIn C)
    (hx : ∀ i c, x.exposes i = true → ops[i]? = some c → Held C c m) :
    Keeps C (fun _ _ => True) m (control env pc x ops m) := by
  unfold Instruction.exposes at hx
  unfold control
  cases hop : x.opcode
  all_goals simp only [hop] at hx
  case allocTop =>
    refine (keeps_consult (V := fun _ _ => True) hm fun _ _ => trivial).bind fun like m₁ h₁ _ => ?_
    have hm₁ := h₁.within hm
    refine (keeps_onDestination hm₁ fun d s hd hs => ?_).bind fun _ m₂ h₂ _ => ?_
    · exact .of_allocateLike hm₁.region (hx 0 d rfl hd).1 hs
    · exact .pure (h₂.within hm₁) trivial
  case pop => exact (keeps_pop hm).bind fun _ _ h₁ _ => .pure (h₁.within hm) trivial
  case movePop =>
    refine (keeps_pop hm).bind fun top m₁ h₁ _ => ?_
    have hm₁ := h₁.within hm
    refine (keeps_onDestination hm₁ fun d s hd hs => ?_).bind fun _ m₂ h₂ _ => ?_
    · exact .of_receive hm₁.region (hx 0 d rfl hd).1 hs
    · exact .pure (h₂.within hm₁) trivial
  case referPop =>
    refine (keeps_pop hm).bind fun top m₁ h₁ htop => ?_
    have hm₁ := h₁.within hm
    refine (keeps_onDestination hm₁ fun d s hd hs => ?_).bind fun _ m₂ h₂ _ => ?_
    · cases hs
      exact .link hm₁.region (hx 0 d rfl hd).1 htop.1 htop.2
    · exact .pure (h₂.within hm₁) trivial
  case jump on =>
    rcases ops with _ | ⟨_, _ | ⟨target, _ | ⟨condition, ops⟩⟩⟩
    case cons.cons.cons =>
      refine (keeps_consult (V := fun _ _ => True) hm fun _ _ => trivial).bind fun b m₁ h₁ _ => ?_
      have hm₁ := h₁.within hm
      cases b with
      | true => exact keeps_address hm₁
      | false => exact .pure hm₁ trivial
    all_goals exact .throw hm
  case call => exact keeps_call hm (handed_of_exposed fun i c hi hh => hx i c (by simp [hi, hh]))
  case callExternal =>
    refine (keeps_callExternal hm hlink (fun c => hx 0 c rfl)
      (handed_of_exposed fun i c hi hh => hx i c (by simp [hi, hh]))).bind fun _ m₁ h₁ _ => ?_
    exact .pure (h₁.within hm) trivial
  case ret =>
    refine keeps_ret hm fun i y c hy hc hn => ?_
    have hi : i < 1 := by
      have := (List.getElem?_eq_some_iff.mp hy).1
      simp only [List.length_take] at this
      omega
    obtain rfl : i = 0 := by omega
    rw [List.getElem?_take_of_lt Nat.zero_lt_one, List.getElem?_drop] at hy
    rw [List.getElem?_drop] at hc
    exact hx 2 c (by simp [Instruction.handsOver, hy, hn]) hc
  case endFunction =>
    exact (keeps_endFunction hm).bind fun _ _ h₁ _ => .pure (h₁.within hm) trivial
  case finish | nop | label | allocType | endParameters => exact .pure hm trivial
  all_goals exact .throw hm

/-- An instruction touches only a region that holds its exposed operands. -/
theorem keeps_execute {env : Environment} {pc : Int} {x : Instruction} {ops : List CellId}
    (hm : m.Within C) (hlink : ∀ link, env.linker = some link → link.StaysIn C)
    (hx : ∀ i c, x.exposes i = true → ops[i]? = some c → Held C c m) :
    Keeps C (fun _ _ => True) m (execute env pc x ops m) := by
  unfold execute
  cases hf : change? x ops with
  | none => exact keeps_control hm hlink hx
  | some f =>
    refine (keeps_onStore hm fun s hs => touches_change hm hx hf hs).bind fun _ _ h₁ _ => ?_
    exact .pure (h₁.within hm) trivial

/-- The machine with more void cells. -/
def grown (m : Machine) (n : Nat) : Machine :=
  { m with world.store := (m.store.freshMany n).2 }

@[simp] theorem memory_grown (n : Nat) : (m.grown n).memory = m.memory := rfl

@[simp] theorem running_grown (n : Nat) : (m.grown n).running = m.running := rfl

@[simp] theorem journal_grown (n : Nat) : (m.grown n).world.journal = m.world.journal := rfl

@[simp] theorem buffers_grown (n : Nat) : (m.grown n).store.buffers = m.store.buffers := rfl

@[simp] theorem size_grown (n : Nat) :
    (m.grown n).store.cells.size = m.store.cells.size + n := by
  simp [grown, Store.freshMany]

theorem grown_zero : m.grown 0 = m := by
  simp [grown, Store.freshMany]

theorem grown_grown (n k : Nat) : (m.grown n).grown k = m.grown (n + k) := by
  simp [grown, Store.freshMany, Array.append_assoc]

theorem root_grown (hs : m.store.Sound) (n : Nat) (c : CellId) :
    (m.grown n).store.root c = m.store.root c :=
  Store.root_congr hs.grounded (fun _ => congrArg Cell.target (Store.cell_freshMany n)) c

theorem rootCell_grown (hs : m.store.Sound) (n : Nat) (c : CellId) :
    (m.grown n).store.rootCell c = m.store.rootCell c := by
  rw [Store.rootCell, root_grown hs, Store.rootCell]
  exact Store.cell_freshMany n

/-- What fetching gives for an operand: a new cell for the absent operand, else the cell of the
memory. -/
def Fetched (m : Machine) (y : Operand) (c : CellId) : Prop :=
  if y.part = .absent then m.store.cells.size ≤ c else m.memory.cell? y = some c

theorem fetch_eq_of_absent {y : Operand} (hy : y.part = .absent) :
    fetch y m = .ok m.store.cells.size (m.grown 1) := by
  simp [fetch, hy, freshCell, grown, store, Store.fresh, Store.freshMany]

theorem fetch_eq_of_cell {y : Operand} {c : CellId} (hc : m.memory.cell? y = some c) :
    fetch y m = .ok c m := by
  have hy : y.part ≠ .absent := fun h => by simp [Memory.cell?, h, Memory.cells?] at hc
  have hg := (Memory.get_eq_ok_iff (s := m.world.store) hy).mpr ⟨hc, rfl⟩
  simp [fetch, hy, hg]

theorem fetch_eq_get {y : Operand} (hy : y.part ≠ .absent) :
    fetch y m = match m.memory.get m.world.store y with
      | .ok (c, _) => .ok c m
      | .error a => .error a m := by
  cases hg : m.memory.get m.world.store y with
  | ok r => simp [fetch, hy, hg]
  | error a => simp [fetch, hy, hg]

theorem fetch_error {y : Operand} {a : Abort} {m' : Machine} (h : fetch y m = .error a m') :
    m' = m := by
  by_cases hy : y.part = .absent
  · rw [fetch_eq_of_absent hy] at h
    cases h
  · rw [fetch_eq_get hy] at h
    split at h
    · cases h
    · exact (EStateM.Result.error.inj h).2.symm

theorem fetch_ok {y : Operand} {c : CellId} (h : fetch y m = .ok c m') :
    ∃ n, m' = m.grown n ∧ Fetched m y c ∧ (y.part = .absent → c < m'.store.cells.size) := by
  by_cases hy : y.part = .absent
  · rw [fetch_eq_of_absent hy] at h
    cases h
    exact ⟨1, rfl, by simp [Fetched, hy], by simp⟩
  · rw [fetch_eq_get hy] at h
    split at h
    · rename_i d s hg
      cases h
      have hc := (Memory.get_eq_ok_iff hy).mp hg
      exact ⟨0, grown_zero.symm, by simp [Fetched, hy, hc.1], fun h => absurd h hy⟩
    · cases h

theorem Fetched.cell {y : Operand} {c : CellId} (h : Fetched m y c) (hy : y.part ≠ .absent) :
    m.memory.cell? y = some c := by
  rwa [Fetched, if_neg hy] at h

/-- An operand that stands for a container gives this one. -/
theorem Fetched.eq_of_cell {y : Operand} {c d : CellId} (h : Fetched m y d)
    (hc : m.memory.cell? y = some c) : d = c := by
  have hy : y.part ≠ .absent := fun hy => by simp [Memory.cell?, hy, Memory.cells?] at hc
  exact Option.some.inj ((h.cell hy).symm.trans hc)

theorem Fetched.of_grown {y : Operand} {c : CellId} {n : Nat} (h : Fetched (m.grown n) y c) :
    Fetched m y c := by
  unfold Fetched at *
  split
  · rename_i hy
    rw [if_pos hy, size_grown] at h
    omega
  · rename_i hy
    rwa [if_neg hy] at h

/-- Fetching adds void cells for absent operands and does nothing else. -/
theorem fetchAll_spec (ys : List Operand) (m : Machine) :
    ∃ n, finalState (fetchAll ys m) = m.grown n ∧
      ∀ ops m', fetchAll ys m = .ok ops m' →
        List.Forall₂ (fun y c => Fetched m y c ∧ (y.part = .absent → c < m'.store.cells.size))
          ys ops := by
  induction ys generalizing m with
  | nil =>
    refine ⟨0, grown_zero.symm, fun ops m' h => ?_⟩
    cases h
    exact .nil
  | cons y ys ih =>
    simp only [fetchAll, bind, EStateM.bind]
    cases hf : fetch y m with
    | error a m₁ =>
      refine ⟨0, ?_, fun ops m' h => by cases h⟩
      rw [grown_zero, ← fetch_error hf]
      rfl
    | ok c m₁ =>
      obtain ⟨n, rfl, hc, hlt⟩ := fetch_ok hf
      obtain ⟨k, hk, hok⟩ := ih (m.grown n)
      rw [grown_grown] at hk
      simp only
      cases hr : fetchAll ys (m.grown n) with
      | error a m₂ =>
        refine ⟨n + k, ?_, fun ops m' h => by cases h⟩
        rw [hr] at hk
        exact hk
      | ok cs m₂ =>
        refine ⟨n + k, ?_, fun ops m' h => ?_⟩
        · rw [hr] at hk
          exact hk
        · cases h
          rw [hr] at hk
          refine .cons ⟨hc, fun hy => Nat.lt_of_lt_of_le (hlt hy) ?_⟩ ?_
          · change m₂ = _ at hk
            simp [hk]
          · exact (hok cs m₂ hr).imp fun y c h => ⟨h.1.of_grown, h.2⟩

theorem step_of_fetchAll_error {env : Environment} {pc : Int} {x : Instruction} {e : Abort}
    (hx : instructionAt? env.program pc = some x) (hf : fetchAll x.operands m = .error e m') :
    step env pc m = .error (.abort e) m' := by
  simp only [step, hx, hf]

/-- A step that succeeds, in its two parts. -/
theorem step_eq_ok_iff {env : Environment} {pc next : Int} {x : Instruction}
    (hx : instructionAt? env.program pc = some x) : step env pc m = .ok next m' ↔
      ∃ k ops, fetchAll x.operands m = .ok ops (m.grown k) ∧
        List.Forall₂ (fun y c => Fetched m y c ∧ (y.part = .absent → c < (m.grown k).store.cells.size))
          x.operands ops ∧
        execute env pc x ops (m.grown k) = .ok next m' := by
  obtain ⟨k, hk, hok⟩ := fetchAll_spec x.operands m
  simp only [step, hx]
  constructor
  · intro h
    cases hf : fetchAll x.operands m with
    | error e m₁ =>
      rw [hf] at h
      cases h
    | ok ops m₁ =>
      rw [hf] at h hk
      obtain rfl : m₁ = m.grown k := hk
      refine ⟨k, ops, rfl, hok ops _ hf, ?_⟩
      cases he : execute env pc x ops (m.grown k) with
      | ok next' m₂ =>
        simp only [he] at h
        cases h
        rfl
      | error e m₂ =>
        simp only [he] at h
        cases e <;> cases h
  · rintro ⟨k, ops, hf, -, he⟩
    simp only [hf, he]

theorem moves_grown (hm : m.Within C) (n : Nat) : Moves C m (m.grown n) :=
  .of_touches hm (.freshMany hm.region n)

/-- The cells that the memory addresses are there. -/
def Addressable (m : Machine) : Prop :=
  ∀ y c, m.memory.cell? y = some c → c < m.store.cells.size

theorem exists_of_forall₂ {P : α → β → Prop} {xs : List α} {ys : List β} {i : Nat} {b : β}
    (h : List.Forall₂ P xs ys) (hb : ys[i]? = some b) : ∃ a, xs[i]? = some a ∧ P a b := by
  induction h generalizing i with
  | nil => simp at hb
  | cons hab _ ih =>
    cases i with
    | zero =>
      cases hb
      exact ⟨_, rfl, hab⟩
    | succ i => exact ih hb

/-- A step touches only a region that holds the operands which its instruction exposes. -/
theorem moves_step {env : Environment} {pc : Int} (hm : m.Within C) (ha : m.Addressable)
    (hlink : ∀ link, env.linker = some link → link.StaysIn C)
    (hx : ∀ x, instructionAt? env.program pc = some x → ∀ i y c, x.exposes i = true →
      x.operands[i]? = some y → m.memory.cell? y = some c → C c) :
    Moves C m (finalState (step env pc m)) := by
  unfold step
  cases hi : instructionAt? env.program pc with
  | none => exact .refl hm
  | some x =>
    obtain ⟨n, hn, hok⟩ := fetchAll_spec x.operands m
    simp only
    cases hf : fetchAll x.operands m with
    | error a m₁ =>
      rw [hf] at hn
      exact hn ▸ moves_grown hm n
    | ok ops m₁ =>
      rw [hf] at hn
      change m₁ = _ at hn
      subst hn
      have h₁ := moves_grown hm n
      have hops := hok ops _ hf
      have hk : Keeps C (fun _ _ => True) (m.grown n) (execute env pc x ops (m.grown n)) := by
        refine keeps_execute (h₁.within hm) hlink fun i c he hc => ?_
        obtain ⟨y, hy, hf, hlt⟩ := exists_of_forall₂ hops hc
        unfold Fetched at hf
        split at hf
        · rename_i habs
          exact ⟨hm.region.fresh hf, hlt habs⟩
        · exact ⟨hx x hi i y c he hy hf, h₁.lt (ha y c hf)⟩
      simp only
      have hmv := h₁.trans hk.moves
      split
      all_goals (rename_i hr; rw [hr] at hmv; exact hmv)

end Machine

end VectorMachine
