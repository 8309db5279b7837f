import VectorMachine.Accelerator.Plan
import VectorMachine.Proofs.Machine.Reach

/-!
# The effects of a step

What a step may do to containers, instruction by instruction: it stores into its first operand and
into the cells that it makes itself, and three instructions link or show other containers instead.
Whatever the granted edits keep, every step keeps.
-/

namespace VectorMachine
set_option autoImplicit false

open Store (Grant Alters)

/-- Whether an operation stores elements into its first operand or allocates it. -/
def Opcode.stores : Opcode → Bool
  | .free | .refer | .referPop | .referElement | .callExternal => false
  | op => op.writes

/-- An allocation keeps the elements of a container that has the shape already. -/
def Opcode.allocates : Opcode → Bool
  | .alloc | .allocLike | .allocTop => true
  | _ => false

namespace Machine

variable {g : Grant} {m m' : Machine} {α β ε : Type}

/-! ### Computations -/

/-- All outcomes of a computation that starts at `m` change the store by edits that are granted. -/
def Effects (g : Grant) (m : Machine) (r : EStateM.Result ε Machine α) : Prop :=
  Alters g m.store (finalState r).store

theorem effects_of_eq {r : EStateM.Result ε Machine α} (h : (finalState r).store = m.store) :
    Effects g m r := by
  unfold Effects
  rw [h]

theorem Effects.bind {x : EStateM ε Machine α} {f : α → EStateM ε Machine β}
    (hx : Effects g m (x m))
    (hf : ∀ a m', x m = .ok a m' → Alters g m.store m'.store → Effects g m' (f a m')) :
    Effects g m ((x >>= f) m) := by
  change Effects g m (EStateM.bind x f m)
  unfold EStateM.bind
  cases hr : x m with
  | ok a m' =>
    rw [hr] at hx
    exact hx.trans (hf a m' hr hx)
  | error e m' =>
    rw [hr] at hx
    exact hx

theorem Effects.pure {a : α} : Effects g m ((Pure.pure a : EStateM ε Machine α) m) :=
  effects_of_eq rfl

theorem Effects.throw {e : ε} : Effects g m ((MonadExcept.throw e : EStateM ε Machine α) m) :=
  effects_of_eq rfl

theorem effects_consult {f : Machine → Except Failure α} : Effects g m (consult f m) := by
  unfold consult
  split <;> exact effects_of_eq rfl

theorem effects_address {c : CellId} : Effects g m (address c m) := effects_consult

theorem effects_modify {f : Machine → Machine} (hf : (f m).store = m.store) :
    Effects g m ((modify f : EStateM ε Machine PUnit) m) :=
  effects_of_eq hf

theorem effects_get : Effects g m ((get : EStateM ε Machine Machine) m) := effects_of_eq rfl

theorem effects_onStore {f : Store → Except Failure Store}
    (hf : ∀ s, f m.store = .ok s → Alters g m.store s) : Effects g m (onStore f m) := by
  unfold onStore
  cases h : f m.world.store with
  | ok s => exact hf s h
  | error e => exact effects_of_eq rfl

theorem effects_onDestination {ops : List CellId} {f : CellId → Store → Except Failure Store}
    (hf : ∀ d s, ops[0]? = some d → f d m.store = .ok s → Alters g m.store s) :
    Effects g m (onDestination ops f m) := by
  cases ops with
  | nil => exact .throw
  | cons d ops => exact effects_onStore fun s hs => hf d s rfl hs

theorem pop_ok {c : CellId} (h : pop m = .ok c m') :
    m.memory.stack.back? = some c ∧ m'.store = m.store := by
  unfold pop Memory.pop at h
  cases hb : m.memory.stack.back? with
  | none => simp [hb] at h
  | some d =>
    simp only [hb] at h
    cases h
    exact ⟨rfl, rfl⟩

theorem effects_pop : Effects g m (pop m) := by
  unfold pop
  split <;> exact effects_of_eq rfl

theorem effects_push {c : CellId} : Effects g m (push c m) := effects_of_eq rfl

theorem effects_pushFresh : Effects g m (pushFresh m) := Relation.ReflTransGen.single .fresh

/-- New cells may be stored into. -/
def GrantsNew (g : Grant) (m : Machine) : Prop := ∀ c, m.store.cells.size ≤ c → g.stores c

theorem GrantsNew.mono (hnew : GrantsNew g m) (hg : g.Grows) (h : Alters g m.store m'.store) :
    GrantsNew g m' :=
  fun c hc => hnew c (Nat.le_trans (Alters.size_le hg h) hc)

theorem effects_pushScalar (hnew : GrantsNew g m) (x : Scalar) : Effects g m (pushScalar x m) :=
  Alters.ofScalar (hnew _ (Nat.le_refl _)) x

theorem effects_handedOver {y : Operand} {c : CellId} (hnew : GrantsNew g m) :
    Effects g m (handedOver y c m) := by
  unfold handedOver
  split
  · cases h : m.world.store.clone c with
    | error a => exact effects_of_eq rfl
    | ok x => exact Alters.of_clone (hnew _ (Nat.le_refl _)) h
  · exact effects_of_eq rfl

section

variable (hg : g.Grows)
include hg

theorem effects_handedOverAll {ys : List Operand} {cs : List CellId} (hnew : GrantsNew g m) :
    Effects g m (handedOverAll ys cs m) := by
  induction ys generalizing cs m with
  | nil => exact .pure
  | cons y ys ih =>
    cases cs with
    | nil => exact .pure
    | cons c cs =>
      refine (effects_handedOver hnew).bind fun _ m₁ _ h₁ => ?_
      exact (ih (hnew.mono hg h₁)).bind fun _ _ _ _ => .pure

theorem effects_pushAll {ys : List Operand} {cs : List CellId} (hnew : GrantsNew g m) :
    Effects g m (pushAll ys cs m) := by
  induction ys generalizing cs m with
  | nil => exact .pure
  | cons y ys ih =>
    cases cs with
    | nil => exact .pure
    | cons c cs =>
      refine (effects_handedOver hnew).bind fun _ m₁ _ h₁ => ?_
      refine effects_push.bind fun _ m₂ _ h₂ => ?_
      exact ih ((hnew.mono hg h₁).mono hg h₂)

theorem effects_call {p : Program} {pc : Int} {x : Instruction} {ops : List CellId}
    (hnew : GrantsNew g m) : Effects g m (call p pc x ops m) := by
  unfold call
  split
  · rename_i target args
    refine effects_address.bind fun f m₁ _ h₁ => ?_
    refine effects_get.bind fun n m₂ _ h₂ => ?_
    have hnew₂ := (hnew.mono hg h₁).mono hg h₂
    split
    · exact Effects.throw.bind fun _ _ h _ => by cases h
    · refine (effects_modify (ε := Failure)
        (f := fun m => { m with running := f :: m.running }) rfl).bind fun _ m₃ _ h₃ => ?_
      have hnew₃ := hnew₂.mono hg h₃
      refine (effects_pushScalar hnew₃ _).bind fun _ m₄ _ h₄ => ?_
      exact (effects_pushAll hg (hnew₃.mono hg h₄)).bind fun _ _ _ _ => .pure
  · exact .throw

omit hg in
theorem effects_pushValue {x : Instruction} {ops : List CellId} (hnew : GrantsNew g m) :
    Effects g m (pushValue x ops m) := by
  unfold pushValue
  cases x.operands.drop 2 with
  | nil => exact effects_pushFresh
  | cons y ys =>
    cases ops.drop 2 with
    | nil => exact effects_pushFresh
    | cons c cs => exact (effects_handedOver hnew).bind fun _ _ _ _ => effects_push

omit hg in
theorem effects_leave {ops : List CellId} : Effects g m (leave ops m) := by
  unfold leave
  split
  · exact effects_address.bind fun _ _ _ _ => effects_modify rfl
  · exact .throw

theorem effects_ret {x : Instruction} {ops : List CellId} (hnew : GrantsNew g m) :
    Effects g m (ret x ops m) := by
  refine effects_pop.bind fun top m₁ _ h₁ => ?_
  refine effects_address.bind fun back m₂ _ h₂ => ?_
  refine (effects_pushValue ((hnew.mono hg h₁).mono hg h₂)).bind fun _ m₃ _ _ => ?_
  exact effects_leave.bind fun _ _ _ _ => .pure

/-- What a grant has to give an instruction on its operand cells. -/
structure Permits (g : Grant) (env : Environment) (m : Machine) (x : Instruction)
    (ops : List CellId) : Prop where
  within : m.Within fun _ => True
  ops_lt : ∀ c ∈ ops, c < m.store.cells.size
  grows : g.Grows
  new : GrantsNew g m
  stores : x.opcode.stores = true → ∀ d, ops[0]? = some d → g.stores d
  frees : x.opcode = .free → ∀ d, ops[0]? = some d → g.frees d
  links : x.opcode = .refer → ∀ d a, ops[0]? = some d → ops[1]? = some a → g.links m.store d a
  linksTop : x.opcode = .referPop → ∀ d top, ops[0]? = some d →
    m.memory.stack.back? = some top → g.links m.store d top
  views : x.opcode = .referElement → ∀ d a, ops[0]? = some d → ops[1]? = some a →
    g.views m.store d a
  hosts : x.opcode = .callExternal → ∀ link, env.linker = some link →
    ∀ index args result w, (∀ c ∈ result :: args, c < w.store.cells.size) →
      g.hosts w.store (finalState (link index args result w)).store

end

section

variable {env : Environment} {pc : Int} {x : Instruction} {ops : List CellId}

theorem effects_invoke {p : Program} {link : Linker} {index : Int} {args : List CellId}
    {result : CellId}
    (h : g.hosts m.store (finalState (link index args result m.world)).store) :
    Effects g m (invoke p link index args result m) := by
  have hmove : ∀ w, finalState (link index args result m.world) = w → Alters g m.store w.store := by
    rintro w rfl
    exact .single (.host h)
  unfold invoke
  cases hres : link index args result m.world with
  | ok u w => exact hmove w (by rw [hres]; rfl)
  | error e w =>
    cases e with
    | error e => exact hmove w (by rw [hres]; rfl)
    | abort a => exact hmove w (by rw [hres]; rfl)

theorem Permits.callExternal (h : Permits g env m x ops) (hop : x.opcode = .callExternal) :
    Effects g m (callExternal env x ops m) := by
  unfold Machine.callExternal
  cases hl : env.linker with
  | none => exact .throw
  | some link =>
    rcases ops with _ | ⟨result, _ | ⟨target, args⟩⟩
    · exact .throw
    · exact .throw
    · refine effects_address.bind fun index m₁ hm₁ h₁ => ?_
      refine (effects_handedOverAll h.grows (h.new.mono h.grows h₁)).bind fun ds m₂ hm₂ h₂ => ?_
      refine effects_invoke (h.hosts hop link hl _ _ _ _ fun c hc => ?_)
      rcases List.mem_cons.mp hc with rfl | hc
      · exact Nat.lt_of_lt_of_le (h.ops_lt c (by simp)) (Alters.size_le h.grows (h₁.trans h₂))
      · -- what is handed over lies in the store, as everything does that a computation hands on
        have hk := keeps_address (c := target) h.within
        rw [hm₁] at hk
        have hargs : Handed (fun _ => True) m₁ (x.operands.drop 2) args := fun i y d _ hd _ =>
          ⟨trivial, Nat.lt_of_lt_of_le (h.ops_lt d (by simp [List.mem_of_getElem? hd]))
            (Alters.size_le h.grows h₁)⟩
        have hk₂ := keeps_handedOverAll (hk.1.within h.within) hargs
        rw [hm₂] at hk₂
        exact (hk₂.2 c hc).2

theorem effects_endFunction {p : Program} : Effects g m (endFunction p ops m) := by
  refine Effects.bind ?_ fun _ _ _ _ => .throw
  cases ops with
  | nil => exact .pure
  | cons c cs =>
    refine effects_get.bind fun n m₁ _ _ => ?_
    cases n.world.store.type c
    case string => exact effects_consult
    case int => exact effects_address.bind fun _ _ _ _ => .pure
    all_goals exact .pure

theorem Permits.change {f : Store → Except Failure Store} {s : Store}
    (h : Permits g env m x ops) (hf : change? x ops = some f) (hs : f m.store = .ok s) :
    Alters g m.store s := by
  unfold change? at hf
  split at hf
  all_goals cases hf
  all_goals rename_i hop
  case h_8 =>
    cases hs
    exact .single (.free (h.frees hop _ rfl))
  case h_12 =>
    cases hs
    exact .single (.link (h.links hop _ _ rfl rfl))
  case h_14 => exact .single (.of_referElement (h.views hop _ _ rfl rfl) hs)
  all_goals
    have hd := h.stores (by simp [hop, Opcode.stores, Opcode.writes]) _ rfl
    first
    | exact Alters.of_receive hd hs
    | exact Alters.of_allocate hd hs
    | exact Alters.of_allocateLike hd hs

theorem Permits.control (h : Permits g env m x ops) : Effects g m (control env pc x ops m) := by
  unfold Machine.control
  have hdst : x.opcode = .allocTop ∨ x.opcode = .movePop → ∀ d, ops[0]? = some d → g.stores d := by
    intro hop
    refine h.stores ?_
    rcases hop with hop | hop <;> simp [hop, Opcode.stores, Opcode.writes]
  cases hop : x.opcode
  case allocTop =>
    refine effects_consult.bind fun like m₁ _ _ => ?_
    refine (effects_onDestination fun d s hd hs => ?_).bind fun _ _ _ _ => .pure
    exact Alters.of_allocateLike (hdst (.inl hop) d hd) hs
  case pop => exact effects_pop.bind fun _ _ _ _ => .pure
  case movePop =>
    refine effects_pop.bind fun top m₁ _ _ => ?_
    refine (effects_onDestination fun d s hd hs => ?_).bind fun _ _ _ _ => .pure
    exact Alters.of_receive (hdst (.inr hop) d hd) hs
  case referPop =>
    refine effects_pop.bind fun top m₁ hpop _ => ?_
    obtain ⟨htop, hstore⟩ := pop_ok hpop
    refine (effects_onDestination fun d s hd hs => ?_).bind fun _ _ _ _ => .pure
    cases hs
    exact .single (.link (hstore ▸ h.linksTop hop d top hd htop))
  case jump on =>
    rcases ops with _ | ⟨_, _ | ⟨target, _ | ⟨condition, ops⟩⟩⟩
    case cons.cons.cons =>
      refine effects_consult.bind fun b m₁ _ _ => ?_
      cases b with
      | true => exact effects_address
      | false => exact .pure
    all_goals exact .throw
  case call => exact effects_call h.grows h.new
  case callExternal => exact (h.callExternal hop).bind fun _ _ _ _ => .pure
  case ret => exact effects_ret h.grows h.new
  case endFunction => exact effects_endFunction.bind fun _ _ _ _ => .pure
  case finish | nop | label | allocType | endParameters => exact .pure
  all_goals exact .throw

theorem Permits.execute (h : Permits g env m x ops) (pc : Int) :
    Effects g m (execute env pc x ops m) := by
  unfold Machine.execute
  cases hf : change? x ops with
  | none => exact h.control
  | some f => exact (effects_onStore fun s hs => h.change hf hs).bind fun _ _ _ _ => .pure

end

/-- What is fetched for operands lies in the store, which has grown by `n` cells. -/
abbrev FetchedAll (m : Machine) (n : Nat) (ys : List Operand) (ops : List CellId) : Prop :=
  List.Forall₂ (fun y c => Fetched m y c ∧ c < (m.grown n).store.cells.size) ys ops

theorem FetchedAll.at {n i : Nat} {ys : List Operand} {ops : List CellId} {c : CellId}
    (h : FetchedAll m n ys ops) (hc : ops[i]? = some c) :
    ∃ y, ys[i]? = some y ∧ Fetched m y c ∧ c < (m.grown n).store.cells.size :=
  exists_of_forall₂ (P := fun y c => Fetched m y c ∧ c < (m.grown n).store.cells.size) h hc

theorem FetchedAll.lt {n : Nat} {ys : List Operand} {ops : List CellId} (h : FetchedAll m n ys ops) :
    ∀ c ∈ ops, c < (m.grown n).store.cells.size := by
  intro c hc
  obtain ⟨i, hi⟩ := List.getElem?_of_mem hc
  obtain ⟨-, -, -, hlt⟩ := h.at hi
  exact hlt

theorem Fetched.lt_of_addressable {y : Operand} {c : CellId} {n : Nat} (h : Fetched m y c)
    (ha : m.Addressable) (hnew : y.part = .absent → c < (m.grown n).store.cells.size) :
    c < (m.grown n).store.cells.size := by
  by_cases hy : y.part = .absent
  · exact hnew hy
  · exact Nat.lt_of_lt_of_le (ha y c (h.cell hy)) (by simp)

theorem fetchAll_ok {ys : List Operand} {ops : List CellId} (ha : m.Addressable)
    (h : fetchAll ys m = .ok ops m') : ∃ n, m' = m.grown n ∧ FetchedAll m n ys ops := by
  obtain ⟨n, hn, hok⟩ := fetchAll_spec ys m
  rw [h] at hn
  obtain rfl : m' = m.grown n := hn
  exact ⟨n, rfl, (hok ops _ h).imp fun y c hc => ⟨hc.1, hc.1.lt_of_addressable ha hc.2⟩⟩

/-- A step is made of edits that are granted to its instruction. -/
theorem alters_step {env : Environment} {pc : Int} (ha : m.Addressable)
    (h : ∀ x n ops, instructionAt? env.program pc = some x → FetchedAll m n x.operands ops →
      Permits g env (m.grown n) x ops) :
    Alters g m.store (finalState (step env pc m)).store := by
  unfold step
  cases hi : instructionAt? env.program pc with
  | none => exact .refl
  | some x =>
    simp only
    cases hf : fetchAll x.operands m with
    | error a m₁ =>
      obtain ⟨n, hn, -⟩ := fetchAll_spec x.operands m
      rw [hf] at hn
      change m₁ = _ at hn
      subst hn
      exact Alters.freshMany n
    | ok ops m₁ =>
      obtain ⟨n, rfl, hops⟩ := fetchAll_ok ha hf
      have hgrow : Alters g m.store (m.grown n).store := Alters.freshMany n
      have he := hgrow.trans ((h x n ops hi hops).execute pc)
      simp only
      split
      all_goals (rename_i hr; rw [hr] at he; exact he)

/-- An instruction without effect only fetches its operands. -/
theorem step_eq_of_noOperation {env : Environment} {pc : Int} {x : Instruction}
    (hx : instructionAt? env.program pc = some x)
    (hno : Accelerator.isNoOperation x.opcode = true) : step env pc m =
      match fetchAll x.operands m with
      | .ok _ n => .ok (pc + 1) n
      | .error a n => .error (.abort a) n := by
  simp only [step, hx]
  cases fetchAll x.operands m with
  | error a n => rfl
  | ok cs n =>
    cases hop : x.opcode <;> rw [hop] at hno <;> cases hno <;>
      simp only [execute, change?, control, hop] <;> rfl

end Machine

end VectorMachine
