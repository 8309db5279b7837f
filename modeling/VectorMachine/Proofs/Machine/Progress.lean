import VectorMachine.Proofs.Machine.Allocation
import VectorMachine.Proofs.Machine.Effects
import VectorMachine.Proofs.Store.Formed

/-!
# How an instruction ends

On a well formed store an instruction gives the next address or a data error, or it aborts in one
of few ways: an allocation is impossible, a global is not bound, the stack is empty, a label, a
return address or a name is not there, or the elements of an array cannot be numbered.
-/

namespace VectorMachine
set_option autoImplicit false

open Store (Grant Alters Answers)

/-- Whether an operation needs the top of the stack. -/
def Opcode.takesTop : Opcode → Bool
  | .pop | .movePop | .referPop | .allocTop | .ret => true
  | _ => false

namespace Store

variable {s t : Store} {c : CellId}

/-- Whether a container is an int container with an element. -/
def HoldsAddress (s : Store) (c : CellId) : Prop := s.type c = .int ∧ 1 ≤ s.size c

/-- New cells alone are stored into. -/
def adding (s : Store) : Grant where
  stores c := s.cells.size ≤ c

/-- Adding cells leaves what the others show. -/
theorem Alters.alike (ha : Alters s.adding s t) (hs : s.Sound) (hc : c < s.cells.size) :
    s.Alike c t c := by
  have ht := Alters.touches Grant.within_stores region_new ha
  have hroot : t.root c = s.root c := root_congr hs.grounded (Alters.target_eq ha) c
  have hold : s.Parted (· < s.cells.size) fun _ => False :=
    ⟨fun _ => id, fun _ => hs.target_lt, fun _ => False.elim⟩
  have hcell : t.rootCell c = s.rootCell c := by
    rw [rootCell, hroot, ht.cell_eq (Nat.not_le.mpr (hold.root hc))]
    rfl
  have hbuffer : t.buffer? c = s.buffer? c := by
    unfold buffer? lanes?
    rw [hcell]
    cases hb : (s.rootCell c).buffer with
    | none => rfl
    | some i => exact ht.buffer_eq (hs.buffer_lt hb) fun d hd => by simp [cell_of_le hd]
  exact ⟨hbuffer.symm, by rw [size, size, hcell], by rw [lengths, lengths, hcell],
    by rw [offset, offset, hcell]⟩

theorem Holds.exists_clone {v : Scalar} (h : s.Holds c (some v)) (ha : s.Alike c t c)
    (ht : t.Sound) : ∃ x, t.clone c = .ok x := by
  have hvoid : t.isVoid c = false := by rw [← ha.isVoid_eq, h.isVoid_eq]; rfl
  have htype : t.type c = v.type := by rw [← ha.type_eq, h.type_eq]; rfl
  have hfresh : t.fresh.2.Holds t.cells.size none := by simp [Holds, cell_of_le]
  obtain ⟨-, u, -, -, hu, -⟩ := alloc_holds_none ((Touches.fresh region_new).sound ht)
    (isolated_fresh ht) hfresh v.isConcrete_type
  refine ⟨(t.cells.size, u.write t.cells.size (Lanes.ofScalar v)), ?_⟩
  simp [clone, hvoid, htype, ← ha.lengths_eq, h.lengths_eq, hu, ← ha.window_eq, h.window_eq]

end Store

namespace Machine

variable {E : Abort → Prop} {m m' : Machine} {α β : Type} {x : Instruction} {ops : List CellId}
  {V : α → Machine → Prop} {W : β → Machine → Prop}

/-! ### Reading operands -/

section

variable {y : Operand} {c : CellId} {k : Nat} {next : Int}

theorem alike_grown (hs : m.store.Sound) (k : Nat) (c : CellId) :
    (m.grown k).store.Alike c m.store c := by
  have hroot := rootCell_grown hs k c
  exact ⟨by simp only [Store.buffer?, hroot]; rfl, by simp only [Store.size, hroot],
    by simp only [Store.lengths, hroot], by simp only [Store.offset, hroot]⟩

theorem rootCell_grown_of_le (hc : m.store.cells.size ≤ c) : (m.grown k).store.rootCell c = {} := by
  have hcell : (m.grown k).store.cell c = {} := by
    rw [grown, store, Store.cell_freshMany, Store.cell_of_le hc]
  rw [Store.rootCell, Store.root_eq_self (by rw [hcell]), hcell]

/-- An operand that is not void stands for a cell of the memory. -/
theorem cell?_of_fetched (hc : Fetched m y c) (hv : (m.grown k).store.type c ≠ .void) :
    m.memory.cell? y = some c := by
  unfold Fetched at hc
  split at hc
  · refine absurd ?_ hv
    simp [Store.type, Store.buffer?, rootCell_grown_of_le hc, Store.lanes?]
  · exact hc

theorem address_ok {n : Machine} : address c m = .ok next n ↔
    n = m ∧ ∃ v, m.store.int c = .ok v ∧ next = v.toInt := by
  simp only [address, consult, store]
  cases m.world.store.int c with
  | error e => simp [Except.map, Except.mapError]
  | ok v => simp [Except.map, Except.mapError, eq_comm, and_comm]

theorem type_ne_void_of_int {s : Store} {v : Int64} (h : s.int c = .ok v) : s.type c ≠ .void := by
  intro hvoid
  simp [Store.int, Store.scalar, Store.scalarAs, hvoid] at h

end

/-- The operand is no int container with an element. -/
def LacksAddress (m : Machine) (y : Operand) : Prop :=
  ∀ c, m.memory.cell? y = some c → ¬ m.store.HoldsAddress c

/-- Whether an instruction goes on at its label: a call, a return, or a jump whose condition
holds. -/
def GoesToLabel (m : Machine) (x : Instruction) : Prop :=
  x.opcode = .call ∨ x.opcode = .ret ∨ ∃ on y c, x.opcode = .jump on ∧ x.operands[2]? = some y ∧
    m.memory.cell? y = some c ∧ m.store.branches on c = .ok true

/-- The ways in which an instruction other than a call of host code can abort. -/
inductive Aborts (m : Machine) (x : Instruction) : Abort → Prop
  | allocation {e : Abort} : x.opcode.stores = true → Store.Unallocatable e → Aborts m x e
  | global {y : Operand} : y ∈ x.operands → y.part = .globals → m.memory.cell? y = none →
      Aborts m x (Memory.outside y m.memory.globals.size)
  | underflow : x.opcode.takesTop = true → m.memory.stack = #[] →
      Aborts m x (Memory.underflow (if x.opcode = .allocTop then "peek" else "pop"))
  | label {y : Operand} {e : Abort} : m.GoesToLabel x → x.operands[1]? = some y →
      m.LacksAddress y → e.IsFault "int64" → Aborts m x e
  | back {c : CellId} {e : Abort} : x.opcode = .ret → m.memory.stack.back? = some c →
      ¬ m.store.HoldsAddress c → e.IsFault "int64" → Aborts m x e
  | name {y : Operand} {c : CellId} {e : Abort} : x.opcode = .endFunction →
      x.operands[0]? = some y → m.memory.cell? y = some c →
      m.store.type c = .int ∨ m.store.type c = .string → m.store.size c = 0 →
      e.IsFault (Store.accessorName (m.store.type c)) → Aborts m x e
  | element {y : Operand} {c : CellId} {e : Abort} :
      x.opcode = .moveElement ∨ x.opcode = .referElement → x.operands[1]? = some y →
      m.memory.cell? y = some c → Store.Unindexable (m.store.lengths c) e → Aborts m x e

/-! ### Computations -/

/-- A computation gives a result with the property `V`, or refuses the data, or aborts for a reason
in `E`. -/
def Ends (E : Abort → Prop) (V : α → Machine → Prop) : EStateM.Result Failure Machine α → Prop
  | .ok a m => V a m
  | .error (.data _) _ => True
  | .error (.abort e) _ => E e

theorem Ends.bind {f : Action α} {g : α → Action β} (hf : Ends E V (f m))
    (hg : ∀ a m', f m = .ok a m' → V a m' → Ends E W (g a m')) : Ends E W ((f >>= g) m) := by
  change Ends E W (EStateM.bind f g m)
  unfold EStateM.bind
  cases hr : f m with
  | ok a m' =>
    rw [hr] at hf
    exact hg a m' hr hf
  | error e m' =>
    rw [hr] at hf
    cases e <;> exact hf

theorem Ends.weaken {r : EStateM.Result Failure Machine α} (h : Ends E V r) :
    Ends E (fun _ _ => True) r := by
  rcases r with _ | ⟨_ | _, _⟩
  · trivial
  · exact h
  · exact h

theorem Ends.pure {a : α} (h : V a m) : Ends E V ((Pure.pure a : Action α) m) := h

theorem Ends.refuse {c : DataCause} : Ends E V ((throw (.data c) : Action α) m) := trivial

theorem ends_consult {f : Machine → Except Failure α} (h : Answers E (fun a => V a m) (f m)) :
    Ends E V (consult f m) := by
  unfold consult
  split
  · rename_i a ha
    rw [ha] at h
    exact h
  · rename_i e he
    rw [he] at h
    cases e <;> exact h

theorem ends_onStore {f : Store → Except Failure Store}
    (h : Answers E (fun _ => True) (f m.store)) :
    Ends E (fun _ _ => True) (onStore f m) := by
  unfold onStore
  split
  · trivial
  · rename_i e he
    rw [store, he] at h
    cases e <;> exact h

theorem ends_onDestination {f : CellId → Store → Except Failure Store} (hops : 1 ≤ ops.length)
    (h : ∀ d, Answers E (fun _ => True) (f d m.store)) :
    Ends E (fun _ _ => True) (onDestination ops f m) := by
  cases ops with
  | nil => simp at hops
  | cons d ops => exact ends_onStore (h d)

/-- Reading an address fails only if there is none. -/
theorem ends_address {c : CellId} (hs : m.store.Sound)
    (h : ¬ m.store.HoldsAddress c → ∀ e, e.IsFault "int64" → E e) :
    Ends E (fun _ m' => m' = m) (address c m) := by
  refine ends_consult (Store.answers_mapError (fun _ _ => rfl) fun e he => ?_)
  cases hi : m.world.store.int c with
  | ok v => simp [hi, Except.map] at he
  | error e' =>
    simp only [hi, Except.map, Except.error.injEq] at he
    subst he
    refine h (fun ha => ?_) _ (Store.int_error hi)
    obtain ⟨v, hv⟩ := hs.exists_int ha.1 ha.2
    simp [store, hi] at hv

theorem ends_pop (h : m.memory.stack = #[] → E (Memory.underflow "pop")) :
    Ends E (fun c m' => m.memory.stack.back? = some c ∧ m'.store = m.store) (pop m) := by
  unfold pop Memory.pop
  cases hb : m.memory.stack.back? with
  | none => exact h (by simpa using hb)
  | some c => exact ⟨rfl, rfl⟩

theorem ends_peek (h : m.memory.stack = #[] → E (Memory.underflow "peek")) :
    Ends E (fun _ m' => m' = m) (peek m) := by
  refine ends_consult (Store.answers_mapError (fun _ _ => rfl) fun e he => ?_)
  unfold Memory.peek at he
  cases hb : m.memory.stack.back? with
  | none =>
    simp only [hb, Except.error.injEq] at he
    exact he ▸ h (by simpa using hb)
  | some c => simp [hb] at he

/-! ### Handing over -/

/-- The constants among operands hold scalars. -/
def Copied (s : Store) (ys : List Operand) (cs : List CellId) : Prop :=
  ∀ (i : Nat) (y : Operand) (c : CellId), ys[i]? = some y → cs[i]? = some c →
    y.part = .constants → c < s.cells.size ∧ ∃ v, s.Holds c (some v)

theorem Copied.drop {s : Store} {ys : List Operand} {cs : List CellId} (h : Copied s ys cs)
    (n : Nat) : Copied s (ys.drop n) (cs.drop n) := fun i y c hy hc =>
  h (n + i) y c (by simpa using hy) (by simpa using hc)

section

variable {s : Store} (hs : s.Sound)
include hs

theorem ends_handedOver {y : Operand} {c : CellId} (ha : Alters s.adding s m.store)
    (hc : y.part = .constants → c < s.cells.size ∧ ∃ v, s.Holds c (some v)) :
    Ends E (fun _ _ => True) (handedOver y c m) := by
  unfold handedOver
  split
  · rename_i hy
    obtain ⟨hlt, v, hv⟩ := hc hy
    have hm : m.store.Sound := (Alters.touches Grant.within_stores Store.region_new ha).sound hs
    obtain ⟨r, hr⟩ := hv.exists_clone (Alters.alike ha hs hlt) hm
    rw [show m.world.store.clone c = .ok r from hr]
    trivial
  · trivial

omit hs in
/-- What is handed over leaves all cells that were there. -/
theorem adding_handedOver {y : Operand} {c d : CellId} (ha : Alters s.adding s m.store)
    (h : handedOver y c m = .ok d m') : Alters s.adding s m'.store := by
  have hnew : GrantsNew s.adding m := fun c hc => Nat.le_trans (Alters.size_le False.elim ha) hc
  have he := effects_handedOver (y := y) (c := c) hnew
  rw [h] at he
  exact ha.trans he

theorem ends_pushAll {ys : List Operand} {cs : List CellId} (ha : Alters s.adding s m.store)
    (hc : Copied s ys cs) : Ends E (fun _ _ => True) (pushAll ys cs m) := by
  induction ys generalizing cs m with
  | nil => exact .pure trivial
  | cons y ys ih =>
    cases cs with
    | nil => exact .pure trivial
    | cons c cs =>
      refine (ends_handedOver hs ha (hc 0 y c rfl rfl)).bind fun d m₁ h₁ _ => ?_
      refine Ends.bind (V := fun _ m₂ => m₂.store = m₁.store) rfl fun _ m₂ _ h₂ => ?_
      exact ih (h₂ ▸ adding_handedOver ha h₁) fun i => hc (i + 1)

end

/-! ### Instructions -/

/-- The operand cells of an instruction, in a state that has grown by the cells of its absent
operands. -/
structure Fetching (m : Machine) (k : Nat) (x : Instruction) (ops : List CellId) : Prop where
  formed : m.store.Formed
  arity : x.opcode.arity.admits x.operands.length = true
  fetched : FetchedAll m k x.operands ops
  addressable : m.Addressable
  stack : ∀ c ∈ m.memory.stack, c < m.store.cells.size
  constants : ∀ y ∈ x.operands, y.part = .constants → ∀ c, m.memory.cell? y = some c →
    ∃ v, m.store.Holds c (some v)

variable {k : Nat} {env : Environment} {pc : Int}

namespace Fetching

theorem adding_grown (m : Machine) (k : Nat) : Alters m.store.adding m.store (m.grown k).store :=
  Alters.freshMany k

theorem least_le (h : Fetching m k x ops) : x.opcode.arity.least ≤ ops.length := by
  have harity := h.arity
  simp only [Opcode.Arity.admits, Bool.and_eq_true, decide_eq_true_eq] at harity
  rw [← h.fetched.length_eq]
  exact harity.1

theorem exists_operand (h : Fetching m k x ops) {i : Nat} (hi : i < x.opcode.arity.least) :
    ∃ c, ops[i]? = some c :=
  ⟨_, List.getElem?_eq_getElem (Nat.lt_of_lt_of_le hi h.least_le)⟩

theorem formed_grown (h : Fetching m k x ops) : (m.grown k).store.Formed :=
  Store.Alters.formed (Alters.freshMany k) h.formed

theorem alike (h : Fetching m k x ops) {y : Operand} {c : CellId}
    (hc : m.memory.cell? y = some c) : m.store.Alike c (m.grown k).store c :=
  Alters.alike (adding_grown m k) h.formed.sound (h.addressable y c hc)

theorem cell (h : Fetching m k x ops) {i : Nat} {c : CellId} (hc : ops[i]? = some c)
    (hv : (m.grown k).store.type c ≠ .void ∨ (m.grown k).store.lengths c ≠ []) :
    ∃ y, x.operands[i]? = some y ∧ m.memory.cell? y = some c := by
  obtain ⟨y, hy, hf, -⟩ := h.fetched.at hc
  unfold Fetched at hf
  split at hf
  · simp [Store.type, Store.buffer?, Store.lanes?, Store.lengths, rootCell_grown_of_le hf] at hv
  · exact ⟨y, hy, hf⟩

theorem lacksAddress (h : Fetching m k x ops) {i : Nat} {c : CellId} (hc : ops[i]? = some c)
    (hn : ¬ (m.grown k).store.HoldsAddress c) :
    ∃ y, x.operands[i]? = some y ∧ m.LacksAddress y := by
  obtain ⟨y, hy, hf, -⟩ := h.fetched.at hc
  refine ⟨y, hy, fun d hd ha => hn ?_⟩
  obtain rfl := hf.eq_of_cell hd
  have halike := h.alike (k := k) hd
  exact ⟨halike.type_eq ▸ ha.1, halike.size_eq ▸ ha.2⟩

theorem copied (h : Fetching m k x ops) : Copied m.store x.operands ops := by
  intro i y c hy hc hp
  obtain ⟨y', hy', hf, -⟩ := h.fetched.at hc
  rw [hy] at hy'
  cases hy'
  rw [Fetched, if_neg (by simp [hp])] at hf
  exact ⟨h.addressable y c hf, h.constants y (List.mem_of_getElem? hy) hp c hf⟩

/-- A change of the store aborts only if an allocation is impossible or the elements of an array
cannot be numbered. -/
theorem answers_change (h : Fetching m k x ops) {f : Store → Except Failure Store}
    (hf : change? x ops = some f) :
    Answers (Aborts m x) (fun _ => True) (f (m.grown k).store) := by
  have hs := h.formed_grown
  have hleast := h.least_le
  have halloc : x.opcode.stores = true → ∀ e, Store.Unallocatable e → Aborts m x e :=
    fun hst e => .allocation hst
  have helement : x.opcode = .moveElement ∨ x.opcode = .referElement → ∀ a, ops[1]? = some a →
      ∀ e, Store.Unindexable ((m.grown k).store.lengths a) e → Aborts m x e := by
    intro hop a ha e he
    have hne : (m.grown k).store.lengths a ≠ [] := by
      intro hnil
      have := he.1
      rw [hnil] at this
      exact absurd this (by decide)
    obtain ⟨y, hy, hc⟩ := h.cell ha (.inr hne)
    exact .element hop hy hc ((h.alike hc).lengths_eq ▸ he)
  have hindices : ∀ {d a : CellId} {indices : List CellId}, 3 ≤ x.opcode.arity.least →
      ops = d :: a :: indices → indices ≠ [] := by
    rintro d a indices hthree rfl rfl
    simp only [List.length_cons, List.length_nil] at hleast
    omega
  unfold change? at hf
  split at hf
  all_goals cases hf
  all_goals rename_i hop
  case h_8 => trivial
  case h_12 => trivial
  case h_14 =>
    exact (hs.answers_referElement (hindices (by simp [hop, Opcode.arity]) rfl)).mono
      (helement (.inr hop) _ rfl) fun _ => id
  all_goals have hE := halloc (by simp [hop, Opcode.stores, Opcode.writes])
  case h_1 => exact Store.answers_receive hE (hs.answers_arithmeticResult _).of_never
  case h_2 => exact Store.answers_receive hE (hs.answers_compareResult _).of_never
  case h_3 => exact Store.answers_receive hE (hs.answers_connectResult _).of_never
  case h_4 => exact Store.answers_receive hE hs.answers_negateResult.of_never
  case h_5 => exact Store.answers_receive hE hs.answers_complementResult.of_never
  case h_6 => exact hs.answers_allocate.mono hE fun _ => id
  case h_7 => exact Store.answers_allocateLike.mono hE fun _ => id
  case h_9 => exact Store.answers_receive hE (hs.answers_moveResult _).of_never
  case h_10 => exact Store.answers_receive hE (hs.answers_castResult _).of_never
  case h_11 => exact Store.answers_receive hE (hs.answers_fillResult _).of_never
  case h_13 =>
    refine Store.answers_receive hE ?_
    exact (hs.answers_elementResult (hindices (by simp [hop, Opcode.arity]) rfl)).mono
      (helement (.inl hop) _ rfl) fun _ => id

theorem ends_top (htop : x.opcode.takesTop = true) (hne : x.opcode ≠ .allocTop) :
    Ends (Aborts m x) (fun c m' => m.memory.stack.back? = some c ∧ m'.store = (m.grown k).store)
      (pop (m.grown k)) := by
  refine ends_pop fun hempty => ?_
  simpa [hne] using Aborts.underflow (m := m) htop hempty

theorem ends_label (h : Fetching m k x ops) (hto : m.GoesToLabel x) {c : CellId}
    (hc : ops[1]? = some c) :
    Ends (Aborts m x) (fun _ m' => m' = m.grown k) (address c (m.grown k)) := by
  refine ends_address h.formed_grown.sound fun hn e he => ?_
  obtain ⟨y, hy, hlacks⟩ := h.lacksAddress hc hn
  exact .label hto hy hlacks he

theorem ends_jump (h : Fetching m k x ops) {on : Bool} (hop : x.opcode = .jump on) :
    Ends (Aborts m x) (fun _ _ => True) (control env pc x ops (m.grown k)) := by
  obtain ⟨condition, hcondition⟩ := h.exists_operand (i := 2) (by simp [hop, Opcode.arity])
  rcases ops with _ | ⟨r, _ | ⟨target, _ | ⟨d, ops⟩⟩⟩
  · simp at hcondition
  · simp at hcondition
  · simp at hcondition
  obtain rfl : d = condition := by simpa using hcondition
  unfold control
  simp only [hop]
  have hbranches : Answers (Aborts m x) (fun b => (m.grown k).store.branches on d = .ok b)
      ((m.grown k).store.branches on d) := by
    have hread := (h.formed_grown.answers_readBools (c := d)).of_never (E := Aborts m x)
    unfold Store.branches
    cases hr : (m.grown k).store.readBools d with
    | ok xs => simp [Answers]
    | error e =>
      rw [hr] at hread
      cases e <;> exact hread
  refine (ends_consult (V := fun b m' => m' = m.grown k ∧
    (m.grown k).store.branches on d = .ok b) (hbranches.mono (fun _ => id)
      fun _ hb => ⟨rfl, hb⟩)).bind ?_
  rintro b _ - ⟨rfl, hb⟩
  cases b with
  | false => exact .pure trivial
  | true =>
    -- the condition is a bool container, so it is no new cell
    have htype : (m.grown k).store.type d ≠ .void := by
      intro hvoid
      simp [Store.branches, Store.readBools, hvoid, Store.refuse] at hb
    obtain ⟨y, hy, hc⟩ := h.cell (i := 2) (c := d) rfl (.inl htype)
    have hto : m.GoesToLabel x :=
      .inr (.inr ⟨on, y, d, hop, hy, hc, (h.alike hc).branches_eq on ▸ hb⟩)
    exact (h.ends_label hto (c := target) rfl).weaken

theorem ends_call (h : Fetching m k x ops) {p : Program} (hop : x.opcode = .call) :
    Ends (Aborts m x) (fun _ _ => True) (call p pc x ops (m.grown k)) := by
  obtain ⟨target, htarget⟩ := h.exists_operand (i := 1) (by simp [hop, Opcode.arity])
  rcases ops with _ | ⟨r, _ | ⟨d, args⟩⟩
  · simp at htarget
  · simp at htarget
  unfold call
  refine (h.ends_label (.inl hop) (c := d) rfl).bind ?_
  rintro f _ - rfl
  refine Ends.bind (V := fun _ m' => m' = m.grown k) rfl ?_
  rintro n _ - rfl
  split
  · exact Ends.bind (V := fun _ _ => False) trivial fun _ _ _ hfalse => hfalse.elim
  · refine Ends.bind (V := fun _ m' => m'.store = (m.grown k).store) rfl fun _ m₁ _ h₁ => ?_
    have ha₁ : Alters m.store.adding m.store m₁.store := h₁ ▸ adding_grown m k
    refine Ends.bind (V := fun _ m' => Alters m.store.adding m.store m'.store) ?_
      fun _ m₂ _ ha₂ => ?_
    · exact ha₁.trans (Alters.ofScalar (Alters.size_le False.elim ha₁) _)
    · exact (ends_pushAll h.formed.sound ha₂ (h.copied.drop 2)).bind fun _ _ _ _ => .pure trivial

theorem ends_pushValue (h : Fetching m k x ops) {m₁ : Machine}
    (ha : Alters m.store.adding m.store m₁.store) :
    Ends (Aborts m x) (fun _ m' => Alters m.store.adding m.store m'.store)
      (pushValue x ops m₁) := by
  have hfresh : Ends (Aborts m x) (fun _ m' => Alters m.store.adding m.store m'.store)
      (pushFresh m₁) := ha.tail .fresh
  unfold pushValue
  cases hy : x.operands.drop 2 with
  | nil => exact hfresh
  | cons y ys =>
    cases hc : ops.drop 2 with
    | nil => exact hfresh
    | cons c cs =>
      have hcopied := h.copied.drop 2
      rw [hy, hc] at hcopied
      refine (ends_handedOver h.formed.sound ha (hcopied 0 y c rfl rfl)).bind fun d m₂ h₂ _ => ?_
      exact (adding_handedOver ha h₂ : Alters m.store.adding m.store m₂.store)

theorem ends_ret (h : Fetching m k x ops) (hop : x.opcode = .ret) :
    Ends (Aborts m x) (fun _ _ => True) (ret x ops (m.grown k)) := by
  obtain ⟨target, htarget⟩ := h.exists_operand (i := 1) (by simp [hop, Opcode.arity])
  rcases ops with _ | ⟨r, _ | ⟨d, args⟩⟩
  · simp at htarget
  · simp at htarget
  unfold ret
  refine (ends_top (by simp [hop, Opcode.takesTop]) (by simp [hop])).bind ?_
  rintro top m₁ - ⟨htop, hstore⟩
  have hs₁ : m₁.store.Sound := hstore ▸ h.formed_grown.sound
  refine (ends_address hs₁ fun hn e he => ?_).bind ?_
  · have hlt := h.stack top (Array.mem_of_back? htop)
    have halike := Alters.alike (adding_grown m k) h.formed.sound hlt
    refine .back hop htop (fun ha => hn ?_) he
    rw [hstore]
    exact ⟨halike.type_eq ▸ ha.1, halike.size_eq ▸ ha.2⟩
  rintro f _ - rfl
  refine (h.ends_pushValue (hstore ▸ adding_grown m k)).bind fun _ m₂ _ ha => ?_
  have hs₂ : m₂.store.Sound :=
    (Alters.touches Grant.within_stores Store.region_new ha).sound h.formed.sound
  refine Ends.bind (V := fun _ _ => True) ?_ fun _ _ _ _ => .pure trivial
  unfold leave
  refine Ends.bind (V := fun _ _ => True) (ends_address hs₂ fun hn e he => ?_).weaken
    fun _ _ _ _ => trivial
  -- the label is read after the value was pushed, which left its cell as it was
  obtain ⟨y, hy, hf, -⟩ := h.fetched.at (i := 1) (c := d) rfl
  refine .label (.inr (.inl hop)) hy (fun c hc ha₀ => hn ?_) he
  have hne : y.part ≠ .absent := fun hp => by simp [Memory.cell?, hp, Memory.cells?] at hc
  rw [Fetched, if_neg hne, hc] at hf
  cases hf
  have halike := Alters.alike ha h.formed.sound (h.addressable y d hc)
  exact ⟨halike.type_eq ▸ ha₀.1, halike.size_eq ▸ ha₀.2⟩

theorem ends_endFunction (h : Fetching m k x ops) {p : Program} (hop : x.opcode = .endFunction) :
    Ends (Aborts m x) (fun _ _ => True) (endFunction p ops (m.grown k)) := by
  refine Ends.bind (V := fun _ _ => True) ?_ fun _ _ _ _ => .refuse
  cases ops with
  | nil => exact .pure trivial
  | cons c cs =>
    have hs := h.formed_grown
    -- a name that cannot be read is an array without elements
    have hname : ∀ e, (m.grown k).store.type c = .int ∨ (m.grown k).store.type c = .string →
        ¬ 1 ≤ (m.grown k).store.size c →
        e.IsFault (Store.accessorName ((m.grown k).store.type c)) → Aborts m x e := by
      intro e ht hsize he
      have hvoid : (m.grown k).store.type c ≠ .void := by
        rcases ht with ht | ht <;> simp [ht]
      obtain ⟨y, hy, hcell⟩ := h.cell (i := 0) rfl (.inl hvoid)
      have halike := h.alike (k := k) hcell
      obtain ⟨i, -, hi, -⟩ := Store.buffer_of_type hvoid
      have hpos : 0 ≤ (m.grown k).store.size c := (hs.sized _).nonneg hi
      have hzero : (m.grown k).store.size c = 0 := by omega
      rw [← halike.type_eq] at ht he
      exact .name hop hy hcell ht (halike.size_eq.trans hzero) he
    unfold endedName
    refine Ends.bind (V := fun n m' => n = m.grown k ∧ m' = m.grown k) ⟨rfl, rfl⟩ ?_
    rintro _ _ - ⟨rfl, rfl⟩
    cases ht : (m.grown k).world.store.type c
    case string =>
      refine ends_consult (Store.answers_mapError (fun _ _ => trivial) fun e he => ?_)
      refine hname e (.inr ht) (fun hsize => ?_) ?_
      · obtain ⟨v, hv⟩ := hs.sound.exists_string ht hsize
        rw [hv] at he
        cases he
      · rw [show (m.grown k).store.type c = .string from ht]
        exact Store.string_error he
    case int =>
      refine Ends.bind (V := fun _ _ => True) (ends_address hs.sound fun hn e he => ?_).weaken
        fun _ _ _ _ => .pure trivial
      refine hname e (.inl ht) (fun hsize => hn ⟨ht, hsize⟩) ?_
      rw [show (m.grown k).store.type c = .int from ht]
      exact he
    all_goals exact .pure trivial

theorem ends_control (h : Fetching m k x ops) (hknown : ∀ n, x.opcode ≠ .unknown n)
    (hcall : x.opcode ≠ .callExternal) (hchange : change? x ops = none) :
    Ends (Aborts m x) (fun _ _ => True) (control env pc x ops (m.grown k)) := by
  have hlen := h.least_le
  have halloc : x.opcode.stores = true → ∀ e, Store.Unallocatable e → Aborts m x e :=
    fun hst e => .allocation hst
  cases hop : x.opcode
  case jump on => exact h.ends_jump hop
  all_goals unfold control
  all_goals simp only [hop] at hlen halloc ⊢
  case allocTop =>
    refine (ends_peek fun hempty => ?_).bind ?_
    · simpa [hop] using Aborts.underflow (m := m) (x := x) (by simp [hop, Opcode.takesTop]) hempty
    rintro like _ - rfl
    refine (ends_onDestination hlen fun d => ?_).bind fun _ _ _ _ => .pure trivial
    exact Store.answers_allocateLike.mono (halloc rfl) fun _ => id
  case pop =>
    exact Ends.bind (V := fun _ _ => True)
      (ends_top (by simp [hop, Opcode.takesTop]) (by simp [hop])).weaken
      fun _ _ _ _ => .pure trivial
  case movePop =>
    refine (ends_top (by simp [hop, Opcode.takesTop]) (by simp [hop])).bind ?_
    rintro top m₁ - ⟨-, hstore⟩
    refine (ends_onDestination hlen fun d => ?_).bind fun _ _ _ _ => .pure trivial
    rw [hstore]
    exact Store.answers_receive (halloc rfl) (h.formed_grown.answers_moveResult _).of_never
  case referPop =>
    refine (ends_top (by simp [hop, Opcode.takesTop]) (by simp [hop])).bind ?_
    rintro top m₁ - -
    refine (ends_onDestination hlen fun d => ?_).bind fun _ _ _ _ => .pure trivial
    trivial
  case call => exact h.ends_call hop
  case ret => exact h.ends_ret hop
  case endFunction => exact (h.ends_endFunction hop).bind fun _ _ _ _ => .pure trivial
  case finish | nop | label | allocType | endParameters => exact .pure trivial
  case callExternal => exact absurd hop hcall
  case unknown n => exact absurd hop (hknown n)
  -- the other instructions change the store, if they have enough operands
  all_goals
    exfalso
    rcases ops with _ | ⟨a, _ | ⟨b, _ | ⟨c, ops⟩⟩⟩ <;> simp_all [change?, Opcode.arity]

theorem ends_execute (h : Fetching m k x ops) (hknown : ∀ n, x.opcode ≠ .unknown n)
    (hcall : x.opcode ≠ .callExternal) (env : Environment) (pc : Int) :
    Ends (Aborts m x) (fun _ _ => True) (execute env pc x ops (m.grown k)) := by
  unfold execute
  cases hf : change? x ops with
  | none => exact h.ends_control hknown hcall hf
  | some f => exact (ends_onStore (h.answers_change hf)).bind fun _ _ _ _ => .pure trivial

end Fetching

end Machine

end VectorMachine
