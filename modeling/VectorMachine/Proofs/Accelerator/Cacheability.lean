import Mathlib.Algebra.Group.Int.Defs
import VectorMachine.Proofs.Constants
import VectorMachine.Proofs.Store.Formed
import VectorMachine.Proofs.Store.Scalars

/-!
# Typed addresses hold isolated scalars

The typing of a program does not look at the order in which instructions run, so its meaning is an
invariant of all states: the cell of every typed local or register is isolated and is void or
holds a scalar of its type, and typed constants hold their scalars.  A step either exposes no typed
address, or stores a scalar of the right type into one.
-/

namespace VectorMachine
set_option autoImplicit false

namespace Machine

variable {m : Machine} {base : Nat} {Q : Operand → Prop} {c p : CellId} {v : Scalar} {s : Store}

/-- The state in which an instruction that only changes the store ends. -/
theorem finalState_execute {env : Environment} {pc : Int} {x : Instruction} {ops : List CellId}
    {f : Store → Except Failure Store} (hf : change? x ops = some f) :
    finalState (execute env pc x ops m) =
      match f m.store with
      | .ok s => { m with world.store := s }
      | .error _ => m := by
  simp only [execute, hf, bind, EStateM.bind, onStore, store]
  cases f m.world.store <;> rfl

end Machine

namespace Launch

open Accelerator (Typing Typed)

variable {l : Launch} {g : Typing} {m m' : Machine} {y : Operand} {t : DataType} {c : CellId}

/-- A typing that fits the program and the constants of a session. -/
structure Types (l : Launch) (g : Typing) : Prop where
  typed : ∀ {y t}, g.type? y = some t → Typed l.program.code.toList g y t
  constant : ∀ {y t}, g.type? y = some t → y.IsConstant →
    ∃ c, l.memory.cell? y = some c ∧ l.store.type c = t

/-- The guarded addresses of a typing. -/
def Closed (g : Typing) (y : Operand) : Prop := y.IsConstant ∨ ∃ t, g.type? y = some t

/-- A cell that is void or holds a scalar of a type. -/
def Suits (s : Store) (c : CellId) (t : DataType) : Prop :=
  ∃ o, s.Holds c o ∧ ∀ v, o = some v → v.type = t

/-- What holds of typed addresses in all states. -/
structure Sealed (l : Launch) (g : Typing) (m : Machine) : Prop where
  guarded : m.Guarded l.base (Closed g)
  own : ∀ {y : Operand}, y.IsOwn → m.memory.cell? y = l.memory.cell? y
  constants : ∀ {y c o}, y.IsConstant → l.memory.cell? y = some c → l.store.Holds c o →
    m.store.Holds c o
  suits : ∀ {y t c}, g.type? y = some t → l.memory.cell? y = some c → Suits m.store c t

theorem Types.isOwn (hg : l.Types g) (h : Closed g y) : y.IsOwn := by
  rcases h with h | ⟨t, h⟩
  · exact h.isOwn
  · exact (hg.typed h).isOwn

theorem Sealed.moves (hg : l.Types g) (h : l.Sealed g m)
    (hm : Machine.Moves (fun c => ¬ m.IsGuard (Closed g) c) m m') : l.Sealed g m' := by
  have hguard : ∀ {y c}, Closed g y → l.memory.cell? y = some c → m.IsGuard (Closed g) c :=
    fun hy hc => ⟨_, hy, (h.own (hg.isOwn hy)).trans hc⟩
  refine ⟨h.guarded.moves hm, fun hy => ?_, fun hy hc ho => ?_, fun ht hc => ?_⟩
  · rw [hm.cell? (Memory.stack_ne_of_own hy)]
    exact h.own hy
  · exact h.guarded.holds hm (hguard (.inl hy) hc) (h.constants hy hc ho)
  · obtain ⟨o, ho, hv⟩ := h.suits ht hc
    exact ⟨o, h.guarded.holds hm (hguard (.inr ⟨_, ht⟩) hc) ho, hv⟩

theorem Sealed.stores (hg : l.Types g) (h : l.Sealed g m) {v : Scalar} {s : Store}
    (ht : g.type? y = some t) (hy : y.part ≠ .constants) (hc : l.memory.cell? y = some c)
    (hv : v.type = t) (hs : m.store.Stores c v s) :
    l.Sealed g { m with world.store := s } := by
  have hguard : ∀ {y c}, Closed g y → l.memory.cell? y = some c → m.IsGuard (Closed g) c :=
    fun hy hc => ⟨_, hy, (h.own (hg.isOwn hy)).trans hc⟩
  have hyo := (hg.typed ht).isOwn
  -- another address has another cell
  have hother : ∀ {z d}, Closed g z → l.memory.cell? z = some d → z ≠ y → d ≠ c := by
    rintro z d hz hd hne rfl
    have hzo := hg.isOwn hz
    exact hne (h.guarded.apart.own_inj hzo hyo ((h.own hzo).trans hd) ((h.own hyo).trans hc))
  refine ⟨h.guarded.rewrites hs.toRewrites, h.own, fun {z d o} hz hd ho => ?_,
    fun {z u d} hu hd => ?_⟩
  · have hne : z ≠ y := fun he => hy (he ▸ hz)
    exact h.guarded.holds_rewrites (hguard (.inl hz) hd) hs.toRewrites (hother (.inl hz) hd hne)
      (h.constants hz hd ho)
  · by_cases hzy : z = y
    · subst hzy
      rw [ht] at hu
      cases hu
      rw [hc] at hd
      cases hd
      refine ⟨some v, hs.holds, fun w hw => ?_⟩
      cases hw
      exact hv
    · obtain ⟨o, ho, hw⟩ := h.suits hu hd
      exact ⟨o, h.guarded.holds_rewrites (hguard (.inr ⟨u, hu⟩) hd) hs.toRewrites
        (hother (.inr ⟨u, hu⟩) hd hzy) ho, hw⟩

/-- The cells of operands, as far as they are typed. -/
abbrev Operands (l : Launch) (g : Typing) (ys : List Operand) (cs : List CellId) : Prop :=
  List.Forall₂ (fun y c => ∀ t, g.type? y = some t → l.memory.cell? y = some c) ys cs

theorem Sealed.holds (h : l.Sealed g m) (ht : g.type? y = some t)
    (hc : ∀ t, g.type? y = some t → l.memory.cell? y = some c) : Suits m.store c t :=
  h.suits ht (hc t ht)

theorem typed_of_reads {ys : List Operand} {u : DataType} (h : g.reads ys u = true)
    (hy : y ∈ ys) : ∃ t, g.type? y = some t ∧ t.converts u = true := by
  have := List.all_eq_true.mp h y hy
  cases ht : g.type? y with
  | none => simp [ht] at this
  | some t => exact ⟨t, rfl, by simpa [ht] using this⟩

theorem length_of_admits {x : Instruction} {n : Nat} (h : x.opcode.arity = ⟨n, some n⟩)
    (ha : x.opcode.arity.admits x.operands.length = true) : x.operands.length = n := by
  simp only [h, Opcode.Arity.admits, Option.all_some, Bool.and_eq_true, decide_eq_true_eq] at ha
  omega

/-- The sources that an instruction reads hold scalars, or nothing. -/
theorem Sealed.holds_reads (h : l.Sealed g m) {ys : List Operand} {cs : List CellId}
    {u : DataType} (hops : l.Operands g ys cs) (hr : g.reads ys u = true) :
    List.Forall₂ (fun y c => ∃ t, g.type? y = some t ∧ Suits m.store c t) ys cs := by
  refine List.forall₂_iff_get.mpr ⟨hops.length_eq, fun i hy hc => ?_⟩
  obtain ⟨t, ht, -⟩ := typed_of_reads hr (List.get_mem ys ⟨i, hy⟩)
  exact ⟨t, ht, h.holds ht ((List.forall₂_iff_get.mp hops).2 i hy hc)⟩

theorem Sealed.holds_two {x : Instruction} {ops : List CellId} {d : CellId} {u : DataType}
    (h : l.Sealed g m) (hadm : x.Admissible l.program)
    (hops : l.Operands g x.operands (d :: ops)) (ha : x.opcode.arity = ⟨3, some 3⟩)
    (hr : g.reads (x.operands.drop 1) u = true) : ∃ a b oa ob, ops = [a, b] ∧
      m.store.Holds a oa ∧ m.store.Holds b ob := by
  obtain ⟨y, z, w, hx⟩ := List.length_eq_three.mp (length_of_admits ha hadm.arity)
  rw [hx] at hops hr
  rcases hops with _ | ⟨_, hsources⟩
  rcases h.holds_reads hsources hr with
    _ | ⟨⟨_, -, oa, ha, -⟩, _ | ⟨⟨_, -, ob, hb, -⟩, _ | _⟩⟩
  exact ⟨_, _, oa, ob, rfl, ha, hb⟩

theorem Sealed.holds_one {x : Instruction} {ops : List CellId} {d : CellId} {u : DataType}
    (h : l.Sealed g m) (hadm : x.Admissible l.program)
    (hops : l.Operands g x.operands (d :: ops)) (ha : x.opcode.arity = ⟨2, some 2⟩)
    (hr : g.reads (x.operands.drop 1) u = true) : ∃ y a t o, x.operands.drop 1 = [y] ∧
      ops = [a] ∧ g.type? y = some t ∧ m.store.Holds a o ∧ ∀ v, o = some v → v.type = t := by
  obtain ⟨y, z, hx⟩ := List.length_eq_two.mp (length_of_admits ha hadm.arity)
  rw [hx] at hops hr
  rcases hops with _ | ⟨_, hsources⟩
  rcases h.holds_reads hsources hr with _ | ⟨⟨t, ht, o, ho, hty⟩, _ | _⟩
  exact ⟨z, _, t, o, by rw [hx]; rfl, rfl, ht, ho, hty⟩

/-- A move gives a scalar of the type that the typing expects. -/
theorem yields_moved {s : Store} {a : Operand} {o : Option Scalar} {b : Bool} {u : DataType}
    (ha : s.Holds c o) (hty : ∀ v, o = some v → v.type = t) (ht : g.type? a = some t)
    (hu : (g.movedType u [a]).isCacheable = true) :
    Store.Yields (s.moveResult u b c) (g.movedType u [a]) := by
  have hy : Store.Yields (s.moveResult u b c) (if u.isConcrete then u else s.type c) :=
    Store.yields_move ha
  cases u
  case any =>
    have hm : g.movedType .any [a] = t := by simp [Typing.movedType, ht]
    rw [hm]
    cases o with
    | none =>
      intro lengths data hr
      simp [Store.moveResult, ha.isVoid_eq, Store.refuse] at hr
    | some v =>
      rw [ha.type_eq] at hy
      exact hty v rfl ▸ hy
  case void => cases hu
  all_goals exact hy

/-- An instruction that produces a scalar for its destination receives it there. -/
theorem Sealed.produces {x : Instruction} {ops : List CellId} {d : CellId} (h : l.Sealed g m)
    (hadm : x.Admissible l.program) (hops : l.Operands g x.operands (d :: ops))
    (hp : g.produces? x = some t) : ∃ r : Store → Except Failure (List Int × Lanes),
      Machine.change? x (d :: ops) = some (fun s => s.receive d (r s)) ∧
        Store.Yields (r m.store) t := by
  unfold Typing.produces? at hp
  dsimp only at hp
  unfold Machine.change?
  cases hop : x.opcode <;>
    simp only [hop, Option.ite_none_right_eq_some, Option.some.injEq, reduceCtorEq] at hp
  case arithmetic op =>
    obtain ⟨⟨ht, hr⟩, rfl⟩ := hp
    obtain ⟨a, b, oa, ob, rfl, ha, hb⟩ := h.holds_two hadm hops (by rw [hop]; rfl) hr
    exact ⟨_, rfl, Store.yields_arithmetic ha hb ht⟩
  case compare op =>
    obtain ⟨⟨-, -, hr⟩, rfl⟩ := hp
    obtain ⟨a, b, oa, ob, rfl, ha, hb⟩ := h.holds_two hadm hops (by rw [hop]; rfl) hr
    exact ⟨_, rfl, Store.yields_compare ha hb⟩
  case connect op =>
    obtain ⟨⟨-, hr⟩, rfl⟩ := hp
    obtain ⟨a, b, oa, ob, rfl, ha, hb⟩ := h.holds_two hadm hops (by rw [hop]; rfl) hr
    exact ⟨_, rfl, Store.yields_connect ha hb⟩
  case negate =>
    obtain ⟨⟨-, hr⟩, rfl⟩ := hp
    obtain ⟨y, a, -, o, -, rfl, -, ha, -⟩ := h.holds_one hadm hops (by rw [hop]; rfl) hr
    exact ⟨_, rfl, Store.yields_negate ha⟩
  case not =>
    obtain ⟨⟨-, hr⟩, rfl⟩ := hp
    obtain ⟨y, a, -, o, -, rfl, -, ha, -⟩ := h.holds_one hadm hops (by rw [hop]; rfl) hr
    exact ⟨_, rfl, Store.yields_complement ha⟩
  case move =>
    obtain ⟨⟨hu, hr⟩, rfl⟩ := hp
    obtain ⟨y, a, u, o, hy, rfl, ht, ha, hty⟩ := h.holds_one hadm hops (by rw [hop]; rfl) hr
    rw [hy] at hu ⊢
    exact ⟨_, rfl, yields_moved ha hty ht hu⟩

/-- An instruction that exposes a typed address stores a scalar of its type there, if it does
anything. -/
theorem Sealed.change {x : Instruction} {ops : List CellId} (h : l.Sealed g m) (hg : l.Types g)
    (hx : x ∈ l.program.code) (hadm : x.Admissible l.program)
    (hops : l.Operands g x.operands ops) {i : Nat} (hy : x.operands[i]? = some y)
    (he : x.exposes i = true) (ht : g.type? y = some t) :
    ∃ f, Machine.change? x ops = some f ∧ ∀ s, f m.store = .ok s →
      l.Sealed g { m with world.store := s } := by
  obtain ⟨rfl, hpart, hkind⟩ := (hg.typed ht).exposed (by simpa using hx) hadm hy he
  obtain ⟨ys, hys⟩ : ∃ ys, x.operands = y :: ys := by
    cases hxo : x.operands with
    | nil => simp [hxo] at hy
    | cons z ys =>
      simp only [hxo, List.getElem?_cons_zero, Option.some.injEq] at hy
      exact ⟨ys, hy ▸ rfl⟩
  obtain ⟨d, ds, rfl⟩ : ∃ d ds, ops = d :: ds := by
    rw [hys] at hops
    cases hops
    exact ⟨_, _, rfl⟩
  have hd : l.memory.cell? y = some d := by
    rw [hys] at hops
    cases hops with
    | cons hd _ => exact hd t ht
  have hclosed : Closed g y := .inr ⟨t, ht⟩
  have hiso := h.guarded.isolated ⟨y, hclosed, (h.own (hg.isOwn hclosed)).trans hd⟩
  obtain ⟨o, ho, hty⟩ := h.suits ht hd
  rcases hkind with ⟨hop, hops', htype⟩ | ⟨_, hprod⟩
  · -- a scalar allocation
    rw [hops'] at hops
    rcases hops with _ | ⟨_, _ | _⟩
    refine ⟨_, by simp [Machine.change?, hop]; rfl, fun s hs => ?_⟩
    have hcon : t.isConcrete = true := by
      have := (hg.typed ht).isCacheable
      cases t <;> first | rfl | cases this
    have hs' : m.store.alloc d t [] = .ok s := by
      simpa [Store.allocate, htype, hcon, Store.mapError_eq_ok] using hs
    cases o with
    | none =>
      obtain ⟨v, s', hv, -, hs'', hst⟩ := Store.alloc_holds_none h.guarded.sound hiso ho hcon
      rw [hs'] at hs''
      cases hs''
      exact h.stores hg ht hpart hd hv hst
    | some v =>
      have hv := hty v rfl
      rw [← hv, Store.alloc_holds_some ho] at hs'
      cases hs'
      exact h
  · obtain ⟨r, hr, hyields⟩ := h.produces hadm hops hprod
    refine ⟨_, hr, fun s hs => ?_⟩
    obtain ⟨v, hv, hst⟩ := Store.stores_receive h.guarded.sound hiso ho hty hyields hs
    exact h.stores hg ht hpart hd hv hst

theorem Valid.mem_code (x : Instruction) {pc : Int}
    (hx : Machine.instructionAt? l.program pc = some x) : x ∈ l.program.code := by
  unfold Machine.instructionAt? at hx
  split at hx
  · cases hx
  · exact Array.mem_of_getElem? hx

theorem Sealed.operands_fetched (hg : l.Types g) (h : l.Sealed g m) {ys : List Operand}
    {ops : List CellId} (hf : Machine.fetchAll ys m = .ok ops m') : l.Operands g ys ops := by
  obtain ⟨-, -, hok⟩ := Machine.fetchAll_spec ys m
  refine (hok ops _ hf).imp fun z c hz u hu => ?_
  have hown := (hg.typed hu).isOwn
  have habs : z.part ≠ .absent := by
    rcases hown with h | h | h <;> simp [h]
  exact (h.own hown).symm.trans (hz.1.cell habs)

/-- Every step keeps what holds of typed addresses. -/
theorem Sealed.step (hl : l.Valid) (hg : l.Types g) (h : l.Sealed g m) (pc : Int) :
    l.Sealed g (finalState (Machine.step l.environment pc m)) := by
  by_cases hexp : ∃ x i y t, Machine.instructionAt? l.program pc = some x ∧ x.exposes i = true ∧
      x.operands[i]? = some y ∧ g.type? y = some t
  · obtain ⟨x, i, y, t, hx, he, hy, ht⟩ := hexp
    have hadm := hl.admissible hx
    obtain ⟨n, hn, -⟩ := Machine.fetchAll_spec x.operands m
    have hgrown : l.Sealed g (m.grown n) := h.moves hg (Machine.moves_grown h.guarded.within n)
    unfold Machine.step
    rw [show Machine.instructionAt? l.environment.program pc = some x from hx]
    simp only
    cases hf : Machine.fetchAll x.operands m with
    | error a m₁ =>
      rw [hf] at hn
      exact hn ▸ hgrown
    | ok ops m₁ =>
      rw [hf] at hn
      change m₁ = _ at hn
      subst hn
      have hops := h.operands_fetched hg hf
      obtain ⟨f, hf', hs⟩ := hgrown.change hg (Valid.mem_code x hx) hadm hops hy he ht
      have hres : l.Sealed g (finalState (Machine.execute l.environment pc x ops (m.grown n))) := by
        rw [Machine.finalState_execute hf']
        split
        · rename_i s hfs
          exact hs s hfs
        · exact hgrown
      simp only
      split
      all_goals (rename_i hr; rw [hr] at hres; exact hres)
  · refine h.moves hg (h.guarded.moves_step (hl.staysIn h.guarded.isOwn h.own) fun x hx => ?_)
    have hadm := hl.admissible hx
    refine ⟨hadm.knows, fun i y he hy hc => ?_⟩
    rcases hc with hc | ⟨t, ht⟩
    · rw [Accelerator.not_exposes_constant hadm hy hc] at he
      cases he
    · exact hexp ⟨x, i, y, t, hx, he, hy, ht⟩

theorem Sealed.restart (hg : l.Types g) (h : l.Sealed g m) : l.Sealed g { m with running := [] } :=
  h.moves hg ⟨.refl h.guarded.within.region, rfl, rfl, rfl, rfl, h.guarded.within.stack⟩

theorem Sealed.rewound (hg : l.Types g) {globals : Array CellId} (h : l.Sealed g m)
    (hglobals : ∀ c ∈ globals, c < l.base) : l.Sealed g (m.rewound globals) := by
  have hguard : ∀ {y c}, Closed g y → l.memory.cell? y = some c → m.IsGuard (Closed g) c :=
    fun hy hc => ⟨_, hy, (h.own (hg.isOwn hy)).trans hc⟩
  refine ⟨h.guarded.rewound hglobals, fun hy => ?_, fun hy hc ho => ?_, fun ht hc => ?_⟩
  · rw [Machine.cell?_rewound hy]
    exact h.own hy
  · exact h.guarded.holds_rewound (hguard (.inl hy) hc) (h.constants hy hc ho)
  · obtain ⟨o, ho, hv⟩ := h.suits ht hc
    exact ⟨o, h.guarded.holds_rewound (hguard (.inr ⟨_, ht⟩) hc) ho, hv⟩

theorem Valid.holds_constant (hl : l.Valid) (hy : y.IsConstant)
    (hc : l.memory.cell? y = some c) : ∃ text v, l.program.immediates[y.addr.toNat]? = some text ∧
      Literal.decodeImmediate text = .ok v ∧ l.store.Holds c (some v) := by
  have ha := Memory.allocated hl.sound hl.allocated
  obtain ⟨vs, hvs, hholds⟩ := ha.values
  obtain ⟨_, h₁ | h₁ | h₁⟩ := Machine.cell?_of_allocated ha hy.isOwn hc
  · exact absurd (h₁.1.symm.trans hy) (by simp)
  · exact absurd (h₁.1.symm.trans hy) (by simp)
  · obtain ⟨-, hlt, rfl⟩ := h₁
    have hlt' : y.addr.toNat < vs.length := hvs.length_eq ▸ hlt
    have hv : vs[y.addr.toNat]? = some vs[y.addr.toNat] := List.getElem?_eq_getElem hlt'
    obtain ⟨text, htext, hdec⟩ := Machine.exists_of_forall₂ hvs hv
    exact ⟨text, _, htext, hdec, hholds _ _ hv⟩

theorem Sealed.allocated (hl : l.Valid) (hg : l.Types g) : l.Sealed g l.machine := by
  have ha := Memory.allocated hl.sound hl.allocated
  refine ⟨Machine.guarded_of_allocated ha hl.sound hl.globals_lt hg.isOwn, fun _ => rfl,
    fun _ _ ho => ho, fun {y t c} ht hc => ?_⟩
  by_cases hy : y.IsConstant
  · obtain ⟨-, v, -, -, hv⟩ := hl.holds_constant hy hc
    obtain ⟨c', hc', htype⟩ := hg.constant ht hy
    rw [hc] at hc'
    cases hc'
    refine ⟨some v, hv, fun w hw => ?_⟩
    cases hw
    rw [hv.type_eq] at htype
    exact htype
  · refine ⟨none, ha.void c ?_ ?_, fun _ h => by cases h⟩ <;>
      obtain ⟨_, h₁ | h₁ | h₁⟩ := Machine.cell?_of_allocated ha (hg.typed ht).isOwn hc
    all_goals first
      | exact absurd h₁.1 hy
      | omega

/-! ### The typing of a session -/

theorem Types.typing : l.Types (Accelerator.typing l.program l.store l.memory) := by
  refine ⟨Accelerator.typed_typing, fun {y t} ht hy => ?_⟩
  rcases Accelerator.mem_of_typing ht with h | ⟨x, _, hx⟩
  · exact (Accelerator.mem_constantEntries h).2.2
  · exact absurd hy (Accelerator.isOwn_of_allocation hx).2.2.1

/-- The typing is the same at all stages, since it looks at constants only. -/
theorem typing_eq_of_reached (hl : l.Valid) {accelerated : Bool} {stage : Stage}
    (h : Reached l accelerated stage) :
    Accelerator.typing l.program stage.machine.store stage.machine.memory =
      Accelerator.typing l.program l.store l.memory := by
  have hp := (preserves_of_reached hl.sparing h).1
  have hentries : Accelerator.constantEntries stage.machine.store stage.machine.memory =
      Accelerator.constantEntries l.store l.memory := by
    unfold Accelerator.constantEntries
    rw [hp.constants_eq]
    refine List.filterMap_congr fun ⟨c, i⟩ hci => ?_
    have hi := List.mk_mem_zipIdx_iff_getElem?.mp hci
    have hcell : l.memory.cell? ⟨.constants, (i : Int)⟩ = some c := by
      simpa [Memory.cell?, Memory.cells?, Int.not_lt.mpr (Int.natCast_nonneg i)] using hi
    have hconst : Operand.IsConstant ⟨.constants, (i : Int)⟩ := rfl
    obtain ⟨_, v, -, -, hv⟩ := hl.holds_constant hconst hcell
    have hv' := hp.holds hconst hcell hv
    simp only [hv.type_eq, hv'.type_eq, hv.rank_eq, hv'.rank_eq]
  unfold Accelerator.typing
  rw [hentries]

theorem sealed_of_reached (hl : l.Valid) (hg : l.Types g) {stage : Stage}
    (h : Reached l false stage) : l.Sealed g stage.machine := by
  induction h with
  | allocated => exact .allocated hl hg
  | rewound _ hglobals ih => exact ih.rewound hg hglobals
  | interpret _ ih => exact ih.restart hg
  | step pc _ ih => exact ih.step hl hg pc
  | interpreted _ ih => exact ih
  | accelerate _ _ ha => cases ha
  | unit _ h _ => exact absurd rfl (not_accelerating h)
  | accelerated h _ => exact absurd rfl (not_accelerating h)

/-! ### Where typed addresses have no cell -/

/-- An address that the program declares has a cell, unless the number of addresses does not fit
64 bits. -/
theorem Valid.cell?_of_knows (hl : l.Valid) (hy : y.part = .locals ∨ y.part = .registers)
    (hk : l.program.Knows y) (hc : l.memory.cell? y = none) :
    2 ^ 63 - 1 ≤ l.program.greatestAddress y.part := by
  have ha := Memory.allocated hl.sound hl.allocated
  have hsize : ∀ {cs : Array CellId} {k : Nat} {n : Int}, cs = Memory.consecutive k
      (Memory.extentSize n) → 0 ≤ y.addr → y.addr ≤ n → cs[y.addr.toNat]? = none →
      2 ^ 63 - 1 ≤ n := by
    rintro cs k n rfl h₀ hle hnone
    rw [Memory.getElem?_consecutive] at hnone
    by_contra hlt
    rw [Memory.extentSize, wrap_of_lt (by omega) (by omega), if_pos (by omega)] at hnone
    cases hnone
  rcases hy with hy | hy <;>
    simp only [Program.Knows, hy] at hk <;>
    simp only [Memory.cell?, hy, Memory.cells?, Option.bind_some, Int.not_lt.mpr hk.1,
      if_false] at hc
  · rw [hy]
    exact hsize ha.locals_eq hk.1 hk.2 hc
  · rw [hy]
    exact hsize ha.registers_eq hk.1 hk.2 hc

theorem Valid.exists_cell (hl : l.Valid) (hy : y.IsOwn) (hk : l.program.Knows y)
    (hlt : y.part = .locals ∨ y.part = .registers →
      l.program.greatestAddress y.part < 2 ^ 63 - 1) : ∃ c, l.memory.cell? y = some c := by
  cases hc : l.memory.cell? y with
  | some c => exact ⟨c, rfl⟩
  | none =>
    exfalso
    have hworking : ¬ (y.part = .locals ∨ y.part = .registers) := fun hy =>
      Int.not_lt.mpr (hl.cell?_of_knows hy hk hc) (hlt hy)
    have hp : y.part = .constants := by
      rcases hy with hy | hy | hy
      · exact absurd (.inl hy) hworking
      · exact absurd (.inr hy) hworking
      · exact hy
    have ha := Memory.allocated hl.sound hl.allocated
    simp only [Program.Knows, hp] at hk
    simp only [Memory.cell?, hp, Memory.cells?, Option.bind_some, Int.not_lt.mpr hk.1, if_false,
      ha.constants_eq, Memory.getElem?_consecutive, Program.layout, Program.immediates,
      List.length_map, List.length_range] at hc
    split at hc
    · cases hc
    · omega

/-- A typed address without a cell is a local or a register, of which there are too many. -/
theorem Valid.cell?_of_type? (hl : l.Valid)
    (ht : (Accelerator.typing l.program l.store l.memory).type? y = some t)
    (hc : l.memory.cell? y = none) : y.part ≠ .constants ∧
      2 ^ 63 - 1 ≤ l.program.greatestAddress y.part := by
  have hg : l.Types (Accelerator.typing l.program l.store l.memory) := .typing
  have hy : y.part ≠ .constants := by
    intro hy
    obtain ⟨c, hcc, -⟩ := hg.constant ht hy
    rw [hc] at hcc
    cases hcc
  refine ⟨hy, hl.cell?_of_knows ?_ ?_ hc⟩
  · rcases (hg.typed ht).isOwn with h | h | h
    · exact .inl h
    · exact .inr h
    · exact absurd h hy
  · rcases Accelerator.mem_of_typing ht with hcon | ⟨x, hx, ha⟩
    · exact absurd (Accelerator.mem_constantEntries hcon).1 hy
    · have hops := (Accelerator.isOwn_of_allocation ha).2.2.2.2.1
      exact (hl.wellFormed.code x (Array.mem_toList_iff.mp hx)).knows y (by simp [hops])

/-- The typing of a program is sound for every state of the machine in every session: a typed
local or register is no link and on no chain of links, shares its buffer with no container, is
neither on the stack nor a global, and is void or a scalar of its type; a typed constant holds its
scalar.  Only a partition whose number of addresses does not fit 64 bits has no cell for a typed
address. -/
theorem typing_sound (hl : l.Valid) {stage₀ stage : Stage} (h₀ : Reached l false stage₀)
    (h : Reached l false stage)
    (ht : (Accelerator.typing l.program stage₀.machine.store stage₀.machine.memory).type? y =
      some t) :
    (∀ c, stage.machine.memory.cell? y = some c → stage.machine.store.Isolated c ∧
      c ∉ stage.machine.memory.stack ∧ c ∉ stage.machine.memory.globals ∧
      (y.part ≠ .constants → Suits stage.machine.store c t) ∧
      (y.part = .constants → ∃ text v, l.program.immediates[y.addr.toNat]? = some text ∧
        Literal.decodeImmediate text = .ok v ∧ v.type = t ∧
        stage.machine.store.Holds c (some v))) ∧
    (stage.machine.memory.cell? y = none → y.part ≠ .constants ∧
      2 ^ 63 - 1 ≤ l.program.greatestAddress y.part) := by
  rw [typing_eq_of_reached hl h₀] at ht
  have hg : l.Types (Accelerator.typing l.program l.store l.memory) := .typing
  have hs := sealed_of_reached hl hg h
  have hown := (hg.typed ht).isOwn
  have hclosed : Closed (Accelerator.typing l.program l.store l.memory) y := .inr ⟨t, ht⟩
  refine ⟨fun c hc => ?_, fun hc => ?_⟩
  · have hc' : l.memory.cell? y = some c := (hs.own hown).symm.trans hc
    have hguard : stage.machine.IsGuard (Closed _) c := ⟨y, hclosed, hc⟩
    refine ⟨hs.guarded.isolated hguard, fun hst => hs.guarded.off_stack c hst hguard,
      fun hgl => ?_, fun _ => hs.suits ht hc', fun hy => ?_⟩
    · obtain ⟨i, hi, hci⟩ := Array.mem_iff_getElem.mp hgl
      have hlt := hs.guarded.apart.globals_lt (y := ⟨.globals, (i : Int)⟩) (c := c) rfl (by
        simp [Memory.cell?, Memory.cells?, Int.not_lt.mpr (Int.natCast_nonneg i), hi, hci])
      exact Nat.not_lt.mpr (hs.guarded.apart.own_ge hown hc) hlt
    · obtain ⟨text, v, htext, hv, hh⟩ := hl.holds_constant hy hc'
      have hh' := hs.constants hy hc' hh
      obtain ⟨o, ho, hty⟩ := hs.suits ht hc'
      have htype : v.type = t := by
        obtain ⟨d, hd, hdt⟩ := hg.constant ht hy
        rw [hc'] at hd
        cases hd
        rw [hh.type_eq] at hdt
        exact hdt
      exact ⟨text, v, htext, hv, htype, hh'⟩
  · exact hl.cell?_of_type? ht ((hs.own hown).symm.trans hc)

/-- A local that is allocated as a scalar and assigned a constant. -/
def assignLocal : Program where
  code := #[
    { opcode := .alloc, types := [.int], operands := [⟨.locals, 0⟩] },
    { opcode := .move, types := [.int], operands := [⟨.locals, 0⟩, ⟨.constants, 0⟩] },
    { opcode := .finish, types := [.void] }]
  constants := ⟨[("~int:5", 0)]⟩
  extent := { locals := 0, constants := 0 }

/-- The local is typed, and isolated after every run. -/
theorem typing_sound_assignLocal :
    (Accelerator.typing assignLocal (Launch.on assignLocal none {} #[]).store
        (Launch.on assignLocal none {} #[]).memory).type? ⟨.locals, 0⟩ = some .int ∧
      ∀ m, Reached (.on assignLocal none {} #[]) false (.idle m) →
        ∀ c, m.memory.cell? ⟨.locals, 0⟩ = some c → m.store.Isolated c ∧ Suits m.store c .int := by
  have hasm : (Assembler.assemble "ALLOC int L0; MOV int L0 ~int:5; END void;" {}).toOption =
      some assignLocal := by decide +kernel
  have hl : (Launch.on assignLocal none {} #[]).Valid :=
    valid_on hasm Store.sound_empty (by simp) (by decide +kernel) fun _ h => by cases h
  have ht : (Accelerator.typing assignLocal (Launch.on assignLocal none {} #[]).store
      (Launch.on assignLocal none {} #[]).memory).type? ⟨.locals, 0⟩ = some .int := by
    decide +kernel
  refine ⟨ht, fun m h c hc => ?_⟩
  obtain ⟨hcell, -⟩ := typing_sound hl .allocated h ht
  obtain ⟨hi, -, -, hs, -⟩ := hcell c hc
  exact ⟨hi, hs (by simp)⟩

end Launch

end VectorMachine
