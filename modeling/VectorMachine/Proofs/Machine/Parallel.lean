import VectorMachine.Proofs.Machine.Reach
import VectorMachine.Proofs.Store.Agreement

/-!
# Two machines in parallel

Two machines are tied along a pairing of their cells if their stores match, their stacks are
paired, and so are the cells of some addresses.  A step of one instruction on tied machines whose
operands are paired gives the same next address or the same error, and tied machines again.
-/

namespace VectorMachine
set_option autoImplicit false

open Store (Pairing Matches Agrees NewPair)

/-- What two calls of host code have in common: both return or fail alike, and the stores match
along a greater pairing. -/
def SameCall (deep : Prop) (R : Pairing) :
    EStateM.Result CallStop World Unit → EStateM.Result CallStop World Unit → Prop
  | .ok _ w, .ok _ w' =>
    ∃ R' : Pairing, R.Below R' ∧ Matches deep R' w.store w'.store ∧ w.journal = w'.journal
  | .error e w, .error e' w' => e = e' ∧
    ∃ R' : Pairing, R.Below R' ∧ Matches deep R' w.store w'.store ∧ w.journal = w'.journal
  | _, _ => False

/-- Host code that is determined by what it is handed: its effect does not depend on the identity
of containers nor on any others. -/
def Linker.Respects (deep : Prop) (link : Linker) : Prop :=
  ∀ (R : Pairing) (w w' : World) (index : Int) (args args' : List CellId) (result result' : CellId),
    Matches deep R w.store w'.store → w.journal = w'.journal → List.Forall₂ R args args' →
      R result result' → SameCall deep R (link index args result w) (link index args' result' w')

namespace Machine

variable {deep : Prop} {D : Operand → Prop} {R R' : Pairing} {m m' : Machine} {c c' : CellId}
  {α α' β β' ε : Type}

/-- The cells of the addresses in `D` are paired. -/
structure Tied (deep : Prop) (D : Operand → Prop) (R : Pairing) (m m' : Machine) : Prop where
  store : Matches deep R m.store m'.store
  journal : m.world.journal = m'.world.journal
  running : m.running = m'.running
  stack : List.Forall₂ R m.memory.stack.toList m'.memory.stack.toList
  off_stack : ∀ {y}, D y → y.part ≠ .stack
  cells : ∀ {y}, D y → Option.Rel R (m.memory.cell? y) (m'.memory.cell? y)
  sizes : ∀ {p}, p ≠ .stack →
    (m.memory.cells? p).map Array.size = (m'.memory.cells? p).map Array.size

theorem Tied.withWorld {w w' : World} (h : Tied deep D R m m') (hle : R.Below R')
    (hs : Matches deep R' w.store w'.store) (hj : w.journal = w'.journal) :
    Tied deep D R' { m with world := w } { m' with world := w' } where
  store := hs
  journal := hj
  running := h.running
  stack := h.stack.imp hle
  off_stack := h.off_stack
  cells hy := Store.rel_mono (fun {c c'} => hle c c') (h.cells hy)
  sizes := h.sizes

theorem Tied.withStore {s s' : Store} (h : Tied deep D R m m') (hle : R.Below R')
    (hs : Matches deep R' s s') :
    Tied deep D R' { m with world.store := s } { m' with world.store := s' } :=
  h.withWorld hle hs h.journal

/-- Two results are the same error, or related by `V` in the state that was reached. -/
def Relates (deep : Prop) (D : Operand → Prop) (R : Pairing) (V : Pairing → α → α' → Prop) :
    EStateM.Result ε Machine α → EStateM.Result ε Machine α' → Prop
  | .ok a m, .ok a' m' => ∃ R' : Pairing, R.Below R' ∧ Tied deep D R' m m' ∧ V R' a a'
  | .error e m, .error e' m' => e = e' ∧ ∃ R' : Pairing, R.Below R' ∧ Tied deep D R' m m'
  | _, _ => False

theorem Relates.bind {V : Pairing → α → α' → Prop} {W : Pairing → β → β' → Prop}
    {x : EStateM ε Machine α} {x' : EStateM ε Machine α'} {f : α → EStateM ε Machine β}
    {f' : α' → EStateM ε Machine β'} (hx : Relates deep D R V (x m) (x' m'))
    (hf : ∀ (R' : Pairing) a a' n n', R.Below R' → Tied deep D R' n n' → V R' a a' →
      Relates deep D R' W (f a n) (f' a' n')) :
    Relates deep D R W ((x >>= f) m) ((x' >>= f') m') := by
  change Relates deep D R W (EStateM.bind x f m) (EStateM.bind x' f' m')
  unfold EStateM.bind
  cases h₁ : x m with
  | error e n =>
    cases h₂ : x' m' with
    | error e' n' =>
      rw [h₁, h₂] at hx
      exact hx
    | ok a' n' =>
      rw [h₁, h₂] at hx
      exact hx.elim
  | ok a n =>
    cases h₂ : x' m' with
    | error e' n' =>
      rw [h₁, h₂] at hx
      exact hx.elim
    | ok a' n' =>
      rw [h₁, h₂] at hx
      obtain ⟨R₁, hle₁, ht₁, hv₁⟩ := hx
      have hr := hf R₁ a a' n n' hle₁ ht₁ hv₁
      simp only
      cases h₃ : f a n <;> cases h₄ : f' a' n' <;> rw [h₃, h₄] at hr
      · obtain ⟨R₂, hle₂, hrest⟩ := hr
        exact ⟨R₂, fun c c' hc => hle₂ c c' (hle₁ c c' hc), hrest⟩
      · exact hr.elim
      · exact hr.elim
      · obtain ⟨he, R₂, hle₂, hrest⟩ := hr
        exact ⟨he, R₂, fun c c' hc => hle₂ c c' (hle₁ c c' hc), hrest⟩

theorem Relates.pure {V : Pairing → α → α' → Prop} {a : α} {a' : α'} (h : Tied deep D R m m')
    (ha : V R a a') : Relates deep D R V ((Pure.pure a : EStateM ε Machine α) m)
      ((Pure.pure a' : EStateM ε Machine α') m') :=
  ⟨R, fun _ _ => id, h, ha⟩

theorem Relates.throw {V : Pairing → α → α' → Prop} {e : ε} (h : Tied deep D R m m') :
    Relates deep D R V ((MonadExcept.throw e : EStateM ε Machine α) m)
      ((MonadExcept.throw e : EStateM ε Machine α') m') :=
  ⟨rfl, R, fun _ _ => id, h⟩

/-! ### Single actions -/

abbrev Same (_ : Pairing) (a b : α) : Prop := a = b

theorem relates_consult {V : Pairing → α → α' → Prop} {f : Machine → Except Failure α}
    {f' : Machine → Except Failure α'} (h : Tied deep D R m m') (hf : Agrees (V R) (f m) (f' m')) :
    Relates deep D R V (consult f m) (consult f' m') := by
  unfold consult
  cases h₁ : f m <;> cases h₂ : f' m' <;> rw [h₁, h₂] at hf
  · exact ⟨hf, R, fun _ _ => id, h⟩
  · exact hf
  · exact hf
  · exact ⟨R, fun _ _ => id, h, hf⟩

theorem relates_onStore {f f' : Store → Except Failure Store} (h : Tied deep D R m m')
    (hf : Agrees (Matches deep R) (f m.store) (f' m'.store)) :
    Relates deep D R Same (onStore f m) (onStore f' m') := by
  unfold onStore
  simp only [store] at hf
  cases h₁ : f m.world.store <;> cases h₂ : f' m'.world.store <;> rw [h₁, h₂] at hf
  · exact ⟨hf, R, fun _ _ => id, h⟩
  · exact hf
  · exact hf
  · exact ⟨R, fun _ _ => id, h.withStore (fun _ _ => id) hf, rfl⟩

theorem relates_modify {f f' : Machine → Machine} (hf : Tied deep D R (f m) (f' m')) :
    Relates deep D R Same ((modify f : EStateM ε Machine PUnit) m)
      ((modify f' : EStateM ε Machine PUnit) m') :=
  ⟨R, fun _ _ => id, hf, rfl⟩

theorem cells?_push (mem : Memory) (c : CellId) {p : Partition} (hp : p ≠ .stack) :
    (mem.push c).cells? p = mem.cells? p := by
  cases p <;> first | rfl | exact absurd rfl hp

theorem Tied.withMemory {mem mem' : Memory} (h : Tied deep D R m m')
    (hcells : ∀ {p : Partition}, p ≠ .stack → mem.cells? p = m.memory.cells? p)
    (hcells' : ∀ {p : Partition}, p ≠ .stack → mem'.cells? p = m'.memory.cells? p)
    (hstack : List.Forall₂ R mem.stack.toList mem'.stack.toList) :
    Tied deep D R { m with memory := mem } { m' with memory := mem' } where
  store := h.store
  journal := h.journal
  running := h.running
  stack := hstack
  off_stack := h.off_stack
  cells {y} hy := by
    have := h.cells hy
    unfold Memory.cell? at this ⊢
    simpa only [hcells (h.off_stack hy), hcells' (h.off_stack hy)] using this
  sizes hp := by
    simp only [hcells hp, hcells' hp]
    exact h.sizes hp

theorem relates_push (h : Tied deep D R m m') (hc : R c c') :
    Relates deep D R Same (push c m) (push c' m') := by
  refine ⟨R, fun _ _ => id, h.withMemory (cells?_push _ _) (cells?_push _ _) ?_, rfl⟩
  simp only [Memory.push, Array.toList_push]
  exact List.rel_append h.stack (.cons hc .nil)

theorem forall₂_getLast {xs ys : List CellId} (h : List.Forall₂ R xs ys) :
    Option.Rel R xs.getLast? ys.getLast? ∧ List.Forall₂ R xs.dropLast ys.dropLast := by
  induction h with
  | nil => exact ⟨.none, .nil⟩
  | cons hc ht ih =>
    cases ht with
    | nil => exact ⟨.some hc, .nil⟩
    | cons => exact ⟨ih.1, .cons hc ih.2⟩

theorem forall₂_back {xs ys : Array CellId} (h : List.Forall₂ R xs.toList ys.toList) :
    Option.Rel R xs.back? ys.back? ∧ List.Forall₂ R xs.pop.toList ys.pop.toList := by
  have := forall₂_getLast h
  simpa only [Array.getLast?_toList, Array.toList_pop] using this

theorem relates_pop (h : Tied deep D R m m') :
    Relates deep D R (fun R c c' => R c c') (pop m) (pop m') := by
  obtain ⟨hb, hp⟩ := forall₂_back h.stack
  unfold pop Memory.pop
  cases h₁ : m.memory.stack.back? <;> cases h₂ : m'.memory.stack.back? <;> rw [h₁, h₂] at hb <;>
    cases hb
  · exact ⟨rfl, R, fun _ _ => id, h⟩
  · refine ⟨R, fun _ _ => id, h.withMemory (fun {p} hp => ?_) (fun {p} hp => ?_) hp, ‹_›⟩
    all_goals cases p <;> first | rfl | exact absurd rfl hp

theorem relates_peek (h : Tied deep D R m m') :
    Relates deep D R (fun R c c' => R c c') (peek m) (peek m') := by
  refine relates_consult h (Agrees.mapError ?_)
  have hb := (forall₂_back h.stack).1
  unfold Memory.peek
  cases h₁ : m.memory.stack.back? <;> cases h₂ : m'.memory.stack.back? <;> rw [h₁, h₂] at hb <;>
    cases hb
  · rfl
  · assumption

theorem relates_pushNew {x x' : CellId × Store} (h : Tied deep D R m m') (hx : NewPair deep R x x') :
    Relates deep D R Same (push x.1 { m with world.store := x.2 })
      (push x'.1 { m' with world.store := x'.2 }) := by
  obtain ⟨R', hle, hs, hc⟩ := hx
  obtain ⟨R'', hle', ht⟩ := relates_push (h.withStore hle hs) hc
  exact ⟨R'', fun c c' hc => hle' c c' (hle c c' hc), ht⟩

theorem relates_pushFresh (h : Tied deep D R m m') :
    Relates deep D R Same (pushFresh m) (pushFresh m') :=
  relates_pushNew h ⟨_, fun _ _ => .inl, h.store.fresh, .inr ⟨rfl, rfl⟩⟩

theorem relates_pushScalar (h : Tied deep D R m m') (x : Scalar) :
    Relates deep D R Same (pushScalar x m) (pushScalar x m') :=
  relates_pushNew h (h.store.ofScalar x)

theorem relates_address (h : Tied deep D R m m') (hc : R c c') :
    Relates deep D R Same (address c m) (address c' m') := by
  refine relates_consult h (Agrees.of_eq ?_ fun _ => rfl)
  rw [(h.store.alike hc).int_eq]

theorem relates_get (h : Tied deep D R m m') : Relates deep D R (fun R n n' => Tied deep D R n n')
    ((get : EStateM ε Machine Machine) m) ((get : EStateM ε Machine Machine) m') :=
  ⟨R, fun _ _ => id, h, h⟩

theorem relates_handedOver (h : Tied deep D R m m') (y : Operand) (hc : R c c') :
    Relates deep D R (fun R c c' => R c c') (handedOver y c m) (handedOver y c' m') := by
  unfold handedOver
  split
  · have hcl := h.store.clone hc
    simp only [store] at hcl
    cases h₁ : m.world.store.clone c <;> cases h₂ : m'.world.store.clone c' <;>
      rw [h₁, h₂] at hcl
    · exact ⟨congrArg _ hcl, R, fun _ _ => id, h⟩
    · exact hcl
    · exact hcl
    · obtain ⟨R', hle, hs, hd⟩ := hcl
      exact ⟨R', hle, h.withStore hle hs, hd⟩
  · exact ⟨R, fun _ _ => id, h, hc⟩

theorem relates_handedOverAll (ys : List Operand) {cs cs' : List CellId} (h : Tied deep D R m m')
    (hcs : List.Forall₂ R cs cs') :
    Relates deep D R (fun R ds ds' => List.Forall₂ R ds ds') (handedOverAll ys cs m)
      (handedOverAll ys cs' m') := by
  induction ys generalizing cs cs' m m' R with
  | nil => exact .pure h .nil
  | cons y ys ih =>
    cases hcs with
    | nil => exact .pure h .nil
    | cons hc hcs =>
      refine (relates_handedOver h y hc).bind fun R₁ d d' n n' hle₁ h₁ hd => ?_
      refine (ih h₁ (hcs.imp hle₁)).bind fun R₂ ds ds' n n' hle₂ h₂ hds => ?_
      exact .pure h₂ (.cons (hle₂ d d' hd) hds)

theorem relates_pushAll (ys : List Operand) {cs cs' : List CellId} (h : Tied deep D R m m')
    (hcs : List.Forall₂ R cs cs') :
    Relates deep D R Same (pushAll ys cs m) (pushAll ys cs' m') := by
  induction ys generalizing cs cs' m m' R with
  | nil => exact .pure h rfl
  | cons y ys ih =>
    cases hcs with
    | nil => exact .pure h rfl
    | cons hc hcs =>
      refine (relates_handedOver h y hc).bind fun R₁ d d' n n' hle₁ h₁ hd => ?_
      refine (relates_push h₁ hd).bind fun R₂ _ _ n n' hle₂ h₂ _ => ?_
      exact ih h₂ (hcs.imp fun c c' hc => hle₂ c c' (hle₁ c c' hc))

theorem Tied.withRunning (h : Tied deep D R m m') (f : List Int → List Int) :
    Tied deep D R { m with running := f m.running } { m' with running := f m'.running } :=
  ⟨h.store, h.journal, congrArg f h.running, h.stack, h.off_stack, h.cells, h.sizes⟩

/-! ### Instructions -/

theorem relates_call {p : Program} {pc : Int} {x : Instruction} {ops ops' : List CellId}
    (h : Tied deep D R m m') (hops : List.Forall₂ R ops ops') :
    Relates deep D R Same (call p pc x ops m) (call p pc x ops' m') := by
  rcases hops with _ | ⟨hr, _ | ⟨hf, hargs⟩⟩
  · exact .throw h
  · exact .throw h
  · refine (relates_address h hf).bind fun R₁ f f' n n' hle₁ h₁ hff => ?_
    subst hff
    refine (relates_get h₁).bind fun R₂ k k' n n' hle₂ h₂ hk => ?_
    rw [hk.running]
    split
    · exact .throw h₂
    · refine (relates_modify (h₂.withRunning (f :: ·))).bind fun R₃ _ _ n n' hle₃ h₃ _ => ?_
      refine (relates_pushScalar h₃ _).bind fun R₄ _ _ n n' hle₄ h₄ _ => ?_
      refine (relates_pushAll _ h₄ (hargs.imp fun c c' hc =>
        hle₄ c c' (hle₃ c c' (hle₂ c c' (hle₁ c c' hc))))).bind fun R₅ _ _ n n' _ h₅ _ => ?_
      exact .pure h₅ rfl

theorem relates_pushValue {x : Instruction} {ops ops' : List CellId} (h : Tied deep D R m m')
    (hops : List.Forall₂ R ops ops') :
    Relates deep D R Same (pushValue x ops m) (pushValue x ops' m') := by
  have hdrop := List.forall₂_drop 2 hops
  unfold pushValue
  revert hdrop
  generalize ops.drop 2 = cs, ops'.drop 2 = cs'
  intro hdrop
  cases x.operands.drop 2 with
  | nil => exact relates_pushFresh h
  | cons y ys =>
    cases hdrop with
    | nil => exact relates_pushFresh h
    | cons hc _ =>
      exact (relates_handedOver h y hc).bind fun R₁ d d' n n' _ h₁ hd => relates_push h₁ hd

theorem relates_leave {ops ops' : List CellId} (h : Tied deep D R m m')
    (hops : List.Forall₂ R ops ops') : Relates deep D R Same (leave ops m) (leave ops' m') := by
  rcases hops with _ | ⟨hr, _ | ⟨hf, hargs⟩⟩
  · exact .throw h
  · exact .throw h
  · refine (relates_address h hf).bind fun R₁ f f' n n' _ h₁ hff => ?_
    subst hff
    exact relates_modify (h₁.withRunning (·.filter (· ≠ f)))

theorem relates_ret {x : Instruction} {ops ops' : List CellId} (h : Tied deep D R m m')
    (hops : List.Forall₂ R ops ops') : Relates deep D R Same (ret x ops m) (ret x ops' m') := by
  refine (relates_pop h).bind fun R₁ c c' n n' hle₁ h₁ hc => ?_
  refine (relates_address h₁ hc).bind fun R₂ b b' n n' hle₂ h₂ hb => ?_
  subst hb
  have hops₂ := hops.imp fun c c' hc => hle₂ c c' (hle₁ c c' hc)
  refine (relates_pushValue h₂ hops₂).bind fun R₃ _ _ n n' hle₃ h₃ _ => ?_
  refine (relates_leave h₃ (hops₂.imp hle₃)).bind fun R₄ _ _ n n' _ h₄ _ => ?_
  exact .pure h₄ rfl

theorem relates_invoke {p : Program} {link : Linker} {index : Int} {args args' : List CellId}
    (h : Tied deep D R m m') (hlink : link.Respects deep) (hargs : List.Forall₂ R args args')
    (hc : R c c') :
    Relates deep D R Same (invoke p link index args c m) (invoke p link index args' c' m') := by
  have hcall := hlink R m.world m'.world index args args' c c' h.store h.journal hargs hc
  unfold invoke
  cases h₁ : link index args c m.world with
  | ok u w =>
    cases h₂ : link index args' c' m'.world with
    | ok u' w' =>
      rw [h₁, h₂] at hcall
      obtain ⟨R', hle, hs, hj⟩ := hcall
      exact ⟨R', hle, h.withWorld hle hs hj, rfl⟩
    | error e' w' =>
      rw [h₁, h₂] at hcall
      exact hcall.elim
  | error e w =>
    cases h₂ : link index args' c' m'.world with
    | ok u' w' =>
      rw [h₁, h₂] at hcall
      exact hcall.elim
    | error e' w' =>
      rw [h₁, h₂] at hcall
      obtain ⟨rfl, R', hle, hs, hj⟩ := hcall
      cases e <;> exact ⟨rfl, R', hle, h.withWorld hle hs hj⟩

theorem relates_callExternal {env : Environment} {x : Instruction} {ops ops' : List CellId}
    (h : Tied deep D R m m') (hlink : ∀ link, env.linker = some link → link.Respects deep)
    (hops : List.Forall₂ R ops ops') :
    Relates deep D R Same (callExternal env x ops m) (callExternal env x ops' m') := by
  unfold callExternal
  cases hl : env.linker with
  | none => exact .throw h
  | some link =>
    rcases hops with _ | ⟨hr, _ | ⟨hf, hargs⟩⟩
    · exact .throw h
    · exact .throw h
    · refine (relates_address h hf).bind fun R₁ i i' n n' hle₁ h₁ hi => ?_
      subst hi
      refine (relates_handedOverAll _ h₁ (hargs.imp hle₁)).bind fun R₂ ds ds' n n' hle₂ h₂ hds => ?_
      exact relates_invoke h₂ (hlink link hl) hds (hle₂ _ _ (hle₁ _ _ hr))

theorem relates_endedName {p : Program} {ops ops' : List CellId} (h : Tied deep D R m m')
    (hops : List.Forall₂ R ops ops') :
    Relates deep D R Same (endedName p ops m) (endedName p ops' m') := by
  cases hops with
  | nil => exact .pure h rfl
  | cons hc _ =>
    refine (relates_get h).bind fun R₁ k k' n n' hle₁ h₁ hk => ?_
    have hc₁ := hle₁ _ _ hc
    rw [(hk.store.alike hc₁).type_eq]
    cases k'.world.store.type _
    case string =>
      refine relates_consult h₁ (Agrees.of_eq ?_ fun _ => rfl)
      rw [(h₁.store.alike hc₁).string_eq]
    case int =>
      refine (relates_address h₁ hc₁).bind fun R₂ f f' n n' _ h₂ hf => ?_
      subst hf
      exact .pure h₂ rfl
    all_goals exact .pure h₁ rfl

theorem relates_endFunction {p : Program} {ops ops' : List CellId} (h : Tied deep D R m m')
    (hops : List.Forall₂ R ops ops') :
    Relates deep D R Same (endFunction p ops m) (endFunction p ops' m') := by
  refine (relates_endedName h hops).bind fun R₁ n n' k k' _ h₁ hn => ?_
  subst hn
  exact .throw h₁

theorem change?_agrees {x : Instruction} {ops ops' : List CellId} {s s' : Store}
    (hs : Matches deep R s s') (hops : List.Forall₂ R ops ops') :
    match change? x ops, change? x ops' with
    | some f, some f' => Agrees (Matches deep R) (f s) (f' s')
    | none, none => True
    | _, _ => False := by
  unfold change?
  cases hop : x.opcode
  case arithmetic op =>
    rcases hops with _ | ⟨hd, _ | ⟨ha, _ | ⟨hb, hrest⟩⟩⟩ <;> try trivial
    exact hs.receive hd ((hs.alike ha).arithmeticResult_eq (hs.alike hb) op)
  case compare op =>
    rcases hops with _ | ⟨hd, _ | ⟨ha, _ | ⟨hb, hrest⟩⟩⟩ <;> try trivial
    exact hs.receive hd ((hs.alike ha).compareResult_eq (hs.alike hb) op)
  case connect op =>
    rcases hops with _ | ⟨hd, _ | ⟨ha, _ | ⟨hb, hrest⟩⟩⟩ <;> try trivial
    exact hs.receive hd ((hs.alike ha).connectResult_eq (hs.alike hb) op)
  case negate =>
    rcases hops with _ | ⟨hd, _ | ⟨ha, hrest⟩⟩ <;> try trivial
    exact hs.receive hd (hs.alike ha).negateResult_eq
  case not =>
    rcases hops with _ | ⟨hd, _ | ⟨ha, hrest⟩⟩ <;> try trivial
    exact hs.receive hd (hs.alike ha).complementResult_eq
  case alloc =>
    rcases hops with _ | ⟨hd, hrest⟩ <;> try trivial
    exact hs.allocate hd _ hrest
  case allocLike =>
    rcases hops with _ | ⟨hd, _ | ⟨ha, hrest⟩⟩ <;> try trivial
    exact hs.allocateLike hd _ ha
  case free =>
    rcases hops with _ | ⟨hd, hrest⟩ <;> try trivial
    exact hs.free hd
  case move =>
    rcases hops with _ | ⟨hd, _ | ⟨ha, hrest⟩⟩ <;> try trivial
    refine hs.receive hd ?_
    rw [(hs.alike hd).isScalar_eq, (hs.alike ha).moveResult_eq]
  case cast =>
    rcases hops with _ | ⟨hd, _ | ⟨ha, hrest⟩⟩ <;> try trivial
    refine hs.receive hd ?_
    rw [(hs.alike hd).shape_eq, (hs.alike ha).castResult_eq]
  case fill =>
    rcases hops with _ | ⟨hd, _ | ⟨ha, hrest⟩⟩ <;> try trivial
    refine hs.receive hd ?_
    rw [(hs.alike hd).shape_eq, (hs.alike ha).fillResult_eq]
  case refer =>
    rcases hops with _ | ⟨hd, _ | ⟨ha, hrest⟩⟩ <;> try trivial
    exact hs.link hd ha
  case moveElement =>
    rcases hops with _ | ⟨hd, _ | ⟨ha, hrest⟩⟩ <;> try trivial
    exact hs.receive hd (hs.elementResult_eq _ ha hrest)
  case referElement =>
    rcases hops with _ | ⟨hd, _ | ⟨ha, hrest⟩⟩ <;> try trivial
    exact hs.referElement hd ha hrest
  all_goals cases hops <;> trivial

theorem relates_onDestination {ops ops' : List CellId} {f f' : CellId → Store → Except Failure Store}
    (h : Tied deep D R m m') (hops : List.Forall₂ R ops ops')
    (hf : ∀ {d d'}, R d d' → Agrees (Matches deep R) (f d m.store) (f' d' m'.store)) :
    Relates deep D R Same (onDestination ops f m) (onDestination ops' f' m') := by
  cases hops with
  | nil => exact .throw h
  | cons hd _ => exact relates_onStore h (hf hd)

theorem relates_control {env : Environment} {pc : Int} {x : Instruction} {ops ops' : List CellId}
    (h : Tied deep D R m m')
    (hlink : x.opcode = .callExternal → ∀ link, env.linker = some link → link.Respects deep)
    (hops : List.Forall₂ R ops ops') :
    Relates deep D R Same (control env pc x ops m) (control env pc x ops' m') := by
  unfold control
  cases hop : x.opcode
  case allocTop =>
    refine (relates_peek h).bind fun R₁ a a' n n' hle₁ h₁ ha => ?_
    refine (relates_onDestination h₁ (hops.imp hle₁) fun hd => ?_).bind fun R₂ _ _ n n' _ h₂ _ => ?_
    · exact h₁.store.allocateLike hd _ ha
    · exact .pure h₂ rfl
  case pop => exact (relates_pop h).bind fun R₁ _ _ n n' _ h₁ _ => .pure h₁ rfl
  case movePop =>
    refine (relates_pop h).bind fun R₁ a a' n n' hle₁ h₁ ha => ?_
    refine (relates_onDestination h₁ (hops.imp hle₁) fun hd => ?_).bind fun R₂ _ _ n n' _ h₂ _ => ?_
    · refine h₁.store.receive hd ?_
      rw [(h₁.store.alike hd).isScalar_eq, (h₁.store.alike ha).moveResult_eq]
    · exact .pure h₂ rfl
  case referPop =>
    refine (relates_pop h).bind fun R₁ a a' n n' hle₁ h₁ ha => ?_
    refine (relates_onDestination h₁ (hops.imp hle₁) fun hd => ?_).bind fun R₂ _ _ n n' _ h₂ _ => ?_
    · exact h₁.store.link hd ha
    · exact .pure h₂ rfl
  case jump on =>
    rcases hops with _ | ⟨hr, _ | ⟨ht, _ | ⟨hb, hrest⟩⟩⟩
    case cons.cons.cons =>
      refine (relates_consult (V := Same) h (Agrees.of_eq ((h.store.alike hb).branches_eq on)
        fun _ => rfl)).bind fun R₁ b b' n n' hle₁ h₁ hbb => ?_
      subst hbb
      cases b with
      | true => exact relates_address h₁ (hle₁ _ _ ht)
      | false => exact .pure h₁ rfl
    all_goals exact .throw h
  case call => exact relates_call h hops
  case callExternal =>
    exact (relates_callExternal h (hlink hop) hops).bind fun R₁ _ _ n n' _ h₁ _ => .pure h₁ rfl
  case ret => exact relates_ret h hops
  case endFunction =>
    exact (relates_endFunction h hops).bind fun R₁ _ _ n n' _ h₁ _ => .pure h₁ rfl
  case finish | nop | label | allocType | endParameters => exact .pure h rfl
  case unknown => exact .throw h
  all_goals exact .throw h

theorem relates_execute {env : Environment} {pc : Int} {x : Instruction} {ops ops' : List CellId}
    (h : Tied deep D R m m')
    (hlink : x.opcode = .callExternal → ∀ link, env.linker = some link → link.Respects deep)
    (hops : List.Forall₂ R ops ops') :
    Relates deep D R Same (execute env pc x ops m) (execute env pc x ops' m') := by
  have hchange := change?_agrees (x := x) h.store hops
  unfold execute
  cases hf : change? x ops with
  | none =>
    cases hf' : change? x ops' with
    | none => exact relates_control h hlink hops
    | some f' =>
      rw [hf, hf'] at hchange
      exact hchange.elim
  | some f =>
    cases hf' : change? x ops' with
    | none =>
      rw [hf, hf'] at hchange
      exact hchange.elim
    | some f' =>
      rw [hf, hf'] at hchange
      exact (relates_onStore h hchange).bind fun R₁ _ _ n n' _ h₁ _ => .pure h₁ rfl

/-! ### Steps -/

/-- Addresses whose cells are paired give them, or fail in the same way. -/
theorem Tied.get_agrees {y : Operand} (h : Tied deep D R m m') (hy : D y) (hp : y.part ≠ .absent)
    (s s' : Store) :
    Agrees (fun x x' => R x.1 x'.1) (m.memory.get s y) (m'.memory.get s' y) := by
  have hcell := h.cells hy
  have hsize := h.sizes (h.off_stack hy)
  unfold Memory.cell? at hcell
  unfold Memory.get
  split
  · contradiction
  · cases h₁ : m.memory.cells? y.part <;> cases h₂ : m'.memory.cells? y.part <;>
      simp only [h₁, h₂, Option.map_none, Option.map_some, reduceCtorEq, Option.some.injEq] at hsize
    · rfl
    · rename_i cs cs'
      simp only [h₁, h₂, Option.bind_some] at hcell
      simp only [hsize]
      split
      · rfl
      · rename_i hneg
        simp only [hneg, if_false] at hcell
        cases h₃ : cs[y.addr.toNat]? <;> cases h₄ : cs'[y.addr.toNat]? <;> rw [h₃, h₄] at hcell <;>
          cases hcell
        · rfl
        · assumption

/-- The operands of an instruction are paired, as far as they stand for something. -/
def Pairs (D : Operand → Prop) (ys : List Operand) : Prop :=
  ∀ y ∈ ys, y.part = .absent ∨ D y

theorem relates_fetch {y : Operand} (h : Tied deep D R m m') (hy : y.part = .absent ∨ D y) :
    Relates deep D R (fun R c c' => R c c') (fetch y m) (fetch y m') := by
  by_cases hp : y.part = .absent
  · have hnew : Relates (ε := Abort) deep D R (fun R c c' => R c c') (freshCell m) (freshCell m') :=
      ⟨_, fun _ _ => .inl, h.withStore (fun _ _ => .inl) h.store.fresh, .inr ⟨rfl, rfl⟩⟩
    simpa [fetch, hp] using hnew
  · have hg := h.get_agrees (hy.resolve_left hp) hp m.world.store m'.world.store
    rw [fetch_eq_get hp, fetch_eq_get hp]
    cases h₁ : m.memory.get m.world.store y <;> cases h₂ : m'.memory.get m'.world.store y <;>
      rw [h₁, h₂] at hg
    · exact ⟨hg, R, fun _ _ => id, h⟩
    · exact hg
    · exact hg
    · exact ⟨R, fun _ _ => id, h, hg⟩

theorem relates_fetchAll {ys : List Operand} (h : Tied deep D R m m') (hys : Pairs D ys) :
    Relates deep D R (fun R cs cs' => List.Forall₂ R cs cs') (fetchAll ys m) (fetchAll ys m') := by
  induction ys generalizing m m' R with
  | nil => exact .pure h .nil
  | cons y ys ih =>
    refine (relates_fetch h (hys y (by simp))).bind fun R₁ c c' n n' hle₁ h₁ hc => ?_
    refine (ih h₁ fun z hz => hys z (by simp [hz])).bind fun R₂ cs cs' n n' hle₂ h₂ hcs => ?_
    exact .pure h₂ (.cons (hle₂ c c' hc) hcs)

theorem Tied.noteText_eq {x : Instruction} (h : Tied deep D R m m')
    (hx : x.note.part = .absent ∨ D x.note) : noteText x m = noteText x m' := by
  unfold noteText
  by_cases hp : x.note.part = .absent
  · simp [Operand.isAbsent, hp]
  · have hg := h.get_agrees (hx.resolve_left hp) hp m.world.store m'.world.store
    simp only [Operand.isAbsent, beq_iff_eq, hp, if_false]
    cases h₁ : m.memory.get m.world.store x.note with
    | error e =>
      cases h₂ : m'.memory.get m'.world.store x.note with
      | error e' =>
        rw [h₁, h₂] at hg
        cases hg
        rfl
      | ok r =>
        rw [h₁, h₂] at hg
        exact hg.elim
    | ok r =>
      cases h₂ : m'.memory.get m'.world.store x.note with
      | error e' =>
        rw [h₁, h₂] at hg
        exact hg.elim
      | ok r' =>
        rw [h₁, h₂] at hg
        obtain ⟨c, s⟩ := r
        obtain ⟨c', s'⟩ := r'
        obtain ⟨-, rfl⟩ := (Memory.get_eq_ok_iff hp).mp h₁
        obtain ⟨-, rfl⟩ := (Memory.get_eq_ok_iff hp).mp h₂
        have hv := h.store.alike hg
        simp only [Store.ok_bind]
        rw [show m.world.store.type c = m'.world.store.type c' from hv.type_eq,
          show m.world.store.string c = m'.world.store.string c' from hv.string_eq]

/-- The error of an instruction depends on the shapes of its operands alone. -/
theorem Tied.dataStop_eq_of_shapes {pc : Int} {x : Instruction} {ops ops' : List CellId}
    {e : DataCause} (h : Tied deep D R m m') (hx : x.note.part = .absent ∨ D x.note)
    (hshapes : ∀ text, noteText x m' = .ok text →
      ops.map m.store.shape = ops'.map m'.store.shape) :
    dataStop pc x ops e m = dataStop pc x ops' e m' := by
  unfold dataStop
  rw [h.noteText_eq hx]
  cases hn : noteText x m' with
  | ok note =>
    simp only [show ops.map m.world.store.shape = ops'.map m'.world.store.shape from
      hshapes note hn]
  | error a => rfl

theorem map_shape_eq {s s' : Store} {cs cs' : List CellId} (h : Matches deep R s s')
    (hcs : List.Forall₂ R cs cs') : cs.map s.shape = cs'.map s'.shape := by
  induction hcs with
  | nil => rfl
  | cons hc _ ih => rw [List.map_cons, List.map_cons, (h.alike hc).shape_eq, ih]

/-- Tied machines take the same step; host code has to be determined by what it is handed only if
the step calls it. -/
theorem relates_step {env : Environment} {pc : Int} (h : Tied deep D R m m')
    (hlink : ∀ x, instructionAt? env.program pc = some x → x.opcode = .callExternal →
      ∀ link, env.linker = some link → link.Respects deep)
    (hx : ∀ x, instructionAt? env.program pc = some x → Pairs D x.operands ∧
      (x.note.part = .absent ∨ D x.note)) :
    Relates deep D R Same (step env pc m) (step env pc m') := by
  unfold step
  cases hi : instructionAt? env.program pc with
  | none => exact ⟨rfl, R, fun _ _ => id, h⟩
  | some x =>
    obtain ⟨hops, hnote⟩ := hx x hi
    have hf := relates_fetchAll h hops
    simp only
    cases h₁ : fetchAll x.operands m <;> cases h₂ : fetchAll x.operands m' <;> rw [h₁, h₂] at hf
    · rename_i cs n cs' n'
      obtain ⟨R₁, hle₁, ht₁, hcs⟩ := hf
      have he : Relates deep D R₁ Same (execute env pc x cs n) (execute env pc x cs' n') :=
        relates_execute ht₁ (hlink x hi) hcs
      simp only
      cases h₃ : execute env pc x cs n <;> cases h₄ : execute env pc x cs' n' <;> rw [h₃, h₄] at he
      · obtain ⟨R₂, hle₂, ht₂, hv⟩ := he
        exact ⟨R₂, fun c c' hc => hle₂ c c' (hle₁ c c' hc), ht₂, hv⟩
      · exact he.elim
      · exact he.elim
      · obtain ⟨rfl, R₂, hle₂, ht₂⟩ := he
        have hle : R.Below R₂ := fun c c' hc => hle₂ c c' (hle₁ c c' hc)
        rename_i e k k'
        cases e with
        | abort a => exact ⟨rfl, R₂, hle, ht₂⟩
        | data e => exact ⟨ht₂.dataStop_eq_of_shapes hnote fun _ _ => map_shape_eq ht₂.store (hcs.imp hle₂), R₂,
            hle, ht₂⟩
    · exact hf.elim
    · exact hf.elim
    · obtain ⟨rfl, R₁, hle₁, ht₁⟩ := hf
      exact ⟨rfl, R₁, hle₁, ht₁⟩

end Machine

end VectorMachine
