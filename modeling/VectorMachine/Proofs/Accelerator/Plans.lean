import VectorMachine.Accelerator.Plan
import VectorMachine.Proofs.Accelerator.Typing

/-!
# What a plan is made of

Slots belong to typed addresses, each to one, and a unit is of the kind that its instruction
allows.  Units are built one after another while slots are added, so what is said of a unit must
hold of all the slots that come after it.
-/

namespace VectorMachine.Accelerator
set_option autoImplicit false

variable {src : Source} {E : Prop} {α β : Type} {slots slots' : Array Slot}

/-- Slots are for typed addresses, with their cells and types, and no address has two. -/
structure SlotsOf (src : Source) (slots : Array Slot) : Prop where
  typed : ∀ {i : Nat} {slot : Slot}, slots[i]? = some slot →
    src.typing.type? slot.operand = some slot.type ∧
      src.memory.cell? slot.operand = some slot.cell
  inj : ∀ {i j : Nat} {slot slot' : Slot}, slots[i]? = some slot → slots[j]? = some slot' →
    slot.operand = slot'.operand → i = j

def Extends (slots slots' : Array Slot) : Prop :=
  ∀ (i : Nat) (slot : Slot), slots[i]? = some slot → slots'[i]? = some slot

theorem Extends.refl : Extends slots slots := fun _ _ h => h

theorem Extends.trans {slots'' : Array Slot} (h : Extends slots slots')
    (h' : Extends slots' slots'') : Extends slots slots'' :=
  fun i slot hi => h' i slot (h i slot hi)

/-- The slot of an operand. -/
def At (slots : Array Slot) (i : SlotId) (y : Operand) : Prop :=
  ∃ slot, slots[i]? = some slot ∧ slot.operand = y

theorem At.mono {i : SlotId} {y : Operand} (h : Extends slots slots') (ha : At slots i y) :
    At slots' i y := by
  obtain ⟨slot, hi, hy⟩ := ha
  exact ⟨slot, h i slot hi, hy⟩

/-- A building step from `slots` on either fails, which then is `E`, or adds slots and gives a
result with the property `V`. -/
def Builds (src : Source) (E : Prop) (slots : Array Slot) (V : Array Slot → α → Prop) :
    Except Abort (α × Array Slot) → Prop
  | .ok (a, slots') => SlotsOf src slots' ∧ Extends slots slots' ∧ V slots' a
  | .error _ => E

theorem Builds.bind {V : Array Slot → α → Prop} {W : Array Slot → β → Prop} {x : Build α}
    {f : α → Build β} (hx : Builds src E slots V (x slots))
    (hf : ∀ a slots', SlotsOf src slots' → Extends slots slots' → V slots' a →
      Builds src E slots' W (f a slots')) : Builds src E slots W ((x >>= f) slots) := by
  change Builds src E slots W (x slots >>= fun r => f r.1 r.2)
  cases hr : x slots with
  | error e =>
    rw [hr] at hx
    exact hx
  | ok r =>
    rw [hr] at hx
    obtain ⟨hs, he, hv⟩ := hx
    have h := hf r.1 r.2 hs he hv
    change Builds src E slots W (f r.1 r.2)
    cases hr' : f r.1 r.2 with
    | error e =>
      rw [hr'] at h
      exact h
    | ok r' =>
      rw [hr'] at h
      exact ⟨h.1, he.trans h.2.1, h.2.2⟩

theorem Builds.pure {V : Array Slot → α → Prop} {a : α} (hs : SlotsOf src slots)
    (ha : V slots a) : Builds src E slots V ((Pure.pure a : Build α) slots) :=
  ⟨hs, .refl, ha⟩

/-- What a search for the slot of an operand gives. -/
def SlotFor (src : Source) (y : Operand) (slots : Array Slot) : Option SlotId → Prop
  | some i => At slots i y
  | none => src.typing.type? y = none

theorem SlotFor.mono {y : Operand} {r : Option SlotId} (h : Extends slots slots')
    (hr : SlotFor src y slots r) : SlotFor src y slots' r := by
  cases r with
  | none => exact hr
  | some i => exact At.mono h hr

theorem At.typed {i : SlotId} {y : Operand} (hs : SlotsOf src slots) (h : At slots i y) :
    ∃ slot, slots[i]? = some slot ∧ src.typing.type? y = some slot.type ∧
      src.memory.cell? y = some slot.cell := by
  obtain ⟨slot, hi, rfl⟩ := h
  obtain ⟨h₁, h₂⟩ := hs.typed hi
  exact ⟨slot, hi, h₁, h₂⟩

/-- Slots are missing only for addresses without a cell. -/
def Failing (src : Source) (E : Prop) : Prop :=
  ∀ y t, src.typing.type? y = some t → src.memory.cell? y = none → E

theorem extends_push (slot : Slot) : Extends slots (slots.push slot) := by
  intro i old hi
  obtain ⟨hlt, rfl⟩ := Array.getElem?_eq_some_iff.mp hi
  exact Array.getElem?_push_lt hlt

/-- A slot for an operand that has none yet. -/
theorem SlotsOf.push {y : Operand} {c : CellId} {t : DataType} (hs : SlotsOf src slots)
    (hnew : ∀ slot ∈ slots, slot.operand ≠ y) (ht : src.typing.type? y = some t)
    (hc : src.memory.cell? y = some c) : SlotsOf src (slots.push ⟨y, c, t⟩) := by
  have hcases : ∀ {i : Nat} {slot : Slot}, (slots.push ⟨y, c, t⟩)[i]? = some slot →
      slots[i]? = some slot ∧ slot.operand ≠ y ∨ i = slots.size ∧ slot = ⟨y, c, t⟩ := by
    intro i slot hi
    rw [Array.getElem?_push] at hi
    split at hi
    · cases hi
      exact .inr ⟨‹_›, rfl⟩
    · exact .inl ⟨hi, hnew slot (Array.mem_of_getElem? hi)⟩
  refine ⟨fun {i slot} hi => ?_, fun {i j slot slot'} hi hj he => ?_⟩
  · rcases hcases hi with ⟨hi, -⟩ | ⟨-, rfl⟩
    · exact hs.typed hi
    · exact ⟨ht, hc⟩
  · rcases hcases hi with ⟨hi, hne⟩ | ⟨rfl, rfl⟩ <;>
      rcases hcases hj with ⟨hj, hne'⟩ | ⟨rfl, rfl⟩
    · exact hs.inj hi hj he
    · exact absurd he hne
    · exact absurd he.symm hne'
    · rfl

theorem builds_slotOf {y : Operand} (hown : ∀ z t, src.typing.type? z = some t → z.IsOwn)
    (hE : Failing src E) (hs : SlotsOf src slots) :
    Builds src E slots (SlotFor src y) (slotOf src y slots) := by
  unfold slotOf
  cases hf : slots.findIdx? (·.operand == y) with
  | some i =>
    obtain ⟨hi, hp, -⟩ := Array.findIdx?_eq_some_iff_getElem.mp hf
    exact ⟨hs, .refl, slots[i], Array.getElem?_eq_getElem hi, by simpa using hp⟩
  | none =>
    cases ht : src.typing.type? y with
    | none => exact ⟨hs, .refl, ht⟩
    | some t =>
      have hpart : y.part ≠ .absent := by
        rcases hown y t ht with h | h | h <;> simp [h]
      simp only
      cases hg : src.memory.get src.store y with
      | error a =>
        refine hE y t ht ?_
        cases hc : src.memory.cell? y with
        | none => rfl
        | some c =>
          have := (Memory.get_eq_ok_iff (s := src.store) hpart).mpr ⟨hc, rfl⟩
          rw [hg] at this
          cases this
      | ok r =>
        obtain ⟨c, s⟩ := r
        have hc := ((Memory.get_eq_ok_iff hpart).mp hg).1
        have hnew : ∀ slot ∈ slots, slot.operand ≠ y := fun slot hslot =>
          by simpa using Array.findIdx?_eq_none_iff.mp hf slot hslot
        exact ⟨hs.push hnew ht hc, extends_push _, ⟨y, c, t⟩, by simp, rfl⟩

/-- The slots that were found for operands, position by position. -/
abbrev SlotsFor (src : Source) (slots : Array Slot) (ys : List Operand)
    (rs : List (Option SlotId)) : Prop :=
  List.Forall₂ (fun y r => SlotFor src y slots r) ys rs

theorem SlotsFor.mono {ys : List Operand} {rs : List (Option SlotId)} (h : Extends slots slots')
    (hr : SlotsFor src slots ys rs) : SlotsFor src slots' ys rs :=
  hr.imp fun _ _ => SlotFor.mono h

section

variable (hown : ∀ z t, src.typing.type? z = some t → z.IsOwn) (hE : Failing src E)
include hown hE

theorem builds_slotsOf (ys : List Operand) (hs : SlotsOf src slots) :
    Builds src E slots (fun slots => SlotsFor src slots ys) (slotsOf src ys slots) := by
  unfold slotsOf
  induction ys generalizing slots with
  | nil => exact .pure hs .nil
  | cons y ys ih =>
    rw [List.mapM_cons]
    refine (builds_slotOf hown hE hs).bind fun r slots₁ hs₁ he₁ hr => ?_
    refine (ih hs₁).bind fun rs slots₂ hs₂ he₂ hrs => ?_
    exact .pure hs₂ (.cons (hr.mono he₂) hrs)

end

/-- The slots of the typed operands of an instruction. -/
structure Caches (src : Source) (slots : Array Slot) (x : Instruction) (ids : List SlotId) :
    Prop where
  at_operand : ∀ i ∈ ids, ∃ y ∈ x.operands, At slots i y
  covers : ∀ y ∈ x.operands, ∀ t, src.typing.type? y = some t → ∃ i ∈ ids, At slots i y

theorem Caches.mono {x : Instruction} {ids : List SlotId} (h : Extends slots slots')
    (hc : Caches src slots x ids) : Caches src slots' x ids := by
  refine ⟨fun i hi => ?_, fun y hy t ht => ?_⟩
  · obtain ⟨y, hy, ha⟩ := hc.at_operand i hi
    exact ⟨y, hy, ha.mono h⟩
  · obtain ⟨i, hi, ha⟩ := hc.covers y hy t ht
    exact ⟨i, hi, ha.mono h⟩

theorem SlotsFor.caches {x : Instruction} {rs : List (Option SlotId)}
    (h : SlotsFor src slots x.operands rs) :
    Caches src slots x ((rs.filterMap id).eraseDups) := by
  refine ⟨fun i hi => ?_, fun y hy t ht => ?_⟩
  · have hmem : some i ∈ rs := by simpa using List.mem_eraseDups.mp hi
    obtain ⟨k, hk⟩ := List.getElem?_of_mem hmem
    obtain ⟨y, hy, ha⟩ := Machine.exists_of_forall₂ h hk
    exact ⟨y, List.mem_of_getElem? hy, ha⟩
  · obtain ⟨k, hk⟩ := List.getElem?_of_mem hy
    obtain ⟨r, hr, ha⟩ := Machine.exists_of_forall₂ h.flip hk
    cases r with
    | none =>
      rw [show src.typing.type? y = none from ha] at ht
      cases ht
    | some i =>
      refine ⟨i, List.mem_eraseDups.mpr ?_, ha⟩
      simpa using List.mem_of_getElem? hr

/-- A unit for an instruction. -/
inductive UnitOf (src : Source) (slots : Array Slot) (x : Instruction) : ExecutionUnit → Prop
  | skip : isNoOperation x.opcode = true → UnitOf src slots x ⟨.skip, []⟩
  | fallback {ids : List SlotId} : Caches src slots x ids → UnitOf src slots x ⟨.fallback, ids⟩
  | alloc {i : SlotId} {d : Operand} : x.opcode = .alloc → x.operands = [d] → At slots i d →
      src.typing.type? d = some x.type → UnitOf src slots x ⟨.alloc i, []⟩
  | jump {ids : List SlotId} {i : SlotId} {on : Bool} {target : Int} {d a b : Operand}
      {rest : List Operand} {c : CellId} {s : Store} {v : Int64} :
      x.opcode = .jump on → x.operands = d :: a :: b :: rest →
      src.memory.get src.store a = .ok (c, s) → s.int c = .ok v → target = v.toInt →
      At slots i b → src.typing.type? b = some .bool → Caches src slots x ids →
      UnitOf src slots x ⟨.jump i on target, ids⟩
  | scalar {ids js : List SlotId} {op : ScalarOp} : scalarOp? x js = some op →
      List.Forall₂ (fun y j => At slots j y) x.operands js →
      (x.opcode.writes = true → ∃ d rest t, x.operands = d :: rest ∧
        src.typing.type? d = some t ∧ src.typing.produces? x = some t) →
      Caches src slots x ids → UnitOf src slots x ⟨.scalar op, ids⟩
  | vector {ids : List SlotId} {op : Arithmetic} {d a b : Operand} :
      x.opcode = .arithmetic op → x.operands = [d, a, b] → isVectorOp op x.type = true →
      (∀ y ∈ x.operands, y.isAbsent = false ∧ src.typing.has y = false) →
      Caches src slots x ids → UnitOf src slots x ⟨.vector op x.type d a b, ids⟩

theorem UnitOf.mono {x : Instruction} {u : ExecutionUnit} (h : Extends slots slots')
    (hu : UnitOf src slots x u) : UnitOf src slots' x u := by
  cases hu with
  | skip h₁ => exact .skip h₁
  | fallback hc => exact .fallback (hc.mono h)
  | alloc h₁ h₂ ha ht => exact .alloc h₁ h₂ (ha.mono h) ht
  | jump h₁ h₂ h₃ h₄ h₅ ha ht hc => exact .jump h₁ h₂ h₃ h₄ h₅ (ha.mono h) ht (hc.mono h)
  | scalar h₁ hj hw hc => exact .scalar h₁ (hj.imp fun _ _ => At.mono h) hw (hc.mono h)
  | vector h₁ h₂ h₃ h₄ hc => exact .vector h₁ h₂ h₃ h₄ (hc.mono h)

/-- What a search for a special unit gives. -/
def MaybeUnitOf (src : Source) (x : Instruction) (slots : Array Slot) :
    Option ExecutionUnit → Prop
  | some u => UnitOf src slots x u
  | none => True

section

variable {x : Instruction} (hown : ∀ z t, src.typing.type? z = some t → z.IsOwn)
  (hE : Failing src E)
include hown hE

theorem builds_cachedSlots (hs : SlotsOf src slots) :
    Builds src E slots (fun slots => Caches src slots x) (cachedSlots src x slots) :=
  (builds_slotsOf hown hE x.operands hs).bind fun _ _ hs₁ _ hrs => .pure hs₁ hrs.caches

theorem builds_withCached {kind : UnitKind} {V : Array Slot → ExecutionUnit → Prop}
    (hs : SlotsOf src slots)
    (hv : ∀ slots' ids, Extends slots slots' → Caches src slots' x ids → V slots' ⟨kind, ids⟩) :
    Builds src E slots V (withCached src x kind slots) :=
  (builds_cachedSlots hown hE hs).bind fun ids slots₁ hs₁ he₁ hc =>
    .pure hs₁ (hv slots₁ ids he₁ hc)

omit hown hE in
theorem builds_slotType? {r : Option SlotId} {y : Operand} (hs : SlotsOf src slots)
    (hr : SlotFor src y slots r) :
    Builds src E slots (fun slots t => SlotFor src y slots r ∧ t = src.typing.type? y)
      (slotType? r slots) := by
  refine ⟨hs, .refl, hr, ?_⟩
  cases r with
  | none =>
    simp only [SlotFor] at hr
    simp [hr]
  | some i =>
    obtain ⟨slot, hi, ht, -⟩ := At.typed hs hr
    simp [hi, ht]

theorem builds_allocUnit (hs : SlotsOf src slots) (hop : x.opcode = .alloc) :
    Builds src E slots (MaybeUnitOf src x) (allocUnit? src x slots) := by
  unfold allocUnit?
  rcases hx : x.operands with _ | ⟨d, _ | ⟨e, rest⟩⟩
  · exact .pure hs trivial
  · refine (builds_slotOf hown hE hs).bind fun r slots₁ hs₁ _ hr => ?_
    refine (builds_slotType? hs₁ hr).bind fun t slots₂ hs₂ _ ht => ?_
    obtain ⟨hr, rfl⟩ := ht
    rcases r with _ | i
    · exact .pure hs₂ trivial
    · cases ht : src.typing.type? d with
      | none => exact .pure hs₂ trivial
      | some t =>
        refine .pure hs₂ ?_
        split
        · rename_i htx
          exact .alloc hop hx hr (htx ▸ ht)
        · trivial
  · exact .pure hs trivial

omit hown hE in
theorem builds_lift {r : Except Abort α} {V : Array Slot → α → Prop} (hs : SlotsOf src slots)
    (hok : ∀ a, r = .ok a → V slots a) (herr : ∀ e, r = .error e → E) :
    Builds src E slots V ((liftM r : Build α) slots) := by
  cases r with
  | ok a => exact ⟨hs, .refl, hok a rfl⟩
  | error e => exact herr e rfl

/-- The target of a jump fails to be read only if that is `E`. -/
def FailingTargets (src : Source) (E : Prop) (x : Instruction) : Prop :=
  ∀ a, x.operands[1]? = some a → (∀ e, src.memory.get src.store a = .error e → E) ∧
    ∀ c s e, src.memory.get src.store a = .ok (c, s) → s.type c = .int → s.rank c = 0 →
      s.int c = .error e → E

theorem builds_jumpUnit {on : Bool} (hs : SlotsOf src slots) (hop : x.opcode = .jump on)
    (hj : FailingTargets src E x) :
    Builds src E slots (MaybeUnitOf src x) (jumpUnit? src x on slots) := by
  unfold jumpUnit?
  rcases hx : x.operands with _ | ⟨d, _ | ⟨a, _ | ⟨b, rest⟩⟩⟩
  case cons.cons.cons =>
    obtain ⟨hj₁, hj₂⟩ := hj a (by simp [hx])
    refine (builds_lift (V := fun _ r => src.memory.get src.store a = .ok r) hs
      (fun _ h => h) hj₁).bind fun r slots₁ hs₁ _ hg => ?_
    obtain ⟨c, s⟩ := r
    dsimp only
    split
    · exact .pure hs₁ trivial
    · rename_i hint
      refine (builds_slotOf hown hE hs₁).bind fun r slots₂ hs₂ _ hr => ?_
      refine (builds_slotType? hs₂ hr).bind fun t slots₃ hs₃ _ ht => ?_
      obtain ⟨hr, rfl⟩ := ht
      rcases r with _ | i
      · exact .pure hs₃ trivial
      · cases ht : src.typing.type? b with
        | none => exact .pure hs₃ trivial
        | some t =>
          cases t
          case bool =>
            refine (builds_lift (V := fun _ v => s.int c = .ok v) hs₃ (fun _ h => h) fun e he => ?_).bind
              fun v slots₄ hs₄ he₄ hv => ?_
            · refine hj₂ c s e hg ?_ ?_ he <;> simp_all
            · refine (builds_withCached (V := fun slots' u => UnitOf src slots' x u) hown hE hs₄
                fun slots' ids he hc => ?_).bind fun u slots₅ hs₅ _ hu => .pure hs₅ hu
              exact .jump hop hx hg hv rfl ((At.mono he₄ hr).mono he) ht hc
          all_goals exact .pure hs₃ trivial
  all_goals exact .pure hs trivial

/-- What a fitting destination is. -/
def Fits (src : Source) (x : Instruction) : Prop :=
  x.opcode.writes = true → ∃ d rest t, x.operands = d :: rest ∧ src.typing.type? d = some t ∧
    src.typing.produces? x = some t

theorem builds_fitsDestination (hs : SlotsOf src slots) :
    Builds src E slots (fun _ b => b = true → Fits src x) (fitsDestination src x slots) := by
  unfold fitsDestination
  cases hw : x.opcode.writes with
  | false => exact .pure hs fun _ h => by simp [hw] at h
  | true =>
    rcases hx : x.operands with _ | ⟨d, rest⟩
    · exact .pure hs fun h => by cases h
    · refine (builds_slotOf hown hE hs).bind fun r slots₁ hs₁ _ hr => ?_
      refine (builds_slotType? hs₁ hr).bind fun t slots₂ hs₂ _ ht => ?_
      obtain ⟨-, rfl⟩ := ht
      cases ht : src.typing.type? d with
      | none => exact .pure hs₂ fun h => by cases h
      | some t => exact .pure hs₂ fun h _ => ⟨d, rest, t, hx, ht, by simpa using h⟩

omit hown hE in
theorem SlotsFor.all {ys : List Operand} {rs : List (Option SlotId)} {js : List SlotId}
    (h : SlotsFor src slots ys rs) (hj : rs.mapM id = some js) :
    List.Forall₂ (fun y j => At slots j y) ys js := by
  induction h generalizing js with
  | nil =>
    cases hj
    exact .nil
  | @cons y r ys rs hr _ ih =>
    simp only [List.mapM_cons, id, Option.bind_eq_bind, Option.bind_eq_some_iff,
      Option.pure_def, Option.some.injEq] at hj
    obtain ⟨j, rfl, js', hjs, rfl⟩ := hj
    exact .cons hr (ih hjs)

theorem builds_operationUnit (hs : SlotsOf src slots) :
    Builds src E slots (MaybeUnitOf src x) (operationUnit? src x slots) := by
  unfold operationUnit?
  refine (builds_fitsDestination hown hE hs).bind fun b slots₁ hs₁ _ hfit => ?_
  cases b with
  | false => exact .pure hs₁ trivial
  | true =>
    refine (builds_slotsOf hown hE x.operands hs₁).bind fun rs slots₂ hs₂ _ hrs => ?_
    cases hj : rs.mapM id with
    | none => exact .pure hs₂ trivial
    | some js =>
      dsimp only
      cases hop : scalarOp? x js with
      | none => exact .pure hs₂ trivial
      | some op =>
        refine (builds_withCached (V := fun slots' u => UnitOf src slots' x u) hown hE hs₂
          fun slots' ids he hc => ?_).bind fun u slots₃ hs₃ _ hu => .pure hs₃ hu
        exact .scalar hop ((hrs.mono he).all hj) (hfit rfl) hc

theorem builds_scalarUnit (hs : SlotsOf src slots)
    (hj : ∀ on, x.opcode = .jump on → FailingTargets src E x) :
    Builds src E slots (MaybeUnitOf src x) (scalarUnit? src x slots) := by
  unfold scalarUnit?
  cases hop : x.opcode
  case alloc => exact builds_allocUnit hown hE hs hop
  case jump on => exact builds_jumpUnit hown hE hs hop (hj on hop)
  all_goals exact builds_operationUnit hown hE hs

theorem builds_vectorUnit (hs : SlotsOf src slots) :
    Builds src E slots (MaybeUnitOf src x) (vectorUnit? src x slots) := by
  unfold vectorUnit?
  cases hop : x.opcode
  case arithmetic op =>
    rcases hx : x.operands with _ | ⟨d, _ | ⟨a, _ | ⟨b, _ | ⟨e, rest⟩⟩⟩⟩
    case cons.cons.cons.nil =>
      dsimp only
      cases hv : isVectorOp op x.type with
      | false => exact .pure hs trivial
      | true =>
        simp only [Bool.not_true, Bool.false_eq_true, if_false]
        split
        · exact .pure hs trivial
        · rename_i hany
          refine (builds_withCached (V := fun slots' u => UnitOf src slots' x u) hown hE hs
            fun slots' ids he hc => ?_).bind fun u slots₃ hs₃ _ hu => .pure hs₃ hu
          refine .vector hop hx hv ?_ hc
          simpa [hx] using hany
    all_goals exact .pure hs trivial
  all_goals exact .pure hs trivial

theorem builds_containerUnit (hs : SlotsOf src slots) :
    Builds src E slots (fun slots => UnitOf src slots x) (containerUnit src x slots) := by
  refine (builds_vectorUnit hown hE hs).bind fun r slots₁ hs₁ _ hr => ?_
  cases r with
  | some u => exact .pure hs₁ hr
  | none => exact builds_withCached hown hE hs₁ fun _ _ _ hc => .fallback hc

theorem builds_buildUnit (hs : SlotsOf src slots)
    (hj : src.scalarCache = true → ∀ on, x.opcode = .jump on → FailingTargets src E x) :
    Builds src E slots (fun slots => UnitOf src slots x) (buildUnit src x slots) := by
  unfold buildUnit
  cases hno : isNoOperation x.opcode with
  | true => exact .pure hs (.skip hno)
  | false =>
    cases hcache : src.scalarCache with
    | false => exact builds_containerUnit hown hE hs
    | true =>
      refine (builds_scalarUnit hown hE hs (hj hcache)).bind fun r slots₁ hs₁ _ hr => ?_
      cases r with
      | some u => exact .pure hs₁ hr
      | none => exact builds_containerUnit hown hE hs₁

theorem builds_units (code : List Instruction) (hs : SlotsOf src slots)
    (hj : src.scalarCache = true → ∀ x ∈ code, ∀ on, x.opcode = .jump on →
      FailingTargets src E x) :
    Builds src E slots (fun slots units => List.Forall₂ (UnitOf src slots) code units)
      (code.mapM (buildUnit src) slots) := by
  induction code generalizing slots with
  | nil => exact .pure hs .nil
  | cons x code ih =>
    rw [List.mapM_cons]
    refine (builds_buildUnit hown hE hs fun hc => hj hc x (by simp)).bind
      fun u slots₁ hs₁ _ hu => ?_
    refine (ih hs₁ fun hc y hy => hj hc y (by simp [hy])).bind fun us slots₂ hs₂ he₂ hus => ?_
    exact .pure hs₂ (.cons (hu.mono he₂) hus)

end

/-- A plan has one unit for each instruction. -/
structure PlanOf (src : Source) (p : Program) (plan : Plan) : Prop where
  slots : SlotsOf src plan.slots
  units : List.Forall₂ (UnitOf src plan.slots) p.code.toList plan.units.toList

theorem isOwn_of_type? {p : Program} {s : Store} {m : Memory} {scalarCache : Bool} {z : Operand}
    {t : DataType} (h : (sourceOf p s m scalarCache).typing.type? z = some t) :
    z.IsOwn := by
  unfold sourceOf at h
  cases scalarCache with
  | true => exact (typed_typing h).isOwn
  | false => simp [Typing.type?] at h

/-- Compiling fails only for addresses without a cell and for targets that cannot be read. -/
theorem builds_compile (p : Program) (s : Store) (m : Memory) (scalarCache : Bool)
    (hE : Failing (sourceOf p s m scalarCache) E)
    (hj : scalarCache = true → ∀ x ∈ p.code, ∀ on, x.opcode = .jump on →
      FailingTargets (sourceOf p s m scalarCache) E x) :
    match compile p s m scalarCache with
    | .ok plan => PlanOf (sourceOf p s m scalarCache) p plan
    | .error _ => E := by
  have hnone : SlotsOf (sourceOf p s m scalarCache) #[] := ⟨by simp, by simp⟩
  have hb := builds_units (fun _ _ => isOwn_of_type?) hE p.code.toList hnone
    fun hcache x hx => hj hcache x (by simpa using hx)
  have hc : compile p s m scalarCache =
      (p.code.toList.mapM (buildUnit (sourceOf p s m scalarCache)) #[]).map
        fun r => { units := r.1.toArray, slots := r.2 } := by
    unfold compile
    rw [Array.mapM_eq_mapM_toList, StateT.run_map]
    change ((List.mapM (buildUnit (sourceOf p s m scalarCache)) p.code.toList #[]).map _ >>= _) = _
    cases List.mapM (buildUnit (sourceOf p s m scalarCache)) p.code.toList #[] <;> rfl
  rw [hc]
  cases hr : p.code.toList.mapM (buildUnit (sourceOf p s m scalarCache)) #[] with
  | error e =>
    rw [hr] at hb
    exact hb
  | ok r =>
    rw [hr] at hb
    exact ⟨hb.1, by simpa using hb.2.2⟩

theorem planOf_of_compile {p : Program} {s : Store} {m : Memory} {scalarCache : Bool} {plan : Plan}
    (h : compile p s m scalarCache = .ok plan) : PlanOf (sourceOf p s m scalarCache) p plan := by
  have hb := builds_compile (E := True) p s m scalarCache (fun _ _ _ _ => trivial)
    fun _ _ _ _ _ _ _ => ⟨fun _ _ => trivial, fun _ _ _ _ _ _ _ => trivial⟩
  rw [h] at hb
  exact hb

end VectorMachine.Accelerator
