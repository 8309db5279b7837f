import VectorMachine.Accelerator.Run
import VectorMachine.Proofs.Store.Scalars
import VectorMachine.Proofs.Store.Views

/-!
# What units on slots compute

If the cells of an instruction's operands hold the values of its slots, then the value that a unit
computes from the slots is what the machine computes from the cells.
-/

namespace VectorMachine
set_option autoImplicit false

namespace Store

variable {s : Store} {a b : CellId} {oa ob : Option Scalar} {t : DataType} {α β : Type}

theorem combine_one (f : α → α → β) (x y : α) : combine f [] #[x] #[y] = .ok #[f x y] := by
  simp [combine, broadcast, elementCount_nil]

theorem Holds.arithmeticResult_int {op : Arithmetic} {x y : Int64} (ha : s.Holds a oa)
    (hb : s.Holds b ob) (hx : int? oa = some x) (hy : int? ob = some y)
    (hd : op.admitsDivisor y = true) :
    s.arithmeticResult op .int a b = .ok ([], Lanes.ofScalar (.int (op.onInts x y))) := by
  simp [arithmeticResult, ha.broadcastLengths_eq hb, ha.readInts_eq, hb.readInts_eq, hx, hy,
    checkDivisors, hd, combine_one, Lanes.ofScalar]

theorem Holds.arithmeticResult_float {op : Arithmetic} {x y : Float} (ha : s.Holds a oa)
    (hb : s.Holds b ob) (hx : float? oa = some x) (hy : float? ob = some y) :
    s.arithmeticResult op .float a b = .ok ([], Lanes.ofScalar (.float (op.onFloats x y))) := by
  simp [arithmeticResult, ha.broadcastLengths_eq hb, ha.readFloats_eq, hb.readFloats_eq, hx, hy,
    combine_one, Lanes.ofScalar]

theorem Holds.compareResult_int {op : Comparison} {x y : Int64} (ha : s.Holds a oa)
    (hb : s.Holds b ob) (hx : int? oa = some x) (hy : int? ob = some y) :
    s.compareResult op .int a b = .ok ([], Lanes.ofScalar (.bool (op.onInts x y))) := by
  simp [compareResult, ha.broadcastLengths_eq hb, ha.readInts_eq, hb.readInts_eq, hx, hy,
    combine_one, Lanes.ofScalar]

theorem Holds.compareResult_float {op : Comparison} {x y : Float} (ha : s.Holds a oa)
    (hb : s.Holds b ob) (hx : float? oa = some x) (hy : float? ob = some y) :
    s.compareResult op .float a b = .ok ([], Lanes.ofScalar (.bool (op.onFloats x y))) := by
  simp [compareResult, ha.broadcastLengths_eq hb, ha.readFloats_eq, hb.readFloats_eq, hx, hy,
    combine_one, Lanes.ofScalar]

theorem Holds.compareResult_bool {op : Comparison} {f : Bool → Bool → Bool} {x y : Bool}
    (ha : s.Holds a oa) (hb : s.Holds b ob) (hx : bool? oa = some x) (hy : bool? ob = some y)
    (hf : op.onBools? = some f) :
    s.compareResult op .bool a b = .ok ([], Lanes.ofScalar (.bool (f x y))) := by
  simp [compareResult, ha.broadcastLengths_eq hb, ha.readBools_eq, hb.readBools_eq, hx, hy, hf,
    combine_one, Lanes.ofScalar]

theorem Holds.connectResult_decided {op : Connective} {x : Bool} (ha : s.Holds a oa)
    (hx : bool? oa = some x) (hd : x = op.decider) :
    s.connectResult op .bool a b = .ok ([], Lanes.ofScalar (.bool x)) := by
  simp [connectResult, ha.readBools_eq, hx, Connective.isDecidedBy, hd, ha.lengths_eq,
    Lanes.ofScalar]

theorem Holds.connectResult_open {op : Connective} {x y : Bool} (ha : s.Holds a oa)
    (hb : s.Holds b ob) (hx : bool? oa = some x) (hy : bool? ob = some y) (hd : x ≠ op.decider) :
    s.connectResult op .bool a b = .ok ([], Lanes.ofScalar (.bool (op.apply x y))) := by
  simp [connectResult, ha.broadcastLengths_eq hb, ha.readBools_eq, hb.readBools_eq, hx, hy,
    Connective.isDecidedBy, hd, combine_one, Lanes.ofScalar]

theorem Holds.negateResult_int {x : Int64} (ha : s.Holds a oa) (hx : int? oa = some x) :
    s.negateResult .int a = .ok ([], Lanes.ofScalar (.int (-x))) := by
  simp [negateResult, ha.readInts_eq, hx, ha.lengths_eq, Lanes.ofScalar]

theorem Holds.negateResult_float {x : Float} (ha : s.Holds a oa) (hx : float? oa = some x) :
    s.negateResult .float a = .ok ([], Lanes.ofScalar (.float (-x))) := by
  simp [negateResult, ha.readFloats_eq, hx, ha.lengths_eq, Lanes.ofScalar]

theorem Holds.complementResult_bool {x : Bool} (ha : s.Holds a oa) (hx : bool? oa = some x) :
    s.complementResult .bool a = .ok ([], Lanes.ofScalar (.bool (!x))) := by
  simp [complementResult, ha.readBools_eq, hx, ha.lengths_eq, Lanes.ofScalar]

theorem Holds.readAs_eq {v : Scalar} (ha : s.Holds a (some v)) (ht : t.isCacheable = true)
    (hc : v.type.converts t = true) :
    s.readAs t a = .ok (Lanes.ofScalar (Accelerator.coerce t v)) := by
  cases t <;> cases ht <;> cases v <;> cases hc <;>
    simp [readAs, ha.readInts_eq, ha.readFloats_eq, ha.readBools_eq, int?, float?, bool?,
      Accelerator.coerce, Lanes.ofScalar, Except.map]

/-- A move of a scalar converts it to the type of the move, or keeps it as it is. -/
theorem Holds.moveResult_eq {v : Scalar} {u : DataType} {intoScalar : Bool}
    (ha : s.Holds a (some v)) (hu : (if u.isConcrete then u else v.type) = t)
    (ht : t.isCacheable = true) (hc : v.type.converts t = true) :
    s.moveResult u intoScalar a = .ok ([], Lanes.ofScalar (Accelerator.coerce t v)) := by
  have hty : s.type a = v.type := ha.type_eq
  simp only [moveResult, ha.isVoid_eq, hty, hu, ha.readAs_eq ht hc, ha.size_eq, ha.lengths_eq]
  cases intoScalar <;> simp [Except.map]

end Store

namespace Accelerator

variable {x : State} {g : Typing} {z : Instruction} {t : DataType} {s : Store}
  {d a b : SlotId} {v : Scalar} {cd ca cb : CellId}

theorem State.int?_eq : x.int? a = Store.int? (x.value? a) := rfl

theorem State.float?_eq : x.float? a = Store.float? (x.value? a) := rfl

theorem State.bool?_eq : x.bool? a = Store.bool? (x.value? a) := rfl

/-- The slot that an operation writes. -/
def ScalarOp.destination : ScalarOp → SlotId
  | .arithmetic _ _ d _ _ | .compare _ _ d _ _ | .connect _ d _ _ | .negate _ d _ | .not d _
  | .move d _ => d

theorem ScalarOp.destination_eq {op : ScalarOp} (h : op.result? x = some (d, v)) :
    op.destination = d := by
  unfold ScalarOp.result? at h
  split at h <;>
    simp only [Option.bind_eq_bind, Option.bind_eq_some_iff] at h <;>
    grind [ScalarOp.destination, Option.bind_eq_some_iff]

/-- What the machine does with an instruction whose result for slot `d` is `v`: the destination
receives this value in the type of the slot. -/
def Computes (z : Instruction) (cs : List CellId) (s : Store) (t : DataType) (v : Scalar) : Prop :=
  ∃ (c : CellId) (rest : List CellId) (r : Store → Except Failure (List Int × Lanes)),
    cs = c :: rest ∧ Machine.change? z cs = some (fun s => s.receive c (r s)) ∧
      r s = .ok ([], Lanes.ofScalar (coerce t v)) ∧ (coerce t v).type = t

theorem type_coerce (ht : t.isCacheable = true) (hc : v.type.converts t = true) :
    (coerce t v).type = t := by
  cases t <;> cases ht <;> cases v <;> cases hc <;> rfl

section

variable (ha : s.Holds ca (x.value? a)) (hb : s.Holds cb (x.value? b))
include ha hb

theorem computes_arithmetic {op : Arithmetic} (hz : z.opcode = .arithmetic op)
    (hp : g.produces? z = some t)
    (hr : (ScalarOp.arithmetic op z.type d a b).result? x = some (d, v)) :
    Computes z [cd, ca, cb] s t v := by
  refine ⟨cd, _, _, rfl, by simp only [Machine.change?, hz]; rfl, ?_⟩
  simp only [Typing.produces?, hz, Option.ite_none_right_eq_some,
    Option.some.injEq] at hp
  obtain ⟨hc, rfl⟩ := hp
  rcases hc.1 with ht | ht <;> simp only [ht, ScalarOp.result?, State.int?_eq, State.float?_eq,
    Option.bind_eq_bind, Option.bind_eq_some_iff] at hr
  · obtain ⟨u, hu, w, hw, hr⟩ := hr
    split at hr
    · rename_i hd
      cases hr
      rw [ht]
      exact ⟨ha.arithmeticResult_int hb hu hw hd, rfl⟩
    · cases hr
  · obtain ⟨u, hu, w, hw, hr⟩ := hr
    cases hr
    rw [ht]
    exact ⟨ha.arithmeticResult_float hb hu hw, rfl⟩

theorem computes_compare {op : Comparison} (hz : z.opcode = .compare op)
    (hp : g.produces? z = some t)
    (hr : (ScalarOp.compare op z.type d a b).result? x = some (d, v)) :
    Computes z [cd, ca, cb] s t v := by
  refine ⟨cd, _, _, rfl, by simp only [Machine.change?, hz]; rfl, ?_⟩
  simp only [Typing.produces?, hz, Option.ite_none_right_eq_some,
    Option.some.injEq] at hp
  obtain ⟨hc, rfl⟩ := hp
  have hcache := hc.1
  cases ht : z.type <;> rw [ht] at hcache <;> cases hcache <;>
    simp only [ht, ScalarOp.result?, State.int?_eq, State.float?_eq, State.bool?_eq,
      Option.bind_eq_bind, Option.bind_eq_some_iff] at hr
  · obtain ⟨u, hu, w, hw, hr⟩ := hr
    cases hr
    exact ⟨ha.compareResult_int hb hu hw, rfl⟩
  · obtain ⟨u, hu, w, hw, hr⟩ := hr
    cases hr
    exact ⟨ha.compareResult_float hb hu hw, rfl⟩
  · obtain ⟨u, hu, w, hw, f, hf, hr⟩ := hr
    cases hr
    exact ⟨ha.compareResult_bool hb hu hw hf, rfl⟩

theorem computes_connect {op : Connective} (hz : z.opcode = .connect op)
    (hp : g.produces? z = some t)
    (hr : (ScalarOp.connect op d a b).result? x = some (d, v)) :
    Computes z [cd, ca, cb] s t v := by
  refine ⟨cd, _, _, rfl, by simp only [Machine.change?, hz]; rfl, ?_⟩
  simp only [Typing.produces?, hz, Option.ite_none_right_eq_some,
    Option.some.injEq] at hp
  obtain ⟨hc, rfl⟩ := hp
  rw [hc.1]
  simp only [ScalarOp.result?, State.bool?_eq, Option.bind_eq_bind, Option.bind_eq_some_iff] at hr
  obtain ⟨u, hu, hr⟩ := hr
  split at hr
  · rename_i hd
    cases hr
    exact ⟨ha.connectResult_decided hu hd, rfl⟩
  · rename_i hd
    obtain ⟨w, hw, hr⟩ := Option.bind_eq_some_iff.mp hr
    cases hr
    exact ⟨ha.connectResult_open hb hu hw hd, rfl⟩

end

section

variable (ha : s.Holds ca (x.value? a))
include ha

theorem computes_negate (hz : z.opcode = .negate) (hp : g.produces? z = some t)
    (hr : (ScalarOp.negate z.type d a).result? x = some (d, v)) :
    Computes z [cd, ca] s t v := by
  refine ⟨cd, _, _, rfl, by simp only [Machine.change?, hz]; rfl, ?_⟩
  simp only [Typing.produces?, hz, Option.ite_none_right_eq_some,
    Option.some.injEq] at hp
  obtain ⟨hc, rfl⟩ := hp
  rcases hc.1 with ht | ht <;> simp only [ht, ScalarOp.result?, State.int?_eq, State.float?_eq,
    Option.bind_eq_bind, Option.bind_eq_some_iff] at hr
  · obtain ⟨u, hu, hr⟩ := hr
    cases hr
    rw [ht]
    exact ⟨ha.negateResult_int hu, rfl⟩
  · obtain ⟨u, hu, hr⟩ := hr
    cases hr
    rw [ht]
    exact ⟨ha.negateResult_float hu, rfl⟩

theorem computes_not (hz : z.opcode = .not) (hp : g.produces? z = some t)
    (hr : (ScalarOp.not d a).result? x = some (d, v)) : Computes z [cd, ca] s t v := by
  refine ⟨cd, _, _, rfl, by simp only [Machine.change?, hz]; rfl, ?_⟩
  simp only [Typing.produces?, hz, Option.ite_none_right_eq_some,
    Option.some.injEq] at hp
  obtain ⟨hc, rfl⟩ := hp
  rw [hc.1]
  simp only [ScalarOp.result?, State.bool?_eq, Option.bind_eq_bind, Option.bind_eq_some_iff] at hr
  obtain ⟨u, hu, hr⟩ := hr
  cases hr
  exact ⟨ha.complementResult_bool hu, rfl⟩

theorem computes_move {yd ya : Operand} (hz : z.opcode = .move) (hops : z.operands = [yd, ya])
    (hp : g.produces? z = some t) (hty : ∀ w, x.value? a = some w → g.type? ya = some w.type)
    (hr : (ScalarOp.move d a).result? x = some (d, v)) : Computes z [cd, ca] s t v := by
  refine ⟨cd, _, _, rfl, by simp only [Machine.change?, hz]; rfl, ?_⟩
  simp only [Typing.produces?, hz, hops, List.drop_one, List.tail_cons, Option.ite_none_right_eq_some,
    Option.some.injEq] at hp
  obtain ⟨hc, rfl⟩ := hp
  simp only [ScalarOp.result?, Option.bind_eq_bind, Option.bind_eq_some_iff] at hr
  obtain ⟨u, hu, hr⟩ := hr
  cases hr
  have ht := hty v hu
  have hconv : v.type.converts (g.movedType z.type [ya]) = true := by
    simpa [Typing.reads, ht] using hc.2
  rw [hu] at ha
  refine ⟨ha.moveResult_eq ?_ hc.1 hconv, type_coerce hc.1 hconv⟩
  have hcache := hc.1
  cases hzt : z.type <;> rw [hzt] at hcache
  case any => simp [Typing.movedType, ht, DataType.isConcrete]
  all_goals first | rfl | cases hcache

end

/-- The operands of a unit on slots, with the cells that hold their values. -/
abbrev SlotCells (s : Store) (x : State) (g : Typing) (ys : List Operand) (js : List SlotId)
    (cs : List CellId) : Prop :=
  List.Forall₂ (fun j c => s.Holds c (x.value? j)) js cs ∧
    List.Forall₂ (fun y j => ∀ w, x.value? j = some w → g.type? y = some w.type) ys js

theorem computes_result {op : ScalarOp} {js : List SlotId} {cs : List CellId}
    (hop : scalarOp? z js = some op) (hp : g.produces? z = some t)
    (hcells : SlotCells s x g z.operands js cs) (hr : op.result? x = some (d, v)) :
    js.head? = some d ∧ Computes z cs s t v := by
  obtain ⟨hcs, hty⟩ := hcells
  obtain rfl := op.destination_eq hr
  unfold scalarOp? at hop
  split at hop <;> cases hop
  case h_1 hz =>
    rcases hcs with _ | ⟨_, _ | ⟨ha, _ | ⟨hb, _ | _⟩⟩⟩
    exact ⟨rfl, computes_arithmetic ha hb hz hp hr⟩
  case h_2 hz =>
    rcases hcs with _ | ⟨_, _ | ⟨ha, _ | ⟨hb, _ | _⟩⟩⟩
    exact ⟨rfl, computes_compare ha hb hz hp hr⟩
  case h_3 hz =>
    rcases hcs with _ | ⟨_, _ | ⟨ha, _ | ⟨hb, _ | _⟩⟩⟩
    exact ⟨rfl, computes_connect ha hb hz hp hr⟩
  case h_4 hz =>
    rcases hcs with _ | ⟨_, _ | ⟨ha, _ | _⟩⟩
    exact ⟨rfl, computes_negate ha hz hp hr⟩
  case h_5 hz =>
    rcases hcs with _ | ⟨_, _ | ⟨ha, _ | _⟩⟩
    exact ⟨rfl, computes_not ha hz hp hr⟩
  case h_6 hz =>
    rcases hcs with _ | ⟨_, _ | ⟨ha, _ | _⟩⟩
    generalize hys : z.operands = ys at hty
    rcases hty with _ | ⟨_, _ | ⟨hya, _ | _⟩⟩
    exact ⟨rfl, computes_move ha hz hys hp hya hr⟩

/-! ### Units on arrays -/

theorem combine_of_size {α β : Type} (f : α → α → β) {lengths : List Int} {xs ys : Array α}
    (hx : xs.size = (elementCount lengths).toNat) (hy : ys.size = (elementCount lengths).toNat) :
    Store.combine f lengths xs ys = .ok (Array.zipWith f xs ys) := by
  simp [Store.combine, Store.broadcast, hx, hy]

theorem admitsDivisor_of_isVectorOp {op : Arithmetic} (h : isVectorOp op .int = true) (w : Int64) :
    op.admitsDivisor w = true := by
  cases op <;> first | rfl | cases h

/-- What a unit on arrays writes into its destination is what the machine stores there. -/
theorem arithmetic_of_vectorLanes {op : Arithmetic} {c₀ c₁ c₂ : CellId} {data : Lanes}
    (hs : s.Sound) (hop : isVectorOp op t = true)
    (h : vectorLanes? s op t c₀ c₁ c₂ = some data) :
    s.arithmetic op t c₀ c₁ c₂ = .ok (s.write c₀ data) := by
  unfold vectorLanes? at h
  split at h
  · rename_i hc
    obtain ⟨ht₁, ht₂, ht₀, hrank, hl₂, hl₀⟩ := hc
    have hb : s.broadcastLengths c₁ c₂ = .ok (s.lengths c₁) := by
      simp [Store.broadcastLengths, Nat.ne_of_gt hrank, hl₂]
    -- the destination has the type and the lengths of the result, and keeps its buffer
    have hdeliver : ∀ xs : Lanes, xs.type = t →
        s.arithmeticResult op t c₁ c₂ = .ok (s.lengths c₁, xs) →
        s.arithmetic op t c₀ c₁ c₂ = .ok (s.write c₀ xs) := by
      intro xs hxs hr
      simp [Store.arithmetic, Store.receive, hr, Store.deliver, Store.prepare, hxs, ht₀, hl₀]
    split at h
    · rename_i xs ys hx hy
      cases h
      obtain ⟨hxt, hxs⟩ := Store.window_ok hs hx
      obtain ⟨-, hys⟩ := Store.window_ok hs hy
      obtain rfl : t = .int := ht₁.symm.trans hxt
      refine hdeliver _ rfl ?_
      have hdiv : Store.checkDivisors op ys = .ok () := by
        simp [Store.checkDivisors, admitsDivisor_of_isVectorOp hop]
      simp [Store.arithmeticResult, hb, Store.readInts, ht₁, ht₂, Store.lanes, hx, hy, hdiv,
        Except.mapError, combine_of_size op.onInts hxs (hys.trans (by rw [hl₂]))]
    · rename_i xs ys hx hy
      cases h
      obtain ⟨hxt, hxs⟩ := Store.window_ok hs hx
      obtain ⟨-, hys⟩ := Store.window_ok hs hy
      obtain rfl : t = .float := ht₁.symm.trans hxt
      refine hdeliver _ rfl ?_
      simp [Store.arithmeticResult, hb, Store.readFloats, ht₁, ht₂, Store.lanes, hx, hy,
        Except.mapError, combine_of_size op.onFloats hxs (hys.trans (by rw [hl₂]))]
    · cases h
  · cases h

/-- Units on arrays see what cells show, not which cells they are. -/
theorem vectorLanes?_eq {s' : Store} {op : Arithmetic} {c₀ c₁ c₂ c₀' c₁' c₂' : CellId}
    (h₀ : s.Alike c₀ s' c₀') (h₁ : s.Alike c₁ s' c₁') (h₂ : s.Alike c₂ s' c₂') :
    vectorLanes? s op t c₀ c₁ c₂ = vectorLanes? s' op t c₀' c₁' c₂' := by
  simp only [vectorLanes?, h₀.type_eq, h₁.type_eq, h₂.type_eq, h₀.lengths_eq, h₁.lengths_eq,
    h₂.lengths_eq, h₁.rank_eq, h₁.window_eq, h₂.window_eq]

end Accelerator

end VectorMachine
