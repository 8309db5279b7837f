import VectorMachine.Interpreter.Transfer
import VectorMachine.Proofs.Store.InPlace
import VectorMachine.Proofs.Store.Representation

/-!
# Connectives

The left operand of a connective decides if all its elements are false for a conjunction, or true for
a disjunction; it may have none.  Then the result is a copy of the left operand, and the right one does
not matter.  Otherwise both operands have to be bool, with the same lengths if both are arrays, and the
result has at each position the connective of what they contribute to it.  Jumps branch on the same
condition.
-/

namespace VectorMachine
set_option autoImplicit false

/-- What a connective makes of two elements. -/
def Connective.on? (op : Connective) : List Scalar → Option Scalar
  | [.bool x, .bool y] => some (.bool (op.apply x y))
  | _ => none

namespace Store

variable {s t u : Store} {a b c d : CellId} {op : Connective} {data : Lanes} {lengths : List Int}
  {r : List Int × Lanes}

/-- A bool container that shows nothing but the value which decides a connective. -/
structure Decided (s : Store) (op : Connective) (c : CellId) : Prop where
  type_eq : s.type c = .bool
  lane : ∀ i v, s.shown? c i = some v → v = .bool op.decider

/-- Two bool containers that have the same lengths if both are arrays. -/
structure Connectable (s : Store) (a b : CellId) : Prop where
  left_eq : s.type a = .bool
  right_eq : s.type b = .bool
  lengths_eq : s.rank a ≠ 0 → s.rank b ≠ 0 → s.lengths a = s.lengths b

/-- A container shows in `t` what another one shows in `s`. -/
structure Mirrors (s : Store) (a : CellId) (t : Store) (d : CellId) : Prop where
  type_eq : t.type d = s.type a
  lengths_eq : t.lengths d = s.lengths a
  lane : ∀ i, t.shown? d i = s.shown? a i

/-- A container shows in `t` at each position the connective of what two operands contributed to it
in `s`, and nothing behind the last one. -/
structure Connects (s : Store) (op : Connective) (a b : CellId) (t : Store) (d : CellId) : Prop where
  type_eq : t.type d = .bool
  lengths_eq : t.lengths d = s.arrayLengths [a, b]
  lane : ∀ i < (elementCount (s.arrayLengths [a, b])).toNat, ∃ x y,
    s.contribution? .bool i a = some (.bool x) ∧ s.contribution? .bool i b = some (.bool y) ∧
      t.shown? d i = some (.bool (op.apply x y))
  rest : ∀ i, (elementCount (s.arrayLengths [a, b])).toNat ≤ i → t.shown? d i = none

theorem Mirrors.trans (h : s.Mirrors a t c) (h' : t.Mirrors c u d) : s.Mirrors a u d :=
  ⟨h'.type_eq.trans h.type_eq, h'.lengths_eq.trans h.lengths_eq,
    fun i => (h'.lane i).trans (h.lane i)⟩

theorem Mirrors.symm (h : s.Mirrors a t d) : t.Mirrors d s a :=
  ⟨h.type_eq.symm, h.lengths_eq.symm, fun i => (h.lane i).symm⟩

theorem Alike.mirrors (h : s.Alike a t d) : s.Mirrors a t d :=
  ⟨h.type_eq.symm, h.lengths_eq.symm, fun i => by rw [shown?, ← h.window_eq, shown?]⟩

theorem Decided.congr (h : s.Decided op a) (hm : s.Mirrors a t d) : t.Decided op d :=
  ⟨hm.type_eq.trans h.type_eq, fun i v hv => h.lane i v ((hm.lane i).symm.trans hv)⟩

theorem decided_congr (hm : s.Mirrors a t d) : s.Decided op a ↔ t.Decided op d :=
  ⟨fun h => h.congr hm, fun h => h.congr hm.symm⟩

theorem Connects.congr (h : s.Connects op a b t c) (hm : t.Mirrors c u d) :
    s.Connects op a b u d := by
  refine ⟨hm.type_eq.trans h.type_eq, hm.lengths_eq.trans h.lengths_eq, fun i hi => ?_,
    fun i hi => (hm.lane i).trans (h.rest i hi)⟩
  obtain ⟨x, y, hx, hy, hv⟩ := h.lane i hi
  exact ⟨x, y, hx, hy, (hm.lane i).trans hv⟩

/-- What a connective combines two operands to is determined by what they show. -/
theorem Connects.mirrors (h : s.Connects op a b t c) (h' : s.Connects op a b u d) :
    t.Mirrors c u d := by
  refine ⟨h'.type_eq.trans h.type_eq.symm, h'.lengths_eq.trans h.lengths_eq.symm, fun i => ?_⟩
  by_cases hi : i < (elementCount (s.arrayLengths [a, b])).toNat
  · obtain ⟨x, y, hx, hy, hv⟩ := h.lane i hi
    obtain ⟨x', y', hx', hy', hv'⟩ := h'.lane i hi
    rw [hx] at hx'
    rw [hy] at hy'
    cases hx'
    cases hy'
    rw [hv, hv']
  · rw [h.rest i (Nat.not_lt.mp hi), h'.rest i (Nat.not_lt.mp hi)]

/-! ### Conditions -/

theorem readsAs_bool {ty : DataType} : ty.readsAs .bool = false ↔ ty ≠ .bool := by
  cases ty <;> simp [DataType.readsAs, DataType.isConcrete]

theorem Formed.exists_readBools (hs : s.Formed) (ht : s.type c = .bool) :
    ∃ xs, s.readBools c = .ok xs ∧ s.Reading .bool c .bool xs ∧
      ∀ i, s.shown? c i = xs[i]?.map .bool := by
  have hreads : ¬ (s.type c).readsAs .bool = false := by simp [ht, DataType.readsAs,
    DataType.isConcrete]
  obtain ⟨xs, hxs, hread⟩ := hs.decides_readBools.exists_ok hreads
  obtain ⟨data, hw, htype, -⟩ := hs.exists_window (c := c) (by simp [ht])
  rw [ht] at htype
  cases data with
  | bools ys =>
    have hys : s.readBools c = .ok ys := by
      simp [readBools, ht, lanes, hw, Except.mapError]
    rw [hxs] at hys
    cases hys
    exact ⟨xs, hxs, hread, shown?_of_window hw⟩
  | ints | floats | strings => cases htype

/-- Reading all elements finds out whether they decide. -/
theorem decided_iff (op : Connective) {xs : Array Bool} (ht : s.type c = .bool)
    (hxs : ∀ i, s.shown? c i = xs[i]?.map .bool) :
    s.Decided op c ↔ op.isDecidedBy xs = true := by
  rw [Connective.isDecidedBy, Array.all_eq_true]
  constructor
  · intro h i hi
    have hv := h.lane i (.bool xs[i]) (by rw [hxs, Array.getElem?_eq_getElem hi]; rfl)
    simpa using hv
  · intro h
    refine ⟨ht, fun i v hv => ?_⟩
    rw [hxs, Option.map_eq_some_iff] at hv
    obtain ⟨x, hx, rfl⟩ := hv
    obtain ⟨hi, rfl⟩ := Array.getElem?_eq_some_iff.mp hx
    have hall := h i hi
    simpa using hall

/-- A jump branches on a bool container if this decides the connective. -/
theorem Formed.branches_of_bool (hs : s.Formed) (op : Connective) (ht : s.type c = .bool) :
    s.Decided op c ∧ s.branches op.decider c = .ok true ∨
      ¬ s.Decided op c ∧ s.branches op.decider c = .ok false := by
  obtain ⟨xs, hxs, -, hshown⟩ := hs.exists_readBools ht
  have hbranches : s.branches op.decider c = .ok (op.isDecidedBy xs) := by
    rw [branches, hxs]
    rfl
  rw [decided_iff op ht hshown, hbranches]
  cases op.isDecidedBy xs <;> simp

/-! ### Results -/

/-- What a connective makes of two operands. -/
structure Joins (s : Store) (op : Connective) (a b : CellId) (r : List Int × Lanes) : Prop where
  type_eq : r.2.type = .bool
  size_eq : r.2.size = (elementCount r.1).toNat
  lane : s.Decided op a ∧ r.1 = s.lengths a ∧ (∀ i, r.2.get? i = s.shown? a i) ∨
    ¬ s.Decided op a ∧ s.Connectable a b ∧ r.1 = s.arrayLengths [a, b] ∧
      ∀ i < (elementCount r.1).toNat, ∃ x y, s.contribution? .bool i a = some (.bool x) ∧
        s.contribution? .bool i b = some (.bool y) ∧ r.2.get? i = some (.bool (op.apply x y))

/-- A connective refuses its operands if the left one does not decide and they cannot be combined. -/
theorem Formed.decides_connectResult (hs : s.Formed) (op : Connective) :
    Decides (¬ s.Decided op a ∧ ¬ s.Connectable a b) (s.Joins op a b)
      (s.connectResult op .bool a b) := by
  unfold connectResult
  rw [if_neg (not_not.mpr rfl)]
  by_cases ha : s.type a = .bool
  case neg =>
    have hrefused : s.readBools a = refuse (.usedAs (s.shape a) .bool) := if_pos ha
    rw [hrefused]
    exact ⟨fun h => ha h.type_eq, fun h => ha h.left_eq⟩
  obtain ⟨xs, hxs, hx, hshown⟩ := hs.exists_readBools ha
  have hdecided := decided_iff op ha hshown
  rw [hxs, ok_bind]
  by_cases hd : op.isDecidedBy xs = true
  · rw [if_pos hd]
    exact ⟨fun h => h.1 (hdecided.mpr hd), rfl, hx.counted.eq_lengths,
      .inl ⟨hdecided.mpr hd, rfl, fun i => (hshown i).symm⟩⟩
  · rw [if_neg hd]
    have hnot : ¬ s.Decided op a := fun h => hd (hdecided.mp h)
    refine (decides_broadcastLengths.and_not.bind fun ls hls =>
      hs.decides_readBools.and_not.bind_total fun ys hy => ?_).congr ?_
    · have hconnectable : s.Connectable a b :=
        ⟨ha, not_not.mp fun hb => hy.1 (readsAs_bool.mpr hb), fun hra hrb =>
          not_not.mp fun hne => hls.1 ⟨hra, hrb, hne⟩⟩
      obtain ⟨zs, hzs, hcount, hlane⟩ := hx.combine (f := op.apply) hls.2.2 hy.2
      rw [hzs, ok_bind]
      refine ⟨id, rfl, hcount, .inr ⟨hnot, hconnectable, hls.2.1, fun i hi => ?_⟩⟩
      obtain ⟨x, y, hcx, hcy, hz⟩ := hlane i hi
      exact ⟨x, y, hcx, hcy, by rw [Lanes.get?, hz]; rfl⟩
    · rw [readsAs_bool]
      refine ⟨fun h => ⟨hnot, fun hc => ?_⟩, fun h => ?_⟩
      · rcases h with ⟨hra, hrb, hne⟩ | hb
        · exact hne (hc.lengths_eq hra hrb)
        · exact hb hc.right_eq
      · by_contra hneither
        rw [not_or, not_not] at hneither
        exact h.2 ⟨ha, hneither.2, fun hra hrb =>
          not_not.mp fun hne => hneither.1 ⟨hra, hrb, hne⟩⟩

theorem Formed.shows_of_deliver (hs : s.Formed) (hd : d < s.cells.size)
    (hsize : data.size = (elementCount lengths).toNat) (h : s.deliver d lengths data = .ok t) :
    t.type d = data.type ∧ t.lengths d = lengths ∧ ∀ i, t.shown? d i = data.get? i := by
  rcases hs.deliver_cases hd hsize with ⟨-, u, hu, htype, hlengths, hw⟩ | ⟨-, e, he, -⟩
  · rw [hu] at h
    cases h
    exact ⟨htype, hlengths, shown?_of_window hw⟩
  · rw [he] at h
    cases h

/-- The lengths that a connective gives to its destination, if the left operand decides or both can be
combined. -/
def Joinable (s : Store) (op : Connective) (a b : CellId) (lengths : List Int) : Prop :=
  s.Decided op a ∧ lengths = s.lengths a ∨
    ¬ s.Decided op a ∧ s.Connectable a b ∧ lengths = s.arrayLengths [a, b]

/-- A connective refuses its operands, or copies or combines them, or cannot allocate its result. -/
theorem Formed.connect_cases (hs : s.Formed) (op : Connective) (a b : CellId)
    (hd : d < s.cells.size) :
    (¬ s.Decided op a ∧ ¬ s.Connectable a b ∧
      ∃ cause, s.connect op .bool d a b = .error (.data cause)) ∨
    (∃ lengths, s.Joinable op a b lengths ∧ s.Takes d .bool lengths ∧
      ∃ t, s.connect op .bool d a b = .ok t ∧ (s.Decided op a → s.Mirrors a t d) ∧
        (¬ s.Decided op a → s.Connects op a b t d)) ∨
    (∃ lengths, s.Joinable op a b lengths ∧ ¬ s.Takes d .bool lengths ∧
      ∃ e, s.connect op .bool d a b = .error (.abort e) ∧ Unallocatable e) := by
  have hdecides := hs.decides_connectResult op (a := a) (b := b)
  unfold connect
  cases hr : s.connectResult op .bool a b with
  | error e =>
    rw [hr] at hdecides
    cases e with
    | data cause => exact .inl ⟨hdecides.1, hdecides.2, cause, rfl⟩
    | abort e => exact hdecides.elim
  | ok r =>
    obtain ⟨lengths, data⟩ := r
    rw [hr] at hdecides
    obtain ⟨-, hjoins⟩ := hdecides
    have htype : data.type = .bool := hjoins.type_eq
    have hjoinable : s.Joinable op a b lengths := by
      rcases hjoins.lane with ⟨hdec, hl, -⟩ | ⟨hdec, hc, hl, -⟩
      · exact .inl ⟨hdec, hl⟩
      · exact .inr ⟨hdec, hc, hl⟩
    have hreceive : s.receive d (.ok (lengths, data)) = s.deliver d lengths data := rfl
    rw [hreceive]
    rcases hs.deliver_cases hd hjoins.size_eq with ⟨ht, t, hok, -⟩ | ⟨ht, e, he, hun⟩
    · obtain ⟨htt, htl, hshown⟩ := hs.shows_of_deliver hd hjoins.size_eq hok
      refine .inr (.inl ⟨lengths, hjoinable, htype ▸ ht, t, hok, fun hdec => ?_, fun hdec => ?_⟩)
      · rcases hjoins.lane with ⟨-, hl, hget⟩ | ⟨hnot, -⟩
        · exact ⟨(htt.trans htype).trans hdec.type_eq.symm, htl.trans hl,
            fun i => (hshown i).trans (hget i)⟩
        · exact absurd hdec hnot
      · rcases hjoins.lane with ⟨hyes, -⟩ | ⟨-, -, hl, hlane⟩
        · exact absurd hyes hdec
        · have hl : s.arrayLengths [a, b] = lengths := hl.symm
          refine ⟨htt.trans htype, htl.trans hl.symm, fun i hi => ?_, fun i hi => ?_⟩
          · obtain ⟨x, y, hx, hy, hv⟩ := hlane i (hl ▸ hi)
            exact ⟨x, y, hx, hy, (hshown i).trans hv⟩
          · rw [hl, ← hjoins.size_eq] at hi
            exact (hshown i).trans (Lanes.get?_eq_none_iff.mpr hi)
    · exact .inr (.inr ⟨lengths, hjoinable, htype ▸ ht, e, he, hun⟩)

/-! ### Lane after lane -/

/-- Copies a left operand that decides.  Otherwise shapes the destination and then stores its lanes one
after another. -/
def connectInPlace (s : Store) (op : Connective) (d a b : CellId) : Except Failure Store := do
  let xs ← s.readBools a
  if op.isDecidedBy xs then s.deliver d (s.lengths a) (.bools xs)
  else
    let fs ← [a, b].mapM (s.feed .bool)
    let u ← s.prepare d .bool (s.arrayLengths [a, b])
    let n := (u.size d).toNat
    .ok ((List.range n).foldl (u.storeLane op.on? d n fs) u)

/-- The operands that can be combined are scalars or arrays of the lengths of the result. -/
theorem Connectable.scalar_or_lengths (h : s.Connectable a b) (hc : c ∈ [a, b]) :
    s.rank c = 0 ∨ s.arrayLengths [a, b] = s.lengths c := by
  refine lengths_of_agree (fun x hx y hy hrx hry => ?_) hc
  simp only [List.mem_cons, List.not_mem_nil, or_false] at hx hy
  rcases hx with rfl | rfl <;> rcases hy with rfl | rfl
  · rfl
  · exact h.lengths_eq hrx hry
  · exact (h.lengths_eq hry hrx).symm
  · rfl

/-- Storing the lanes of a connective one after another, each computed from what the operands show by
then, gives what is made of the operands as they were before. -/
theorem Formed.connectInPlace_eq (hs : s.Formed) (ha : s.Aligned) (hd : d < s.cells.size)
    (h : s.Decided op a ∨ s.Connectable a b) :
    s.connectInPlace op d a b = s.connect op .bool d a b := by
  have htype : s.type a = .bool := h.elim (fun h => h.type_eq) fun h => h.left_eq
  obtain ⟨xs, hxs, -, hshown⟩ := hs.exists_readBools htype
  have hdecided := decided_iff op htype hshown
  unfold connectInPlace
  rw [hxs, ok_bind]
  by_cases hdec : op.isDecidedBy xs = true
  · have hresult : s.connectResult op .bool a b = .ok (s.lengths a, .bools xs) := by
      simp [connectResult, hxs, ok_bind, hdec]
    rw [if_pos hdec, connect, hresult]
    rfl
  · have hnot : ¬ s.Decided op a := fun hyes => hdec (hdecided.mp hyes)
    have hcon : s.Connectable a b := h.resolve_left hnot
    obtain ⟨⟨lengths, data⟩, hr, hjoins⟩ :=
      (hs.decides_connectResult op (a := a) (b := b)).exists_ok fun hno => hno.2 hcon
    obtain ⟨hyes, -⟩ | ⟨-, -, hlengths, hlane⟩ := hjoins.lane
    · exact absurd hyes hnot
    simp only at hlengths hlane
    have hreads : ∀ c ∈ [a, b], (s.type c).readsAs .bool = true := by
      simp [hcon.left_eq, hcon.right_eq, DataType.readsAs, DataType.isConcrete]
    obtain ⟨fs, hfs, hfeeds⟩ := hs.exists_feeds hreads
    have hbool : data.type = .bool := hjoins.type_eq
    unfold connect receive deliver
    rw [if_neg hdec, hr, hfs, ok_bind, ok_bind, ← hbool, ← hlengths]
    rcases hs.prepare_cases lengths hd data.isConcrete_type with
      ⟨-, u, hu, hshaped⟩ | ⟨-, e, he, -⟩
    · have hn : (u.size d).toNat = (elementCount lengths).toNat := by rw [hshaped.size_eq]
      have hall : (u.size d).toNat = data.size := hn.trans hjoins.size_eq.symm
      simp only [hu, ok_bind]
      rw [hshaped.storeLanes hs ha (fun c hc => hlengths ▸ hcon.scalar_or_lengths hc)
        (fun i hi => ?_) hfeeds hn (Nat.le_refl _), hall, Lanes.extract_size]
      obtain ⟨x, y, hx, hy, hv⟩ := hlane i (hn ▸ hi)
      exact ⟨[.bool x, .bool y], _, by simp [hx, hy], rfl, hv⟩
    · simp only [he, error_bind]

/-- Containers that show the first three and the last three of four elements, and three others. -/
def staggered : Store where
  cells := #[
    { buffer := some 0, size := 3, lengths := [3] },
    { buffer := some 0, size := 3, lengths := [3], offset := 1 },
    { buffer := some 1, size := 3, lengths := [3] }]
  buffers := #[.bools #[true, false, true, false], .bools #[false, false, false]]

-- the first lane that is stored is the second one that is read
example : ((staggered.connectInPlace .or 1 0 2).toOption.bind fun t => (t.readBools 1).toOption) =
      some #[true, true, true] ∧
    ((staggered.connect .or .bool 1 0 2).toOption.bind fun t => (t.readBools 1).toOption) =
      some #[true, false, true] := by
  decide +kernel

end Store

end VectorMachine
