import VectorMachine.Proofs.Binary64.Reassembly
import VectorMachine.Proofs.ShortCircuit

/-!
# Float texts restore floats

The text of a float element is a numeral that denotes what the shortest decimal of the float denotes,
and the float is read from it.  So in both engines a cast of floats to text and a cast of the texts to
floats restore the elements, unless they are no numbers.
-/

namespace VectorMachine
set_option autoImplicit false

open Binary64 (Numeral value elementLayout denotation? fixedForm exponentForm keepPoint respelled
  thousandth)

/-- The text of a finite float is a numeral with digits on both sides of the point.  It is put together
from the fixed or the exponential form of a shortest decimal that identifies the float, and denotes the
same sign and the same rational. -/
theorem Binary64.text_denotes {x : Float} {d : Binary64.Dyadic} (hx : value x = .finite d) :
    Binary64.Identifies x d d.shown ∧
    denotation? (fixedForm d) = some (d.negative, d.shown) ∧
    denotation? (exponentForm d) = some (d.negative, d.shown) ∧
    elementLayout.text x = String.ofList (if d.significand = 0 ∨
      thousandth.magnitude ≤ d.magnitude ∧ d.magnitude < 10 ^ (7 : Int)
      then keepPoint (fixedForm d) else respelled (exponentForm d)) ∧
    ∃ n : Numeral, n.WellFormed ∧ elementLayout.text x = String.ofList n.text ∧
      denotation? n.text = some (d.negative, d.shown) := by
  obtain ⟨n, hn, hnegative, hbody, hdecimal⟩ := Binary64.exists_numeral d
  have htext : n.text = Binary64.signText d.negative ++ n.body := by rw [Numeral.text, hnegative]
  refine ⟨Binary64.identifies_shown hx, Binary64.denotation?_fixedForm d,
    Binary64.denotation?_exponentForm d, ?_, n, hn, ?_, ?_⟩
  · rw [Binary64.text_of_finite hx, Binary64.elementBody_eq (Binary64.finite_of_value hx).1]
  · rw [Binary64.text_of_finite hx, htext, hbody]
  · rw [htext, Binary64.denotation?_signText hn.leads, hdecimal]
    rfl

/-! ### Casts of elements -/

namespace Scalar

/-- The text of a float element is always read as a float, and as itself if it is a number. -/
theorem cast?_text (x : Float) : ∃ y, cast? .float (.string (Scalar.float x).text) = some (.float y) ∧
    (x.isNaN = false → y = x) := by
  have hcast : ∀ {y : Float}, Binary64.read? (Scalar.float x).text = some y →
      cast? .float (.string (Scalar.float x).text) = some (.float y) := by
    intro y hy
    simp only [cast?, ofText?, hy, Option.map_some]
  by_cases hx : value x = .nan
  · refine ⟨Float.ofBits 0x7ff8000000000001, hcast ?_, fun hnan => ?_⟩
    · rw [Scalar.text, Binary64.Layout.text, hx]
      rfl
    · rw [Binary64.isNaN_of_value hx] at hnan
      cases hnan
  · exact ⟨x, hcast (Binary64.read?_text hx), fun _ => rfl⟩

/-- What is a number is cast to its text and back to itself. -/
theorem cast?_text_of_number {x : Float} (hx : x.isNaN = false) :
    cast? .float (.string (Scalar.float x).text) = some (.float x) := by
  obtain ⟨y, hy, hsame⟩ := cast?_text x
  rw [hy, hsame hx]

end Scalar

namespace Store

variable {s t u : Store} {a c d e : CellId} {i : Nat} {v : Scalar}

theorem Formed.of_shown? (hs : s.Formed) (ht : s.type c ≠ .void) (h : s.shown? c i = some v) :
    v.type = s.type c ∧ i < (elementCount (s.lengths c)).toNat := by
  obtain ⟨data, hw, htype, hcount⟩ := hs.exists_window ht
  rw [shown?_of_window hw] at h
  refine ⟨(Lanes.type_of_get? h).trans htype, ?_⟩
  rw [← hcount.eq_lengths]
  by_contra hge
  rw [Lanes.get?_eq_none_iff.mpr (Nat.not_lt.mp hge)] at h
  cases h

/-- In `t` the container `d` shows the texts of the floats that `a` shows in `s`. -/
structure Spells (s : Store) (a : CellId) (t : Store) (d : CellId) : Prop where
  type_eq : t.type d = .string
  lengths_eq : t.lengths d = s.lengths a
  lane : ∀ i < (elementCount (s.lengths a)).toNat, ∃ x, s.shown? a i = some (.float x) ∧
    t.shown? d i = some (.string (Scalar.float x).text)

/-- In `t` the container `d` shows floats, and where `a` shows a number in `s` it is the same one. -/
structure Restores (s : Store) (a : CellId) (t : Store) (d : CellId) : Prop where
  type_eq : t.type d = .float
  lengths_eq : t.lengths d = s.lengths a
  lane : ∀ i x, s.shown? a i = some (.float x) → x.isNaN = false → t.shown? d i = some (.float x)

/-- Only its rank keeps a container from being given the texts of floats. -/
theorem refuses_floatsToText (ha : s.type a = .float) :
    Transfer.cast.Refuses s .string d a ↔ s.type d ≠ .void ∧ s.rank d ≠ s.rank a := by
  have hspelt : ¬ s.Misspelt a .string := by
    rintro ⟨i, text, -, h⟩
    cases h
  have hcasts : DataType.float.castsTo .string = true := rfl
  simp [Transfer.Refuses, ha, hspelt, hcasts]

/-- Only its rank keeps a container from being given what the texts of floats are read as. -/
theorem Spells.refuses_iff (h : s.Spells a t d) (ht : t.Formed) :
    Transfer.cast.Refuses t .float e d ↔ t.type e ≠ .void ∧ t.rank e ≠ s.rank a := by
  have hspelt : ¬ t.Misspelt d .float := by
    rintro ⟨i, text, hi, hmisspelt⟩
    have hlt := (ht.of_shown? (by simp [h.type_eq]) hi).2
    rw [h.lengths_eq] at hlt
    obtain ⟨x, -, hx⟩ := h.lane i hlt
    rw [hi] at hx
    cases hx
    obtain ⟨y, hy, -⟩ := Scalar.cast?_text x
    rw [hy] at hmisspelt
    cases hmisspelt
  have hrank : t.rank d = s.rank a := congrArg List.length h.lengths_eq
  have hcasts : DataType.string.castsTo .float = true := rfl
  simp [Transfer.Refuses, h.type_eq, hspelt, hcasts, hrank]

end Store

namespace Machine

variable {m n : Machine} {z : Instruction} {d a : CellId} {pc : Int}

/-- A step at a cast delivers the converted elements. -/
theorem step_cast (env : Environment) (hz : instructionAt? env.program pc = some z)
    (hop : z.opcode = .cast) (hf : fetchAll z.operands m = .ok [d, a] n) :
    step env pc m = conclude pc z [d, a] n (n.store.cast z.type d a) := by
  refine step_eq_conclude hz hf ?_
  simp only [execute, change?, hop]
  exact onStore_eq

end Machine

namespace Launch

variable {l : Launch} {cache : Bool} {m : Machine} {z : Instruction} {pc next : Int}
  {stage after : Stage} {d a c : CellId} {x y w : Operand}

theorem relies_of_cast (hop : z.opcode = .cast) : l.Relies cache m z :=
  ⟨by simp [hop], by simp [hop], fun i y hy ho => by simp [hop, Accelerator.isNoOperation] at ho⟩

theorem Active.step (h : l.Active cache stage) (hz : Machine.instructionAt? l.program pc = some z)
    (hstep : stage.step l.environment pc = .ok (next, after)) : l.Active cache after := by
  cases h with
  | machine h =>
    rename_i accelerated m
    have hreached := h.step pc
    simp only [Stage.step] at hstep
    cases hm : Machine.step l.environment pc m with
    | error e m' =>
      rw [hm] at hstep
      cases hstep
    | ok next' m' =>
      rw [hm] at hstep hreached
      cases hstep
      exact .machine hreached
  | plan hplan h =>
    rename_i plan x
    have hshares := h.unit hz
    simp only [Stage.step] at hstep
    cases hx : Accelerator.step l.environment plan pc x with
    | error e x' =>
      rw [hx] at hstep
      cases hstep
    | ok next' x' =>
      rw [hx] at hstep hshares
      cases hstep
      exact .plan hplan hshares

theorem Preserves.step_cast (hl : l.Valid) (hp : l.Preserves m) (hs : m.store.Formed)
    (hz : Machine.instructionAt? l.program pc = some z) (hop : z.opcode = .cast)
    (hops : z.operands = [y, x]) (hd : m.memory.cell? y = some d) (ha : m.memory.cell? x = some a) :
    (Transfer.cast.Refuses m.store z.type d a ∧
      ∃ e m', Machine.step l.environment pc m = .error (.data e) m') ∨
    (¬ Transfer.cast.Refuses m.store z.type d a ∧ m.store.Takes d z.type (m.store.lengths a) ∧
      ∃ m', Machine.step l.environment pc m = .ok (pc + 1) m' ∧ m'.memory = m.memory ∧
        m.store.Becomes z.type d a .cast m'.store) ∨
    (¬ Transfer.cast.Refuses m.store z.type d a ∧ ¬ m.store.Takes d z.type (m.store.lengths a) ∧
      ∃ e m', Machine.step l.environment pc m = .error (.abort e) m') := by
  have hf : Machine.fetchAll z.operands m = .ok [d, a] m := by
    rw [hops]
    exact Machine.fetchAll_of_cells (.cons hd (.cons ha .nil))
  have hstep := Machine.step_cast l.environment hz hop hf
  rcases hs.receive_transfer (a := a) z.type (hp.guarded.addressable y d hd) .cast with
    ⟨hrefuses, cause, hr⟩ | ⟨hno, htakes, t, hr, hbecomes⟩ | ⟨hno, htakes, e, hr, -⟩ | ⟨hnum, -⟩
  · rw [show m.store.cast z.type d a = .error (.data cause) from hr] at hstep
    obtain ⟨e, he⟩ := hp.exists_dataError hl hz hstep
    exact .inl ⟨hrefuses, e, m, he⟩
  · rw [show m.store.cast z.type d a = .ok t from hr] at hstep
    exact .inr (.inl ⟨hno, htakes, _, hstep, rfl, hbecomes⟩)
  · rw [show m.store.cast z.type d a = .error (.abort e) from hr] at hstep
    exact .inr (.inr ⟨hno, htakes, e, _, hstep⟩)
  · exact absurd trivial hnum

/-- How an engine treats a cast at `pc` between containers that show what they show in `s`. -/
structure Casts (s : Store) (ty : DataType) (d a : CellId) (pc : Int)
    (r : Except Stop (Int × Stage)) : Prop where
  refuses : (∃ e, r = .error (.data e)) ↔ Transfer.cast.Refuses s ty d a
  goes : (∃ next after, r = .ok (next, after)) ↔
    ¬ Transfer.cast.Refuses s ty d a ∧ s.Takes d ty (s.lengths a)
  advances : ∀ next after, r = .ok (next, after) → next = pc + 1
  shape : ∀ next after, r = .ok (next, after) → after.ended.machine.store.type d = ty ∧
    after.ended.machine.store.lengths d = s.lengths a
  lane : ∀ next after, r = .ok (next, after) → ∀ i < (elementCount (s.lengths a)).toNat,
    ∃ v, (s.shown? a i).bind (Scalar.cast? ty) = some v ∧ after.ended.machine.store.shown? d i = some v

/-- The engine of a stage casts as the machine that has written back its slots, and all operands keep
their cells. -/
theorem Active.casts (hl : l.Orderly) (h : l.Active cache stage)
    (hz : Machine.instructionAt? l.program pc = some z) (hop : z.opcode = .cast)
    (hops : z.operands = [y, x]) (hd : stage.ended.machine.memory.cell? y = some d)
    (ha : stage.ended.machine.memory.cell? x = some a) :
    Casts stage.ended.machine.store z.type d a pc (stage.step l.environment pc) ∧
      ∀ next after, stage.step l.environment pc = .ok (next, after) → l.Active cache after ∧
        ∀ {w c}, l.program.Knows w → stage.ended.machine.memory.cell? w = some c →
          after.ended.machine.memory.cell? w = some c := by
  obtain ⟨hp, hs⟩ := h.preserves hl
  have htracks := h.tracks hl
  have hrelies : l.Relies cache stage.ended.machine z := relies_of_cast hop
  rcases hp.step_cast hl.valid hs hz hop hops hd ha with
    ⟨hrefuses, e, m', hstep⟩ | ⟨hno, htakes, m', hstep, hmemory, hbecomes⟩ | ⟨hno, htakes, e, m', hstep⟩
  · have hr := htracks.step_error hl.valid hrelies hz hstep
    refine ⟨⟨iff_of_true ⟨e, hr⟩ hrefuses, iff_of_false ?_ fun h => h.1 hrefuses, ?_, ?_, ?_⟩, ?_⟩
    all_goals simp [hr]
  · obtain ⟨after, hr, hafter⟩ := htracks.step_ok hl.valid hrelies hz hstep
    have hkept : ∀ {w c}, l.program.Knows w → stage.ended.machine.memory.cell? w = some c →
        after.ended.machine.memory.cell? w = some c ∧
          m'.store.Alike c after.ended.machine.store c := fun hk hc =>
      hafter.alike hl.valid (placed_of_knows hk hc) (hmemory ▸ hc)
    have hknows : l.program.Knows y := (hl.valid.admissible hz).knows y (by simp [hops])
    have halike := (hkept hknows hd).2
    refine ⟨⟨iff_of_false (by simp [hr]) hno, iff_of_true ⟨_, _, hr⟩ ⟨hno, htakes⟩, ?_, ?_, ?_⟩, ?_⟩
    · rintro next after' heq
      rw [hr] at heq
      cases heq
      rfl
    · rintro next after' heq
      rw [hr] at heq
      cases heq
      exact ⟨halike.type_eq ▸ hbecomes.type_eq, halike.lengths_eq ▸ hbecomes.lengths_eq⟩
    · rintro next after' heq i hi
      rw [hr] at heq
      cases heq
      obtain ⟨v, hv, hshown⟩ := hbecomes.lane trivial i hi
      exact ⟨v, hv, by rw [← hshown, Store.shown?, Store.shown?, halike.window_eq]⟩
    · rintro next after' heq
      rw [hr] at heq
      cases heq
      exact ⟨h.step hz hr, fun hk hc => (hkept hk hc).1⟩
  · have hr := htracks.step_error hl.valid hrelies hz hstep
    refine ⟨⟨iff_of_false (by simp [hr]) hno, iff_of_false (by simp [hr]) fun h => htakes h.2, ?_, ?_, ?_⟩,
      ?_⟩
    all_goals simp [hr]

/-- A cast of floats to text gives their texts. -/
theorem Casts.spells {s : Store} {r : Except Stop (Int × Stage)} (h : Casts s .string d a pc r)
    (hs : s.Formed) (ha : s.type a = .float) (hr : r = .ok (next, after)) :
    s.Spells a after.ended.machine.store d := by
  refine ⟨(h.shape next after hr).1, (h.shape next after hr).2, fun i hi => ?_⟩
  obtain ⟨v, hv, hshown⟩ := h.lane next after hr i hi
  obtain ⟨w, hw, hcast⟩ := Option.bind_eq_some_iff.mp hv
  have htype := (hs.of_shown? (by simp [ha]) hw).1
  rw [ha] at htype
  cases w <;> cases htype
  cases hcast
  exact ⟨_, hw, hshown⟩

/-- A cast of texts of floats gives the floats that are numbers. -/
theorem Casts.restores {s t : Store} {r : Except Stop (Int × Stage)} {e : CellId}
    (h : Casts t .float e d pc r) (hs : s.Formed) (ha : s.type a = .float) (hspells : s.Spells a t d)
    (hr : r = .ok (next, after)) : s.Restores a after.ended.machine.store e := by
  obtain ⟨htype, hlengths⟩ := h.shape next after hr
  refine ⟨htype, hlengths.trans hspells.lengths_eq, fun i x hx hnan => ?_⟩
  have hlt := (hs.of_shown? (by simp [ha]) hx).2
  obtain ⟨x', hx', htext⟩ := hspells.lane i hlt
  rw [hx] at hx'
  cases hx'
  rw [← hspells.lengths_eq] at hlt
  obtain ⟨v, hv, hshown⟩ := h.lane next after hr i hlt
  obtain ⟨y, hy, hsame⟩ := Scalar.cast?_text x
  rw [htext, Option.bind_some, hy] at hv
  cases hv
  rw [hshown, hsame hnan]

/-- How an engine casts the floats of `a` to text in `d` at `pc`, and the texts to floats in `e` behind
it.  Only ranks are refused, and a destination that fits takes the result if it can be allocated. -/
structure RoundTrip (l : Launch) (stage : Stage) (pc : Int) (a d e : CellId) : Prop where
  refuses : (∃ f, stage.step l.environment pc = .error (.data f)) ↔
    stage.ended.machine.store.type d ≠ .void ∧
      stage.ended.machine.store.rank d ≠ stage.ended.machine.store.rank a
  goes : (∃ mid, stage.step l.environment pc = .ok (pc + 1, mid)) ↔
    ¬ (stage.ended.machine.store.type d ≠ .void ∧
      stage.ended.machine.store.rank d ≠ stage.ended.machine.store.rank a) ∧
    stage.ended.machine.store.Takes d .string (stage.ended.machine.store.lengths a)
  advances : ∀ next mid, stage.step l.environment pc = .ok (next, mid) → next = pc + 1
  spells : ∀ next mid, stage.step l.environment pc = .ok (next, mid) →
    stage.ended.machine.store.Spells a mid.ended.machine.store d
  refuses_back : ∀ next mid, stage.step l.environment pc = .ok (next, mid) →
    ((∃ f, mid.step l.environment (pc + 1) = .error (.data f)) ↔
      mid.ended.machine.store.type e ≠ .void ∧
        mid.ended.machine.store.rank e ≠ stage.ended.machine.store.rank a)
  goes_back : ∀ next mid, stage.step l.environment pc = .ok (next, mid) →
    ((∃ after, mid.step l.environment (pc + 1) = .ok (pc + 2, after)) ↔
      ¬ (mid.ended.machine.store.type e ≠ .void ∧
        mid.ended.machine.store.rank e ≠ stage.ended.machine.store.rank a) ∧
      mid.ended.machine.store.Takes e .float (stage.ended.machine.store.lengths a))
  restores : ∀ next mid next' after, stage.step l.environment pc = .ok (next, mid) →
    mid.step l.environment (pc + 1) = .ok (next', after) → next' = pc + 2 ∧
      stage.ended.machine.store.Restores a after.ended.machine.store e

theorem Active.roundTrip (hl : l.Orderly) (h : l.Active cache stage) {z' : Instruction} {e : CellId}
    (hz : Machine.instructionAt? l.program pc = some z) (hop : z.opcode = .cast)
    (hty : z.type = .string) (hops : z.operands = [y, x])
    (hz' : Machine.instructionAt? l.program (pc + 1) = some z') (hop' : z'.opcode = .cast)
    (hty' : z'.type = .float) (hops' : z'.operands = [w, y])
    (ha : stage.ended.machine.memory.cell? x = some a)
    (hd : stage.ended.machine.memory.cell? y = some d)
    (he : stage.ended.machine.memory.cell? w = some e)
    (hfloat : stage.ended.machine.store.type a = .float) : l.RoundTrip stage pc a d e := by
  have hs := (h.preserves hl).2
  obtain ⟨hfirst, hkept⟩ := h.casts hl hz hop hops hd ha
  rw [hty] at hfirst
  have hrefuses := Store.refuses_floatsToText (d := d) hfloat
  -- what holds of the second cast once the first has been performed
  have hback : ∀ next mid, stage.step l.environment pc = .ok (next, mid) →
      mid.ended.machine.store.Formed ∧
      stage.ended.machine.store.Spells a mid.ended.machine.store d ∧
      Casts mid.ended.machine.store .float e d (pc + 1) (mid.step l.environment (pc + 1)) := by
    intro next mid hmid
    obtain ⟨hactive, hcells⟩ := hkept next mid hmid
    have hknows := (hl.valid.admissible hz').knows
    have hsecond := (hactive.casts hl hz' hop' hops' (hcells (hknows w (by simp [hops'])) he)
      (hcells (hknows y (by simp [hops'])) hd)).1
    rw [hty'] at hsecond
    exact ⟨(hactive.preserves hl).2, hfirst.spells hs hfloat hmid, hsecond⟩
  refine ⟨hfirst.refuses.trans hrefuses, ?_, hfirst.advances,
    fun next mid hmid => (hback next mid hmid).2.1, fun next mid hmid => ?_, fun next mid hmid => ?_, fun next mid next' after hmid hafter => ?_⟩
  · rw [← hrefuses, ← hfirst.goes]
    constructor
    · rintro ⟨mid, hmid⟩
      exact ⟨_, mid, hmid⟩
    · rintro ⟨next, mid, hmid⟩
      obtain rfl := hfirst.advances next mid hmid
      exact ⟨mid, hmid⟩
  · obtain ⟨ht, hspells, hsecond⟩ := hback next mid hmid
    exact hsecond.refuses.trans (hspells.refuses_iff ht)
  · obtain ⟨ht, hspells, hsecond⟩ := hback next mid hmid
    rw [← hspells.refuses_iff ht, ← hspells.lengths_eq, ← hsecond.goes]
    constructor
    · rintro ⟨after, hafter⟩
      exact ⟨_, after, hafter⟩
    · rintro ⟨next', after, hafter⟩
      obtain rfl := hsecond.advances next' after hafter
      rw [show pc + 1 + 1 = pc + 2 by omega] at hafter
      exact ⟨after, hafter⟩
  · obtain ⟨ht, hspells, hsecond⟩ := hback next mid hmid
    obtain rfl := hsecond.advances next' after hafter
    exact ⟨by omega, hsecond.restores hs hfloat hspells hafter⟩

/-- The text of a finite float is a numeral with digits on both sides of the point.  It is put together
from the fixed or the exponential form of a shortest decimal that identifies the float, and denotes the
same sign and the same rational.  What is a number is cast to its text and back to itself.  So in both
engines a cast of floats to text, followed by a cast of the texts to floats, restores the elements of an
array that are numbers, and neither cast is refused but for a rank. -/
theorem float_text_keeps_value (hl : l.Orderly) (h : l.Active cache stage) :
    (∀ {x : Float} {d : Binary64.Dyadic}, value x = .finite d →
      Binary64.Identifies x d d.shown ∧
      denotation? (fixedForm d) = some (d.negative, d.shown) ∧
      denotation? (exponentForm d) = some (d.negative, d.shown) ∧
      elementLayout.text x = String.ofList (if d.significand = 0 ∨
        thousandth.magnitude ≤ d.magnitude ∧ d.magnitude < 10 ^ (7 : Int)
        then keepPoint (fixedForm d) else respelled (exponentForm d)) ∧
      ∃ n : Numeral, n.WellFormed ∧ elementLayout.text x = String.ofList n.text ∧
        denotation? n.text = some (d.negative, d.shown)) ∧
    (∀ {x : Float}, x.isNaN = false →
      Scalar.cast? .float (.string (Scalar.float x).text) = some (.float x)) ∧
    (∀ {pc : Int} {z z' : Instruction} {x y w : Operand} {a d e : CellId},
      Machine.instructionAt? l.program pc = some z → z.opcode = .cast → z.type = .string →
      z.operands = [y, x] →
      Machine.instructionAt? l.program (pc + 1) = some z' → z'.opcode = .cast → z'.type = .float →
      z'.operands = [w, y] →
      stage.ended.machine.memory.cell? x = some a → stage.ended.machine.memory.cell? y = some d →
      stage.ended.machine.memory.cell? w = some e → stage.ended.machine.store.type a = .float →
      l.RoundTrip stage pc a d e) := by
  refine ⟨fun hx => Binary64.text_denotes hx, fun hx => Scalar.cast?_text_of_number hx, ?_⟩
  intro pc z z' x y w a d e hz hop hty hops hz' hop' hty' hops' ha hd he hfloat
  exact h.roundTrip hl hz hop hty hops hz' hop' hty' hops' ha hd he hfloat

/-- Casts the floats of a global to text, and the texts back in place. -/
def castsBack : Program where
  code := #[
    { opcode := .cast, types := [.string, .float], operands := [⟨.locals, 0⟩, ⟨.globals, 0⟩] },
    { opcode := .cast, types := [.float, .string], operands := [⟨.locals, 0⟩, ⟨.locals, 0⟩] },
    { opcode := .finish, types := [.void] }]
  extent := { globals := 0, locals := 0 }

def castsBackText : String := "CAST string:float L0 G0; CAST float:string L0 L0; END void;"

/-- A container of the host with a tenth, the negative zero and an infinity. -/
def tenthZeroInfinity : Store :=
  ({} : Store).fresh.2.renew 0 (.floats #[Float.ofBits 0x3fb999999999999a,
    Float.ofBits 0x8000000000000000, Float.ofBits 0xfff0000000000000]) [3]

theorem float_text_keeps_value_castsBack :
    let l := Launch.on castsBack none tenthZeroInfinity #[0]
    let stage := Stage.interpreting { l.machine with running := [] }
    l.Orderly ∧ l.Active true stage ∧ ∃ mid after, stage.step l.environment 0 = .ok (1, mid) ∧
      mid.step l.environment 1 = .ok (2, after) ∧
      after.ended.machine.store.shown? 1 0 = some (.float (Float.ofBits 0x3fb999999999999a)) ∧
      after.ended.machine.store.shown? 1 1 = some (.float (Float.ofBits 0x8000000000000000)) ∧
      after.ended.machine.store.shown? 1 2 = some (.float (Float.ofBits 0xfff0000000000000)) := by
  intro l stage
  have hasm : (Assembler.assemble castsBackText {}).toOption = some castsBack := by decide +kernel
  have hfresh : ({} : Store).fresh.2.Formed :=
    Store.Edit.formed .fresh
      ⟨Store.sound_empty, fun c => by simpa [Store.cell] using Store.sized_empty⟩
  have hformed : tenthZeroInfinity.Formed :=
    Store.Edit.formed (.renew trivial (by decide) (by decide)) hfresh
  have hvalid : l.Valid := valid_on hasm hformed.sound (by decide) (by decide +kernel) (by simp)
  have hl : l.Orderly := ⟨hvalid, hformed.sized, by simp [l, on]⟩
  have hreached : Reached l false stage := .interpret .allocated
  have hactive : l.Active true stage := .machine hreached
  obtain ⟨-, -, hcasts⟩ := float_text_keeps_value hl hactive
  have hfloat : stage.ended.machine.store.type 0 = .float := by decide +kernel
  have hvoid : stage.ended.machine.store.type 1 = .void := by decide +kernel
  have hlengths : stage.ended.machine.store.lengths 0 = [3] := by decide +kernel
  have hround : l.RoundTrip stage 0 0 1 1 :=
    hcasts rfl rfl rfl rfl rfl rfl rfl rfl (by decide +kernel) (by decide +kernel) (by decide +kernel)
      hfloat
  have hallocatable : ∀ ty ∈ [DataType.string, .float],
      Store.isAllocatable ty (elementCount [3]) = true := by
    decide +kernel
  obtain ⟨mid, hmid⟩ := hround.goes.mpr ⟨fun h => h.1 hvoid, .inr
    ⟨by rw [hlengths]; decide, by rw [hlengths]; exact hallocatable .string (by simp)⟩⟩
  have hrank : mid.ended.machine.store.rank 1 = stage.ended.machine.store.rank 0 :=
    congrArg List.length (hround.spells 1 mid hmid).lengths_eq
  obtain ⟨after, hafter⟩ := (hround.goes_back 1 mid hmid).mpr ⟨fun h => h.2 hrank, .inr
    ⟨by rw [hlengths]; decide, by rw [hlengths]; exact hallocatable .float (by simp)⟩⟩
  have hrestores := (hround.restores 1 mid 2 after hmid hafter).2
  exact ⟨hl, hactive, mid, after, hmid, hafter, hrestores.lane 0 _ rfl (by decide +kernel),
    hrestores.lane 1 _ rfl (by decide +kernel), hrestores.lane 2 _ rfl (by decide +kernel)⟩

end Launch

end VectorMachine
