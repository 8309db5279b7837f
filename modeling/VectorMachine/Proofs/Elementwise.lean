import VectorMachine.Proofs.Progress
import VectorMachine.Proofs.Store.InPlace

/-!
# Elementwise instructions

At every stage of a session an arithmetic instruction, a comparison, a negation or a complement is
refused for the four reasons of `Store.Refuses` and for no other.  If its destination takes the type
and the lengths of the result, it shows the operation on the elements that the sources showed before,
however destination and sources share their data; and the same comes out if the lanes are stored one
after another, each computed from what the sources show by then.
-/

namespace VectorMachine
set_option autoImplicit false

open Store (Edit Alters Grant Aligned aligning)

/-- Host code that leaves no containers that show overlapping parts of one buffer. -/
def Linker.Aligns (link : Linker) : Prop :=
  ∀ (w : World) (index : Int) (args : List CellId) (result : CellId),
    (∀ c ∈ result :: args, c < w.store.cells.size) → w.store.Formed → w.store.Aligned →
      (finalState (link index args result w)).store.Aligned

namespace Store

variable {s t : Store} {cs : List CellId} {d : CellId} {op : Lanewise} {ty : DataType}
  {lengths : List Int}

theorem liberal_aligning : aligning.Liberal :=
  ⟨fun ht => ht.1.1, trivial, trivial, id, trivial⟩

/-! ### Containers that show the same -/

section

variable (h : ∀ c, s.Alike c t c)
include h

theorem shown?_congr (c : CellId) (i : Nat) : s.shown? c i = t.shown? c i := by
  rw [shown?, (h c).window_eq, shown?]

theorem contribution?_congr (ty : DataType) (i : Nat) :
    s.contribution? ty i = t.contribution? ty i := by
  funext c
  rw [contribution?, (h c).rank_eq, shown?_congr h, contribution?]

theorem arrayLengths_congr (cs : List CellId) : s.arrayLengths cs = t.arrayLengths cs := by
  have hlengths : s.lengths = t.lengths := funext fun c => (h c).lengths_eq
  rw [arrayLengths, hlengths, arrayLengths]

theorem Refuses.congr (hr : s.Refuses op ty cs) : t.Refuses op ty cs := by
  rcases hr with hop | ⟨hc, hreads⟩ | ⟨ha, hb, hra, hrb, hne⟩ | ⟨hop, hb, hzero⟩
  · exact .undefined hop
  · exact .unreadable hc ((h _).type_eq ▸ hreads)
  · exact .lengths ha hb ((h _).rank_eq ▸ hra) ((h _).rank_eq ▸ hrb)
      (by rwa [← (h _).lengths_eq, ← (h _).lengths_eq])
  · exact .zeroDivisor hop hb ((shown?_congr h _ _).symm.trans hzero)

theorem Takes.congr (ht : s.Takes d ty lengths) : t.Takes d ty lengths := by
  unfold Takes at ht ⊢
  rwa [← (h d).type_eq, ← (h d).lengths_eq]

theorem Performs.congr {u : Store} (hp : s.Performs op ty d cs u) : t.Performs op ty d cs u := by
  refine ⟨hp.type_eq, hp.lengths_eq.trans (arrayLengths_congr h cs), ?_⟩
  rw [← arrayLengths_congr h, ← show s.contribution? ty = t.contribution? ty from
    funext (contribution?_congr h ty)]
  exact hp.lane

end

theorem refuses_congr (h : ∀ c, s.Alike c t c) : s.Refuses op ty cs ↔ t.Refuses op ty cs :=
  ⟨.congr h, .congr fun c => (h c).symm⟩

theorem takes_congr (h : ∀ c, s.Alike c t c) : s.Takes d ty lengths ↔ t.Takes d ty lengths :=
  ⟨.congr h, .congr fun c => (h c).symm⟩

end Store

namespace Machine

variable {m n : Machine} {z : Instruction} {d : CellId} {cs : List CellId} {op : Lanewise}

theorem aligned_grown (h : m.store.Aligned) (k : Nat) : (m.grown k).store.Aligned := by
  refine h.of_same fun c => .inr (.inr ?_)
  rw [grown, store, Store.cell_freshMany]
  exact ⟨rfl, rfl, rfl⟩

theorem opcode_of_lanewise? (hop : z.opcode.lanewise? = some op) :
    (∃ a, z.opcode = .arithmetic a ∧ op = .arithmetic a) ∨
      (∃ a, z.opcode = .compare a ∧ op = .compare a) ∨
      (z.opcode = .negate ∧ op = .negate) ∨ (z.opcode = .not ∧ op = .complement) := by
  revert hop
  cases z.opcode <;> simp [Opcode.lanewise?, eq_comm]

theorem change?_lanewise (hop : z.opcode.lanewise? = some op) (hcs : cs.length = op.sources) :
    change? z (d :: cs) = some fun s => s.receive d (s.lanewise op z.type cs) := by
  rcases opcode_of_lanewise? hop with ⟨a, hz, rfl⟩ | ⟨a, hz, rfl⟩ | ⟨hz, rfl⟩ | ⟨hz, rfl⟩
  · obtain ⟨x, y, rfl⟩ := List.length_eq_two.mp hcs
    simp only [change?, hz]
    rfl
  · obtain ⟨x, y, rfl⟩ := List.length_eq_two.mp hcs
    simp only [change?, hz]
    rfl
  · obtain ⟨x, rfl⟩ := List.length_eq_one_iff.mp hcs
    simp only [change?, hz]
    rfl
  · obtain ⟨x, rfl⟩ := List.length_eq_one_iff.mp hcs
    simp only [change?, hz]
    rfl

/-- An elementwise instruction has a destination and as many sources as its operation. -/
theorem operands_lanewise {k : Nat} {ops : List CellId} (hop : z.opcode.lanewise? = some op)
    (harity : z.opcode.arity.admits z.operands.length = true) (hops : FetchedAll m k z.operands ops) :
    ∃ d cs, ops = d :: cs ∧ cs.length = op.sources := by
  have hexact : z.opcode.arity = ⟨op.sources + 1, some (op.sources + 1)⟩ := by
    rcases opcode_of_lanewise? hop with ⟨a, hz, rfl⟩ | ⟨a, hz, rfl⟩ | ⟨hz, rfl⟩ | ⟨hz, rfl⟩ <;>
      rw [hz] <;> rfl
  rw [hexact] at harity
  simp only [Opcode.Arity.admits, Option.all_some, Bool.and_eq_true, decide_eq_true_eq] at harity
  have hlen := hops.length_eq
  cases ops with
  | nil =>
    simp only [List.length_nil] at hlen
    omega
  | cons d cs =>
    simp only [List.length_cons] at hlen
    exact ⟨d, cs, rfl, by omega⟩

/-- A step at an elementwise instruction delivers what the instruction computes. -/
theorem step_lanewise (env : Environment) {pc : Int} (hz : instructionAt? env.program pc = some z)
    (hop : z.opcode.lanewise? = some op) (hcs : cs.length = op.sources)
    (hf : fetchAll z.operands m = .ok (d :: cs) n) :
    step env pc m = match n.store.receive d (n.store.lanewise op z.type cs) with
      | .ok s => .ok (pc + 1) { n with world.store := s }
      | .error (.data c) => .error (dataStop pc z (d :: cs) c n) n
      | .error (.abort a) => .error (.abort a) n := by
  simp only [step, hz, hf, execute, change?_lanewise hop hcs, bind, EStateM.bind, onStore, store]
  cases n.world.store.receive d (n.world.store.lanewise op z.type cs) with
  | ok s => rfl
  | error e => cases e <;> rfl

end Machine

namespace Launch

variable {l : Launch} {m : Machine} {z : Instruction} {pc : Int} {accelerated : Bool}
  {stage : Stage} {op : Lanewise} {ops : List CellId}

/-- A session on well formed containers of its host, no two of which show overlapping parts of one
buffer, with host code that keeps them so. -/
structure Level (l : Launch) : Prop extends l.Orderly where
  aligned : l.containers.Aligned
  aligns : ∀ link, l.linker = some link → link.Aligns

theorem Level.hosts_aligning (hl : l.Level) : l.HostsGrant aligning := by
  intro link hlink index args result w hw
  exact ⟨hl.toOrderly.hosts link hlink index args result w hw,
    hl.aligns link hlink w index args result hw⟩

/-- A new memory adds single elements. -/
theorem Level.aligned_store (hl : l.Level) : l.store.Aligned := by
  have ha := Memory.allocated hl.valid.sound hl.valid.allocated
  obtain ⟨vs, hvs, hholds⟩ := ha.values
  have hlen : l.program.layout.immediates.length = vs.length := hvs.length_eq
  refine hl.aligned.of_same fun c => ?_
  by_cases hold : l.containers.cells.size ≤ c
  · by_cases hvoid : c < l.containers.cells.size + l.memory.locals.size + l.memory.registers.size
    · have hcell : l.store.cell c = {} := ha.void c hold hvoid
      rw [hcell]
      exact .inl rfl
    · by_cases hlt : c < l.store.cells.size
      · obtain ⟨i, rfl⟩ := Nat.exists_eq_add_of_le (Nat.not_lt.mp hvoid)
        rw [ha.size_eq, Nat.add_lt_add_iff_left, hlen] at hlt
        obtain ⟨b, hcell, -⟩ := hholds i _ (List.getElem?_eq_getElem hlt)
        rw [hcell]
        exact .inr (.inl (Int.le_refl 1))
      · rw [Store.cell_of_le (Nat.not_lt.mp hlt)]
        exact .inl rfl
  · rw [ha.adds.touches.cell_eq hold]
    exact .inr (.inr ⟨rfl, rfl, rfl⟩)

theorem Level.aligned_of_reached (hl : l.Level) (h : Reached l accelerated stage) :
    stage.machine.store.Aligned := by
  have hboth : stage.machine.store.Formed ∧ stage.machine.store.Aligned :=
    keeps_of_reached (I := fun s => s.Formed ∧ s.Aligned) Store.liberal_aligning hl.hosts_aligning
      hl.valid (fun he hs => ⟨Edit.formed he.of_aligning hs.1, he.aligned hs.1 hs.2⟩)
      (fun cs hs => ⟨hs.1.unlinkAll cs, hs.2.unlinkAll cs⟩)
      ⟨hl.toOrderly.formed, hl.aligned_store⟩ h
  exact hboth.2

/-- An elementwise instruction at any stage raises a data error exactly if its operation is not
defined on its type, a source does not read as that type, two arrays differ in their lengths, or an
int divisor has a zero.  Otherwise it succeeds if its destination takes the result, and aborts if the
allocation that this needs is impossible.  With success the destination has the type of the result and
the lengths of the arrays, and shows at each position the operation on the elements of the sources
before; and the same comes out if the lanes are stored one by one in place. -/
theorem elementwise_of_step (hl : l.Level) (h : Reached l accelerated stage)
    (hz : Machine.instructionAt? l.program pc = some z) (hop : z.opcode.lanewise? = some op)
    (hf : Machine.fetchAll z.operands stage.machine = .ok ops m) :
    ∃ d cs, ops = d :: cs ∧ cs.length = op.sources ∧
      ((∃ e m', Machine.step l.environment pc stage.machine = .error (.data e) m') ↔
        stage.machine.store.Refuses op z.type cs) ∧
      (¬ stage.machine.store.Refuses op z.type cs →
        stage.machine.store.Takes d (op.resultType z.type)
            (stage.machine.store.arrayLengths cs) →
          ∃ m', Machine.step l.environment pc stage.machine = .ok (pc + 1) m' ∧
            stage.machine.store.Performs op z.type d cs m'.store ∧
            m.store.lanewiseInPlace op z.type d cs = .ok m'.store) ∧
      (¬ stage.machine.store.Refuses op z.type cs →
        ¬ stage.machine.store.Takes d (op.resultType z.type)
            (stage.machine.store.arrayLengths cs) →
          ∃ a m', Machine.step l.environment pc stage.machine = .error (.abort a) m' ∧
            Store.Unallocatable a) := by
  have hp := (preserves_of_reached hl.valid.sparing h).1
  have hadm := hl.valid.admissible hz
  obtain ⟨k, rfl, hops⟩ := Machine.fetchAll_ok hp.guarded.addressable hf
  have hfetching := hl.toOrderly.fetching h hz hops
  obtain ⟨d, cs, rfl, hcs⟩ := Machine.operands_lanewise hop hadm.arity hops
  have haligned := Machine.aligned_grown (hl.aligned_of_reached h) k
  have halike := Machine.alike_grown (m := stage.machine) hfetching.formed.sound k
  have hd : d < (stage.machine.grown k).store.cells.size := hops.lt d (by simp)
  have hstep := Machine.step_lanewise l.environment hz hop hcs hf
  have hfinal := hp.moves (hp.moves_step hl.valid.sparing pc)
  refine ⟨d, cs, rfl, hcs, ?_⟩
  -- fetching only adds cells, so what holds after it held before
  rw [← Store.refuses_congr halike, ← Store.arrayLengths_congr halike,
    ← Store.takes_congr halike]
  rcases hfetching.formed_grown.receive_lanewise z.type hd hcs with
    ⟨hrefuses, cause, hr⟩ | ⟨hno, ht, s, hr, hperforms⟩ | ⟨hno, ht, a, hr, hun⟩
  · simp only [hr] at hstep
    rw [hstep] at hfinal
    -- the note is read in the state that the instruction left
    obtain ⟨text, htext⟩ :=
      Preserves.exists_note (m := stage.machine.grown k) hl.valid hfinal hadm.notes
    simp only [Machine.dataStop, htext] at hstep
    rw [hstep]
    refine ⟨iff_of_true ⟨_, _, rfl⟩ hrefuses, ?_, ?_⟩
    · intro hno
      exact absurd hrefuses hno
    · intro hno
      exact absurd hrefuses hno
  · simp only [hr] at hstep
    have hinPlace := hfetching.formed_grown.lanewiseInPlace_eq haligned hd hcs hno
    rw [hr] at hinPlace
    rw [hstep]
    refine ⟨iff_of_false ?_ hno, fun _ _ => ⟨_, rfl, hperforms.congr halike, hinPlace⟩, ?_⟩
    · rintro ⟨e, m', h⟩
      cases h
    · intro _ hnot
      exact absurd ht hnot
  · simp only [hr] at hstep
    rw [hstep]
    refine ⟨iff_of_false ?_ hno, ?_, fun _ _ => ⟨a, _, rfl, hun⟩⟩
    · rintro ⟨e, m', h⟩
      cases h
    · intro _ htakes
      exact absurd htakes ht

/-- Adds to an array one of its own elements, of which the other source is a view. -/
def addsView : Program where
  code := #[
    { opcode := .alloc, types := [.int], operands := [⟨.locals, 0⟩, ⟨.constants, 0⟩] },
    { opcode := .referElement, types := [.int],
      operands := [⟨.locals, 1⟩, ⟨.locals, 0⟩, ⟨.constants, 1⟩] },
    { opcode := .move, types := [.int], operands := [⟨.locals, 1⟩, ⟨.constants, 2⟩] },
    { opcode := .arithmetic .add, types := [.int],
      operands := [⟨.locals, 0⟩, ⟨.locals, 0⟩, ⟨.locals, 1⟩] },
    { opcode := .finish, types := [.void] }]
  constants := ⟨[("~int:5", 2), ("~int:0", 1), ("~int:2", 0)]⟩
  extent := { locals := 1, constants := 2 }

def addsViewText : String :=
  "ALLOC int L0 ~int:2; REFELM int L1 L0 ~int:0; MOV int L1 ~int:5; ADD int L0 L0 L1; END void;"

/-- The state before the addition of `addsView`. -/
def beforeAddition : Machine :=
  let env := (Launch.on addsView none {} #[]).environment
  finalState (Machine.step env 2 (finalState (Machine.step env 1
    (finalState (Machine.step env 0 (Launch.on addsView none {} #[]).machine)))))

/-- The element is 5 for all lanes, although the first lane is stored where the view shows it. -/
theorem elementwise_of_step_addsView :
    let l := Launch.on addsView none {} #[]
    l.Level ∧ Reached l false (.interpreting beforeAddition) ∧
      ∃ m', Machine.step l.environment 3 beforeAddition = .ok 4 m' ∧
        beforeAddition.store.Performs (.arithmetic .add) .int 0 [0, 1] m'.store ∧
        (m'.store.readInts 0).toOption = some #[10, 5] := by
  intro l
  have hasm : (Assembler.assemble addsViewText {}).toOption = some addsView := by decide +kernel
  have hvalid : l.Valid := valid_on hasm Store.sound_empty (by simp) (by decide +kernel) nofun
  have hl : l.Level :=
    { valid := hvalid
      sized := fun c => by simpa [l, on, Store.cell] using Store.sized_empty
      forms := by simp [l, on]
      aligned := Store.aligned_empty
      aligns := by simp [l, on] }
  have hreached : Reached l false (.interpreting beforeAddition) :=
    (((Reached.allocated.interpret).step 0).step 1).step 2
  have hz : Machine.instructionAt? l.program 3 = some
      { opcode := .arithmetic .add, types := [.int],
        operands := [⟨.locals, 0⟩, ⟨.locals, 0⟩, ⟨.locals, 1⟩] } := rfl
  have hfetch : (success? (Machine.fetchAll [⟨.locals, 0⟩, ⟨.locals, 0⟩, ⟨.locals, 1⟩]
      beforeAddition)).any (fun x => x.1 = [0, 0, 1]) = true := by decide +kernel
  have hstep : (success? (Machine.step l.environment 3 beforeAddition)).any (fun x =>
      x.1 = 4 ∧ (x.2.store.readInts 0).toOption = some #[10, 5]) = true := by decide +kernel
  obtain ⟨ops, m, hf, hops⟩ := exists_ok hfetch
  obtain rfl : ops = [0, 0, 1] := of_decide_eq_true hops
  obtain ⟨next, m', hs, hnext⟩ := exists_ok hstep
  obtain ⟨rfl, hints⟩ : next = 4 ∧ (m'.store.readInts 0).toOption = some #[10, 5] :=
    of_decide_eq_true hnext
  refine ⟨hl, hreached, m', hs, ?_, hints⟩
  obtain ⟨d, cs, hcs, -, hdata, hok, habort⟩ := elementwise_of_step hl hreached hz rfl hf
  cases hcs
  rw [Stage.machine, hs] at hdata hok habort
  have hno : ¬ beforeAddition.store.Refuses (.arithmetic .add) .int [0, 1] := by
    intro hrefuses
    obtain ⟨e, m', h⟩ := hdata.mpr hrefuses
    cases h
  by_cases ht : beforeAddition.store.Takes 0 .int (beforeAddition.store.arrayLengths [0, 1])
  · obtain ⟨m'', h, hperforms, -⟩ := hok hno ht
    cases h
    exact hperforms
  · obtain ⟨a, m'', h, -⟩ := habort hno ht
    cases h

/-- Adds a global to itself. -/
def addsGlobal : Program where
  code := #[
    { opcode := .arithmetic .add, types := [.int],
      operands := [⟨.locals, 0⟩, ⟨.globals, 0⟩, ⟨.globals, 0⟩] },
    { opcode := .finish, types := [.void] }]
  extent := { globals := 0, locals := 0 }

/-- A container of the host with six elements, as its lengths -2 and -3 say. -/
def negativeLengths : Store :=
  ({} : Store).fresh.2.renew 0 (.ints #[1, 2, 3, 4, 5, 6]) [-2, -3]

/-- Nothing is wrong with the data of the instruction, and still it does not succeed: its destination
cannot be given the lengths of its sources. -/
theorem step_aborts_negativeLengths :
    let l := Launch.on addsGlobal none negativeLengths #[0]
    l.Level ∧ Reached l false (.idle l.machine) ∧
      Machine.instructionAt? l.program 0 = some
        { opcode := .arithmetic .add, types := [.int],
          operands := [⟨.locals, 0⟩, ⟨.globals, 0⟩, ⟨.globals, 0⟩] } ∧
      l.memory.cell? ⟨.globals, 0⟩ = some 0 ∧
      ¬ l.machine.store.Refuses (.arithmetic .add) .int [0, 0] ∧
      ∃ m', Machine.step l.environment 0 l.machine =
        .error (.abort (.fault { operation := "alloc", detail := "negative length -2" })) m' := by
  intro l
  have hasm : (Assembler.assemble "ADD int L0 G0 G0; END void;" {}).toOption = some addsGlobal := by
    decide +kernel
  have hfresh : ({} : Store).fresh.2.Formed :=
    Edit.formed .fresh ⟨Store.sound_empty, fun c => by simpa [Store.cell] using Store.sized_empty⟩
  have hformed : negativeLengths.Formed :=
    Edit.formed (.renew trivial (by decide) (by decide)) hfresh
  have haligned : negativeLengths.Aligned := by
    refine Aligned.renew ?_ hfresh.sound _
    exact Store.aligned_empty.of_same fun c => .inr (.inr (by simp))
  have hvalid : l.Valid :=
    valid_on hasm hformed.sound (by decide) (by decide +kernel) (by simp)
  have hl : l.Level :=
    { valid := hvalid
      sized := hformed.sized
      forms := by simp [l, on]
      aligned := haligned
      aligns := by simp [l, on] }
  refine ⟨hl, .allocated, rfl, by decide +kernel, ?_, ?_⟩
  · rintro (h | ⟨hc, h⟩ | ⟨ha, hb, -, -, h⟩ | ⟨h, -, -⟩)
    · cases h
    · obtain rfl : _ = 0 := by simpa using hc
      revert h
      decide +kernel
    · obtain rfl : _ = 0 := by simpa using ha
      obtain rfl : _ = 0 := by simpa using hb
      exact h rfl
    · cases h
  · have hstep : (failure? (Machine.step l.environment 0 l.machine)).any (fun x =>
        x.1 = .abort (.fault { operation := "alloc", detail := "negative length -2" })) = true := by
      decide +kernel
    obtain ⟨stop, m', hs, hstop⟩ := exists_error hstep
    obtain rfl := of_decide_eq_true hstop
    exact ⟨m', hs⟩

end Launch

end VectorMachine
