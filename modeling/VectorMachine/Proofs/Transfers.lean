import VectorMachine.Proofs.Elementwise
import VectorMachine.Proofs.Machine.Refusals
import VectorMachine.Proofs.Store.Transfers

/-!
# Transfer instructions

At every stage of a session an assignment, from an operand or from the stack, a cast, a fill and the
assignment of an element leave the destination with the converted elements that the source showed
before, however both share their data, and let it share a buffer with the source only if it did.
They are refused for the reasons of `Transfer.Refuses` and for no other, and what is not refused fails
only if the destination cannot be given the type and the lengths of the result.
-/

namespace VectorMachine
set_option autoImplicit false

open Store (Edit)

namespace Store

variable {s t u : Store} {ty : DataType} {d a : CellId} {tr : Transfer}

/-! ### Containers that show the same -/

section

variable (h : ∀ c, s.Alike c u c)
include h

theorem type_congr : s.type = u.type := funext fun c => (h c).type_eq

theorem lengths_congr : s.lengths = u.lengths := funext fun c => (h c).lengths_eq

theorem subscript?_congr : s.subscript? = u.subscript? := funext fun c => (h c).subscript?_eq

theorem resultType_congr : tr.resultType s ty d a = tr.resultType u ty d a := by
  cases tr <;> simp only [Transfer.resultType, type_congr h]

theorem isScalar_congr : s.isScalar = u.isScalar :=
  funext fun c => by rw [isScalar, (h c).isVoid_eq, (h c).rank_eq, isScalar]

theorem resultLengths_congr : tr.resultLengths s d a = tr.resultLengths u d a := by
  cases tr <;> simp only [Transfer.resultLengths, lengths_congr h, isScalar_congr h]

theorem numbered_congr : tr.Numbered s a ↔ tr.Numbered u a := by
  cases tr <;> simp only [Transfer.Numbered, type_congr h, lengths_congr h]

theorem lane?_congr (i : Nat) : tr.lane? s ty d a i = tr.lane? u ty d a i := by
  cases tr <;> simp only [Transfer.lane?, type_congr h, lengths_congr h, shown?_congr h,
    subscript?_congr h]

theorem offense?_congr : s.offense? = u.offense? :=
  funext fun n => funext fun c => by simp only [offense?, subscript?_congr h]

theorem refuses_transfer_congr : tr.Refuses s ty d a ↔ tr.Refuses u ty d a := by
  cases tr <;> simp only [Transfer.Refuses, type_congr h, lengths_congr h, isScalar_congr h,
    Misspelt,
    shown?_congr h, (h d).rank_eq, (h a).rank_eq, (h a).size_eq, firstOffense?, offense?_congr h]

theorem Becomes.congr (hb : s.Becomes ty d a tr t) (hshares : s.Shares d a → u.Shares d a) :
    u.Becomes ty d a tr t := by
  refine ⟨hb.type_eq.trans (resultType_congr h), hb.lengths_eq.trans (resultLengths_congr h),
    fun hnum i hi => ?_, fun hs => hshares (hb.shares hs)⟩
  rw [← resultLengths_congr h] at hi
  rw [← lane?_congr h]
  exact hb.lane ((numbered_congr h).mpr hnum) i hi

end

end Store

/-- The instructions that take elements of a source. -/
def Opcode.transfers : Opcode → Bool
  | .move | .movePop | .cast | .fill | .moveElement => true
  | _ => false

namespace Machine

variable {m n : Machine} {z : Instruction} {d a : CellId} {ops : List CellId} {tr : Transfer}

/-- The destination, the source and the kind of a transfer. -/
def transfer? (m : Machine) (z : Instruction) (ops : List CellId) :
    Option (CellId × CellId × Transfer) :=
  match z.opcode, ops with
  | .move, d :: a :: _ => some (d, a, .move)
  | .movePop, d :: _ => m.memory.stack.back?.map (d, ·, .move)
  | .cast, d :: a :: _ => some (d, a, .cast)
  | .fill, d :: a :: _ => some (d, a, .fill)
  | .moveElement, d :: a :: indices => some (d, a, .element indices)
  | _, _ => none

/-- A step at a transfer delivers what the transfer computes. -/
theorem step_transfer (env : Environment) {pc : Int} (hz : instructionAt? env.program pc = some z)
    (hf : fetchAll z.operands m = .ok ops n) (ht : n.transfer? z ops = some (d, a, tr)) :
    d ∈ ops ∧ ∃ n' : Machine,
      step env pc m = conclude pc z ops n' (n.store.receive d (tr.result n.store z.type d a)) := by
  unfold transfer? at ht
  split at ht
  all_goals rename_i hop
  case h_2 d' cs =>
    obtain ⟨top, htop, heq⟩ := Option.map_eq_some_iff.mp ht
    cases heq
    refine ⟨by simp, { n with memory.stack := n.memory.stack.pop }, step_eq_conclude hz hf ?_⟩
    simp only [execute, change?, control, hop, bind, EStateM.bind, pop, Memory.pop, htop,
      onDestination]
    exact onStore_eq
  case h_6 => cases ht
  all_goals
    cases ht
    refine ⟨by simp, n, step_eq_conclude hz hf ?_⟩
    simp only [execute, change?, hop]
    exact onStore_eq

/-- Without a source a transfer aborts. -/
theorem step_transfer_none (env : Environment) {pc : Int}
    (hz : instructionAt? env.program pc = some z) (hop : z.opcode.transfers = true)
    (hf : fetchAll z.operands m = .ok ops n) (ht : n.transfer? z ops = none) :
    ∃ e n', step env pc m = .error (.abort e) n' := by
  unfold transfer? at ht
  cases hcode : z.opcode <;> simp only [hcode, Opcode.transfers, Bool.false_eq_true] at hop ht
  case movePop =>
    cases htop : n.memory.stack.back? with
    | none =>
      have hempty : execute env pc z ops n = .error (.abort (Memory.underflow "pop")) n := by
        simp only [execute, change?, control, hcode, bind, EStateM.bind, pop, Memory.pop, htop]
      exact ⟨_, _, step_eq_conclude (r := .error (.abort _)) hz hf hempty⟩
    | some top =>
      cases ops with
      | cons d ops => simp [htop] at ht
      | nil =>
        have hlost : execute env pc z [] n =
            .error (.abort .breakdown) { n with memory.stack := n.memory.stack.pop } := by
          simp only [execute, change?, control, hcode, bind, EStateM.bind, pop, Memory.pop, htop]
          rfl
        exact ⟨_, _, step_eq_conclude (r := .error (.abort _)) hz hf hlost⟩
  all_goals
    have hlost : execute env pc z ops n = .error (.abort .breakdown) n := by
      rcases ops with _ | ⟨d, _ | ⟨a, cs⟩⟩
      · simp only [execute, change?, control, hcode]
        rfl
      · simp only [execute, change?, control, hcode]
        rfl
      · simp at ht
    exact ⟨_, _, step_eq_conclude (r := .error (.abort _)) hz hf hlost⟩

end Machine

namespace Launch

variable {l : Launch} {m n : Machine} {z : Instruction} {pc : Int} {accelerated : Bool}
  {stage : Stage} {ops : List CellId}

/-- The error of an instruction that refuses its data can be told. -/
theorem Preserves.exists_dataError (hl : l.Valid) (hp : l.Preserves m)
    (hz : Machine.instructionAt? l.program pc = some z) {c : DataCause}
    (hstep : Machine.step l.environment pc m = Machine.conclude pc z ops n (.error (.data c))) :
    ∃ e, Machine.step l.environment pc m = .error (.data e) n := by
  have hfinal := hp.moves (hp.moves_step hl.sparing pc)
  rw [hstep] at hfinal
  obtain ⟨text, htext⟩ := Preserves.exists_note (m := n) hl hfinal (hl.admissible hz).notes
  rw [hstep]
  simp only [Machine.conclude, Machine.dataStop, htext]
  exact ⟨_, rfl⟩

theorem Valid.exists_dataError (hl : l.Valid) (h : Reached l accelerated stage)
    (hz : Machine.instructionAt? l.program pc = some z) {c : DataCause}
    (hstep : Machine.step l.environment pc stage.machine =
      Machine.conclude pc z ops n (.error (.data c))) :
    ∃ e, Machine.step l.environment pc stage.machine = .error (.data e) n :=
  (preserves_of_reached hl.sparing h).1.exists_dataError hl hz hstep

/-- At every stage a transfer that succeeds leaves its destination with the type, the lengths and the
converted elements that it takes of the source as it was before, and sharing a buffer with the source
only if it did.  It raises a data error exactly for the reasons of `Transfer.Refuses`; otherwise it
succeeds if the destination takes the type and the lengths of the result, and aborts if the
allocation that this needs is impossible. -/
theorem transfer_of_step (hl : l.Orderly) (h : Reached l accelerated stage)
    (hz : Machine.instructionAt? l.program pc = some z) (hop : z.opcode.transfers = true)
    (hf : Machine.fetchAll z.operands stage.machine = .ok ops m) :
    (∀ next m', Machine.step l.environment pc stage.machine = .ok next m' → next = pc + 1 ∧
      ∃ d a tr, stage.machine.transfer? z ops = some (d, a, tr) ∧
        ¬ tr.Refuses stage.machine.store z.type d a ∧
        stage.machine.store.Becomes z.type d a tr m'.store) ∧
    ∀ d a tr, stage.machine.transfer? z ops = some (d, a, tr) →
      tr.Numbered stage.machine.store a →
        ((∃ e m', Machine.step l.environment pc stage.machine = .error (.data e) m') ↔
          tr.Refuses stage.machine.store z.type d a) ∧
        (¬ tr.Refuses stage.machine.store z.type d a →
          stage.machine.store.Takes d (tr.resultType stage.machine.store z.type d a)
              (tr.resultLengths stage.machine.store d a) →
            ∃ m', Machine.step l.environment pc stage.machine = .ok (pc + 1) m') ∧
        (¬ tr.Refuses stage.machine.store z.type d a →
          ¬ stage.machine.store.Takes d (tr.resultType stage.machine.store z.type d a)
              (tr.resultLengths stage.machine.store d a) →
            ∃ e m', Machine.step l.environment pc stage.machine = .error (.abort e) m' ∧
              Store.Unallocatable e) := by
  have hp := (preserves_of_reached hl.valid.sparing h).1
  obtain ⟨k, rfl, hops⟩ := Machine.fetchAll_ok hp.guarded.addressable hf
  have hfetching := hl.fetching h hz hops
  cases ht : stage.machine.transfer? z ops with
  | none =>
    obtain ⟨e, n, hstep⟩ := Machine.step_transfer_none l.environment hz hop hf ht
    rw [hstep]
    exact ⟨fun _ _ h => (by cases h), fun _ _ _ h => (by cases h)⟩
  | some found =>
    obtain ⟨d, a, tr⟩ := found
    obtain ⟨hd, n, hstep⟩ := Machine.step_transfer l.environment hz hf ht
    have halike := Machine.alike_grown (m := stage.machine) hfetching.formed.sound k
    have hshares : ∀ c e, (stage.machine.grown k).store.Shares c e →
        stage.machine.store.Shares c e := fun c e hs => by
      simpa only [Store.Shares, Machine.rootCell_grown hfetching.formed.sound] using hs
    have houtcome :=
      hfetching.formed_grown.receive_transfer (a := a) z.type (hops.lt d hd) tr
    -- fetching only adds cells, so what holds after it held before
    rw [Store.refuses_transfer_congr halike, Store.resultType_congr halike,
      Store.resultLengths_congr halike, Store.takes_congr halike, Store.numbered_congr halike]
      at houtcome
    rcases houtcome with ⟨hrefuses, cause, hr⟩ | ⟨hno, htakes, t, hr, hbecomes⟩ |
      ⟨hno, htakes, e, hr, hun⟩ | ⟨hnum, e, hr⟩
    · rw [hr] at hstep
      obtain ⟨e, he⟩ := hl.valid.exists_dataError h hz hstep
      rw [he]
      refine ⟨fun _ _ h => (by cases h), ?_⟩
      rintro _ _ _ ⟨⟩ -
      exact ⟨iff_of_true ⟨e, n, rfl⟩ hrefuses, fun hno => absurd hrefuses hno,
        fun hno => absurd hrefuses hno⟩
    · rw [hr] at hstep
      rw [hstep]
      refine ⟨?_, ?_⟩
      · rintro _ _ ⟨⟩
        exact ⟨rfl, d, a, tr, rfl, hno, hbecomes.congr halike (hshares d a)⟩
      · rintro _ _ _ ⟨⟩ -
        refine ⟨iff_of_false ?_ hno, fun _ _ => ⟨_, rfl⟩, fun _ hnot => absurd htakes hnot⟩
        rintro ⟨e, m', ⟨⟩⟩
    · rw [hr] at hstep
      rw [hstep]
      refine ⟨fun _ _ h => (by cases h), ?_⟩
      rintro _ _ _ ⟨⟩ -
      refine ⟨iff_of_false ?_ hno, fun _ hyes => absurd hyes htakes, fun _ _ => ⟨e, n, rfl, hun⟩⟩
      rintro ⟨e, m', ⟨⟩⟩
    · rw [hr] at hstep
      rw [hstep]
      refine ⟨fun _ _ h => (by cases h), ?_⟩
      rintro _ _ _ ⟨⟩ hyes
      exact absurd hyes hnum

/-- Casts an array to text in place, while another local shows its first element. -/
def castsViewed : Program where
  code := #[
    { opcode := .alloc, types := [.int], operands := [⟨.locals, 0⟩, ⟨.constants, 0⟩] },
    { opcode := .referElement, types := [.int],
      operands := [⟨.locals, 1⟩, ⟨.locals, 0⟩, ⟨.constants, 1⟩] },
    { opcode := .move, types := [.int], operands := [⟨.locals, 1⟩, ⟨.constants, 2⟩] },
    { opcode := .cast, types := [.string, .int], operands := [⟨.locals, 0⟩, ⟨.locals, 0⟩] },
    { opcode := .finish, types := [.void] }]
  constants := ⟨[("~int:5", 2), ("~int:0", 1), ("~int:2", 0)]⟩
  extent := { locals := 1, constants := 2 }

def castsViewedText : String :=
  "ALLOC int L0 ~int:2; REFELM int L1 L0 ~int:0; MOV int L1 ~int:5; " ++
    "CAST string:int L0 L0; END void;"

/-- The state before the cast of `castsViewed`. -/
def beforeCast : Machine :=
  let env := (Launch.on castsViewed none {} #[]).environment
  finalState (Machine.step env 2 (finalState (Machine.step env 1
    (finalState (Machine.step env 0 (Launch.on castsViewed none {} #[]).machine)))))

/-- The source is the destination itself, which gets a new buffer. -/
theorem transfer_of_step_castsViewed :
    let l := Launch.on castsViewed none {} #[]
    l.Orderly ∧ Reached l false (.interpreting beforeCast) ∧
      ∃ m', Machine.step l.environment 3 beforeCast = .ok 4 m' ∧
        beforeCast.store.Becomes .string 0 0 .cast m'.store ∧
        (m'.store.readStrings 0).toOption = some #["5", "0"] := by
  intro l
  have hasm : (Assembler.assemble castsViewedText {}).toOption = some castsViewed := by
    decide +kernel
  have hvalid : l.Valid := valid_on hasm Store.sound_empty (by simp) (by decide +kernel) nofun
  have hl : l.Orderly :=
    ⟨hvalid, fun c => by simpa [l, on, Store.cell] using Store.sized_empty, by simp [l, on]⟩
  have hreached : Reached l false (.interpreting beforeCast) :=
    (((Reached.allocated.interpret).step 0).step 1).step 2
  have hz : Machine.instructionAt? l.program 3 = some
      { opcode := .cast, types := [.string, .int], operands := [⟨.locals, 0⟩, ⟨.locals, 0⟩] } := rfl
  have hfetch : (success? (Machine.fetchAll [⟨.locals, 0⟩, ⟨.locals, 0⟩] beforeCast)).any
      (fun x => x.1 = [0, 0]) = true := by decide +kernel
  have hstep : (success? (Machine.step l.environment 3 beforeCast)).any (fun x =>
      x.1 = 4 ∧ (x.2.store.readStrings 0).toOption = some #["5", "0"]) = true := by
    decide +kernel
  obtain ⟨ops, m, hf, hops⟩ := exists_ok hfetch
  obtain rfl : ops = [0, 0] := of_decide_eq_true hops
  obtain ⟨next, m', hs, hnext⟩ := exists_ok hstep
  obtain ⟨rfl, htexts⟩ : next = 4 ∧ (m'.store.readStrings 0).toOption = some #["5", "0"] :=
    of_decide_eq_true hnext
  obtain ⟨-, d, a, tr, ht, -, hbecomes⟩ := (transfer_of_step hl hreached hz rfl hf).1 4 m' hs
  cases ht
  exact ⟨hl, hreached, m', hs, hbecomes, htexts⟩

def copiesGlobal : Program where
  code := #[
    { opcode := .move, types := [.int], operands := [⟨.locals, 0⟩, ⟨.globals, 0⟩] },
    { opcode := .finish, types := [.void] }]
  extent := { globals := 0, locals := 0 }

/-- The source is not void, it is read as its own type, and the destination is no scalar; still the
assignment does not succeed, since its destination cannot be given the lengths -2 and -3. -/
theorem assignment_aborts_negativeLengths :
    let l := Launch.on copiesGlobal none negativeLengths #[0]
    l.Orderly ∧ Reached l false (.idle l.machine) ∧
      Machine.instructionAt? l.program 0 = some
        { opcode := .move, types := [.int], operands := [⟨.locals, 0⟩, ⟨.globals, 0⟩] } ∧
      l.memory.cell? ⟨.locals, 0⟩ = some 1 ∧ l.memory.cell? ⟨.globals, 0⟩ = some 0 ∧
      ¬ Transfer.move.Refuses l.machine.store .int 1 0 ∧
      ∃ m', Machine.step l.environment 0 l.machine =
        .error (.abort (.fault { operation := "alloc", detail := "negative length -2" })) m' := by
  intro l
  have hasm : (Assembler.assemble "MOV int L0 G0; END void;" {}).toOption = some copiesGlobal := by
    decide +kernel
  have hempty : ({} : Store).Formed :=
    ⟨Store.sound_empty, fun c => by simpa [Store.cell] using Store.sized_empty⟩
  have hformed : negativeLengths.Formed :=
    Edit.formed (.renew trivial (by decide) (by decide)) (Edit.formed .fresh hempty)
  have hvalid : l.Valid :=
    valid_on hasm hformed.sound (by decide) (by decide +kernel) (by simp)
  have hl : l.Orderly := ⟨hvalid, hformed.sized, by simp [l, on]⟩
  refine ⟨hl, .allocated, rfl, by decide +kernel, by decide +kernel, ?_, ?_⟩
  · have hvoid : l.machine.store.type 0 ≠ .void := by decide +kernel
    have hreads : (l.machine.store.type 0).readsAs
        (DataType.int.orElse (l.machine.store.type 0)) = true := by decide +kernel
    have hscalar : l.machine.store.isScalar 1 = false := by decide +kernel
    simp [Transfer.Refuses, hvoid, hreads, hscalar]
  · have hstep : (failure? (Machine.step l.environment 0 l.machine)).any (fun x =>
        x.1 = .abort (.fault { operation := "alloc", detail := "negative length -2" })) = true := by
      decide +kernel
    obtain ⟨stop, m', hs, hstop⟩ := exists_error hstep
    obtain rfl := of_decide_eq_true hstop
    exact ⟨m', hs⟩

end Launch

end VectorMachine
