import VectorMachine.Proofs.Landings
import VectorMachine.Proofs.Lockstep
import VectorMachine.Proofs.Store.Connectives
import VectorMachine.Proofs.Transfers

/-!
# Short circuits

Both engines decide by the same condition: the left operand of a connective decides if a jump on it
branches.  So a connective may be jumped over wherever its left operand, which is also its destination,
decides.
-/

namespace VectorMachine
set_option autoImplicit false

open Accelerator (Plan State)
open Assembler (Targets)

namespace Store

variable {s t u : Store} {a b d : CellId} {op : Connective} {lengths : List Int}

/-! ### Containers that show the same -/

section

variable (h : ∀ c, s.Alike c t c)
include h

theorem Decided.of_alike (hd : s.Decided op a) : t.Decided op a := hd.congr (h a).mirrors

theorem Connectable.of_alike (hc : s.Connectable a b) : t.Connectable a b := by
  refine ⟨(h a).type_eq ▸ hc.left_eq, (h b).type_eq ▸ hc.right_eq, fun ha hb => ?_⟩
  rw [← (h a).lengths_eq, ← (h b).lengths_eq]
  exact hc.lengths_eq ((h a).rank_eq ▸ ha) ((h b).rank_eq ▸ hb)

theorem Joinable.of_alike (hj : s.Joinable op a b lengths) : t.Joinable op a b lengths := by
  rcases hj with ⟨hd, hl⟩ | ⟨hd, hc, hl⟩
  · exact .inl ⟨hd.of_alike h, hl.trans (h a).lengths_eq⟩
  · exact .inr ⟨fun hd' => hd (hd'.of_alike fun c => (h c).symm), hc.of_alike h,
      hl.trans (arrayLengths_congr h _)⟩

theorem Connects.of_alike (hc : s.Connects op a b u d) : t.Connects op a b u d := by
  refine ⟨hc.type_eq, hc.lengths_eq.trans (arrayLengths_congr h _), ?_, ?_⟩
  · rw [← arrayLengths_congr h, ← show s.contribution? .bool = t.contribution? .bool from
      funext (contribution?_congr h .bool)]
    exact hc.lane
  · rw [← arrayLengths_congr h]
    exact hc.rest

end

end Store

namespace Machine

variable {m n : Machine} {z : Instruction} {op : Connective} {d a b c : CellId}
  {pc next : Int}

/-- A step at a connective delivers what the connective makes of its operands. -/
theorem step_connect (env : Environment) (hz : instructionAt? env.program pc = some z)
    (hop : z.opcode = .connect op) (hf : fetchAll z.operands m = .ok [d, a, b] n) :
    step env pc m = conclude pc z [d, a, b] n (n.store.connect op z.type d a b) := by
  refine step_eq_conclude hz hf ?_
  simp only [execute, change?, hop]
  exact onStore_eq

theorem operands_connect {k : Nat} {ops : List CellId} (hop : z.opcode = .connect op)
    (harity : z.opcode.arity.admits z.operands.length = true) (hops : FetchedAll m k z.operands ops) :
    ∃ d a b, ops = [d, a, b] := by
  rw [hop, show (Opcode.connect op).arity = ⟨3, some 3⟩ from rfl, hops.length_eq] at harity
  simp only [Opcode.Arity.admits, Option.all_some, Bool.and_eq_true, decide_eq_true_eq] at harity
  exact List.length_eq_three.mp (by omega)

theorem fetched_of_step (env : Environment) (hz : instructionAt? env.program pc = some z)
    (h : step env pc m = .ok next n) : ∃ cs n', fetchAll z.operands m = .ok cs n' := by
  obtain ⟨k, cs, hf, -, -⟩ := (step_eq_ok_iff hz).mp h
  exact ⟨cs, _, hf⟩

/-- Operands that stand for containers are fetched as these, and nothing is added. -/
theorem fetchAll_of_cells {ys : List Operand} {cs : List CellId}
    (h : List.Forall₂ (fun y c => m.memory.cell? y = some c) ys cs) :
    fetchAll ys m = .ok cs m := by
  induction h with
  | nil => rfl
  | cons hc _ ih =>
    simp only [fetchAll, bind, EStateM.bind, fetch_eq_of_cell hc, ih]
    rfl

theorem state_of_jump (env : Environment) {on : Bool} {y u w : Operand}
    (hz : instructionAt? env.program pc = some z) (hop : z.opcode = .jump on) (hops : z.operands = [y, u, w])
    (h : step env pc m = .ok next n) : ∃ k, n = m.grown k := by
  obtain ⟨k, cs, -, hcs, he⟩ := (step_eq_ok_iff hz).mp h
  rw [hops] at hcs
  rcases hcs with _ | ⟨-, _ | ⟨-, _ | ⟨-, _ | _⟩⟩⟩
  exact ⟨k, ((execute_jump hop).mp he).1⟩

/-- A jump on a bool container goes on at the address that its label holds exactly if the container
decides. -/
theorem jumpsTo_iff_of_bool {u w : Operand} (hs : m.store.Formed) (hc : m.memory.cell? w = some c)
    (hbool : m.store.type c = .bool) : m.JumpsTo op.decider u w pc next ↔
      m.store.Decided op c ∧ m.HoldsAddress u next ∨ ¬ m.store.Decided op c ∧ next = pc + 1 := by
  have hbranches := hs.branches_of_bool op hbool
  constructor
  · intro h
    cases h with
    | branch hc' hb hu hn =>
      rw [hc] at hc'
      cases hc'
      refine .inl ⟨?_, _, _, hu, hn, rfl⟩
      rcases hbranches with ⟨hdec, -⟩ | ⟨-, hb'⟩
      · exact hdec
      · rw [hb] at hb'
        cases hb'
    | pass hc' hb =>
      rw [hc] at hc'
      cases hc'
      refine .inr ⟨?_, rfl⟩
      rcases hbranches with ⟨-, hb'⟩ | ⟨hdec, -⟩
      · rw [hb] at hb'
        cases hb'
      · exact hdec
  · rintro (⟨hdec, t, n, hu, hn, rfl⟩ | ⟨hnot, rfl⟩)
    · rcases hbranches with ⟨-, hb⟩ | ⟨hnot, -⟩
      · exact .branch hc hb hu hn
      · exact absurd hdec hnot
    · rcases hbranches with ⟨hdec, -⟩ | ⟨-, hb⟩
      · exact absurd hdec hnot
      · exact .pass hc hb

/-- A step at a jump on a bool container goes on at the address that its label holds exactly if the
container decides. -/
theorem step_jump_iff_of_bool (env : Environment) {y u w : Operand} (hs : m.store.Formed)
    (hz : instructionAt? env.program pc = some z) (hop : z.opcode = .jump op.decider)
    (hops : z.operands = [y, u, w]) (hy : m.memory.Fetches y) (hu : m.memory.Fetches u)
    (hc : m.memory.cell? w = some c) (hbool : m.store.type c = .bool) :
    (∃ n, step env pc m = .ok next n) ↔
      m.store.Decided op c ∧ m.HoldsAddress u next ∨ ¬ m.store.Decided op c ∧ next = pc + 1 := by
  have hfetches : ∀ x ∈ z.operands, m.memory.Fetches x := by
    rw [hops]
    simp only [List.mem_cons, List.not_mem_nil, or_false, forall_eq_or_imp, forall_eq]
    exact ⟨hy, hu, .inr ⟨c, hc⟩⟩
  rw [step_jump hs.sound hz hop hops, jumpsTo_iff_of_bool hs hc hbool]
  exact and_iff_right hfetches

end Machine

namespace Launch

variable {l : Launch} {cache accelerated : Bool} {m n : Machine} {z : Instruction} {pc next : Int}
  {stage after : Stage} {op : Connective} {d a b c : CellId} {w : Operand}

/-- The outcomes of a connective of type bool. -/
theorem Preserves.step_connective (hl : l.Valid) (hp : l.Preserves m) (hs : m.store.Formed)
    (hz : Machine.instructionAt? l.program pc = some z) (hop : z.opcode = .connect op)
    (hty : z.type = .bool) (hf : Machine.fetchAll z.operands m = .ok [d, a, b] n) :
    (¬ m.store.Decided op a ∧ ¬ m.store.Connectable a b ∧
      ∃ e m', Machine.step l.environment pc m = .error (.data e) m') ∨
    (∃ lengths, m.store.Joinable op a b lengths ∧ m.store.Takes d .bool lengths ∧
      ∃ m', Machine.step l.environment pc m = .ok (pc + 1) m' ∧ m'.memory = m.memory ∧
        (m.store.Decided op a → m.store.Mirrors a m'.store d) ∧
        (¬ m.store.Decided op a → m.store.Connects op a b m'.store d)) ∨
    (∃ lengths, m.store.Joinable op a b lengths ∧ ¬ m.store.Takes d .bool lengths ∧
      ∃ e m', Machine.step l.environment pc m = .error (.abort e) m' ∧
        Store.Unallocatable e) := by
  obtain ⟨k, rfl, hops⟩ := Machine.fetchAll_ok hp.guarded.addressable hf
  have hgrown : (m.grown k).store.Formed := Store.Alters.formed (Store.Alters.freshMany k) hs
  have halike : ∀ c, (m.grown k).store.Alike c m.store c := Machine.alike_grown hs.sound k
  have hback : ∀ c, m.store.Alike c (m.grown k).store c := fun c => (halike c).symm
  have hdecided : (m.grown k).store.Decided op a ↔ m.store.Decided op a :=
    Store.decided_congr (halike a).mirrors
  have hd : d < (m.grown k).store.cells.size := hops.lt d (by simp)
  have hstep := Machine.step_connect l.environment hz hop hf
  rw [hty] at hstep
  -- fetching only adds cells, so what holds after it held before
  rcases hgrown.connect_cases op a b hd with
    ⟨hnot, hno, cause, hr⟩ | ⟨lengths, hjoin, htakes, t, hr, hcopy, hcombine⟩ |
    ⟨lengths, hjoin, htakes, e, hr, hun⟩
  · rw [hr] at hstep
    obtain ⟨e, he⟩ := hp.exists_dataError hl hz hstep
    exact .inl ⟨fun hyes => hnot (hdecided.mpr hyes), fun hyes => hno (hyes.of_alike hback), e, _,
      he⟩
  · rw [hr] at hstep
    refine .inr (.inl ⟨lengths, hjoin.of_alike halike, (Store.takes_congr halike).mp htakes, _,
      hstep, rfl, fun hdec => ?_, fun hdec => ?_⟩)
    · exact (hback a).mirrors.trans (hcopy (hdecided.mpr hdec))
    · exact (hcombine fun hyes => hdec (hdecided.mp hyes)).of_alike halike
  · rw [hr] at hstep
    exact .inr (.inr ⟨lengths, hjoin.of_alike halike,
      fun hyes => htakes ((Store.takes_congr halike).mpr hyes), e, _, hstep, hun⟩)

theorem relies_of_connect (hop : z.opcode = .connect op) : l.Relies cache m z :=
  ⟨by simp [hop], by simp [hop], fun i y hy ho => by simp [hop, Accelerator.isNoOperation] at ho⟩

/-- The unit of a jump relies on its label, which may be no global, and on its first operand. -/
theorem relies_of_jump {on : Bool} {y u : Operand} (hop : z.opcode = .jump on)
    (hops : z.operands = [y, u, w]) (hy : m.memory.Fetches y) (hu : u.part ≠ .globals) :
    l.Relies cache m z := by
  refine ⟨by simp [hop], fun _ _ a b ha _ _ => ?_, fun i y' hy' ho => ?_⟩
  · obtain rfl : u = a := by simpa [hops] using ha
    exact hu
  · rcases ho with ho | ⟨-, rfl, -⟩
    · simp [hop, Accelerator.isNoOperation] at ho
    · obtain rfl : y = y' := by simpa [hops] using hy'
      exact hy

theorem placed_of_knows (hk : l.program.Knows w) (hc : m.memory.cell? w = some c) : Placed w := by
  unfold Program.Knows at hk
  cases hp : w.part <;> simp_all [Placed, Operand.IsOwn, Memory.cell?, Memory.cells?]

/-- How an engine treats a connective of type bool at `pc` with the operands `d`, `a` and `b`, which
show what they show in `s`: by the left operand alone if that decides, and otherwise by both.  The
destination has to take the result, and shows it if it is a container of the memory. -/
structure ShortCircuits (s : Store) (op : Connective) (d a b : CellId) (pc : Int)
    (r : Except Stop (Int × Stage)) : Prop where
  decided : s.Decided op a → ((∃ after, r = .ok (pc + 1, after)) ↔ s.Takes d .bool (s.lengths a))
  undecided : ¬ s.Decided op a → ((∃ after, r = .ok (pc + 1, after)) ↔
    s.Connectable a b ∧ s.Takes d .bool (s.arrayLengths [a, b]))
  advances : ∀ next after, r = .ok (next, after) → next = pc + 1
  copies : ∀ next after, r = .ok (next, after) → d < s.cells.size → s.Decided op a →
    s.Mirrors a after.ended.machine.store d
  combines : ∀ next after, r = .ok (next, after) → d < s.cells.size → ¬ s.Decided op a →
    s.Connects op a b after.ended.machine.store d
  refuses : (∃ e, r = .error (.data e)) ↔ ¬ s.Decided op a ∧ ¬ s.Connectable a b
  aborts : ∀ e, r = .error (.abort e) → Store.Unallocatable e

section

variable {s : Store} {r : Except Stop (Int × Stage)} {lengths : List Int}

theorem shortCircuits_of_refused {e : DataError} (hnot : ¬ s.Decided op a)
    (hno : ¬ s.Connectable a b) (hr : r = .error (.data e)) : ShortCircuits s op d a b pc r := by
  subst hr
  refine ⟨fun h => absurd h hnot, fun _ => iff_of_false ?_ fun h => hno h.1, ?_, ?_, ?_,
    iff_of_true ⟨e, rfl⟩ ⟨hnot, hno⟩, ?_⟩
  all_goals simp

theorem shortCircuits_of_ok (hjoin : s.Joinable op a b lengths) (htakes : s.Takes d .bool lengths)
    (hr : r = .ok (pc + 1, after))
    (hcopy : d < s.cells.size → s.Decided op a → s.Mirrors a after.ended.machine.store d)
    (hcombine : d < s.cells.size → ¬ s.Decided op a →
      s.Connects op a b after.ended.machine.store d) : ShortCircuits s op d a b pc r := by
  subst hr
  refine ⟨fun h => iff_of_true ⟨after, rfl⟩ ?_, fun h => iff_of_true ⟨after, rfl⟩ ?_, ?_, ?_, ?_,
    iff_of_false (by simp) ?_, by simp⟩
  · rcases hjoin with ⟨-, rfl⟩ | ⟨hnot, -⟩
    · exact htakes
    · exact absurd h hnot
  · rcases hjoin with ⟨hyes, -⟩ | ⟨-, hc, rfl⟩
    · exact absurd hyes h
    · exact ⟨hc, htakes⟩
  · rintro next after' ⟨⟩
    rfl
  · rintro next after' ⟨⟩
    exact hcopy
  · rintro next after' ⟨⟩
    exact hcombine
  · rintro ⟨hnot, hno⟩
    rcases hjoin with ⟨hyes, -⟩ | ⟨-, hc, -⟩
    · exact hnot hyes
    · exact hno hc

theorem shortCircuits_of_aborted {e : Abort} (hjoin : s.Joinable op a b lengths)
    (htakes : ¬ s.Takes d .bool lengths) (hr : r = .error (.abort e)) (hun : Store.Unallocatable e) :
    ShortCircuits s op d a b pc r := by
  subst hr
  refine ⟨fun h => iff_of_false (by simp) ?_, fun h => iff_of_false (by simp) ?_, by simp, by simp,
    by simp, iff_of_false (by simp) ?_, ?_⟩
  · rcases hjoin with ⟨-, rfl⟩ | ⟨hnot, -⟩
    · exact htakes
    · exact absurd h hnot
  · rcases hjoin with ⟨hyes, -⟩ | ⟨-, -, rfl⟩
    · exact absurd hyes h
    · exact fun h => htakes h.2
  · rintro ⟨hnot, hno⟩
    rcases hjoin with ⟨hyes, -⟩ | ⟨-, hc, -⟩
    · exact hnot hyes
    · exact hno hc
  · rintro e' ⟨⟩
    exact hun

/-- An engine leaves the same where the operands show the same. -/
theorem ShortCircuits.transfer {t : Store} {r' : Except Stop (Int × Stage)}
    (h : ShortCircuits s op d a b pc r) (h' : ShortCircuits t op d a b pc r')
    (halike : ∀ c, s.Alike c t c) (hd : d < s.cells.size) (hd' : d < t.cells.size)
    (hr : r = .ok (next, after)) : ∃ last, r' = .ok (next, last) ∧
      after.ended.machine.store.Mirrors d last.ended.machine.store d := by
  obtain rfl := h.advances next after hr
  have hback : ∀ c, t.Alike c s c := fun c => (halike c).symm
  by_cases hdec : s.Decided op a
  · have hdec' : t.Decided op a := hdec.of_alike halike
    have htakes : t.Takes d .bool (t.lengths a) := by
      rw [← (halike a).lengths_eq]
      exact ((h.decided hdec).mp ⟨after, hr⟩).congr halike
    obtain ⟨last, hlast⟩ := (h'.decided hdec').mpr htakes
    exact ⟨last, hlast, (h.copies _ _ hr hd hdec).symm.trans
      ((halike a).mirrors.trans (h'.copies _ _ hlast hd' hdec'))⟩
  · have hdec' : ¬ t.Decided op a := fun hyes => hdec (hyes.of_alike hback)
    obtain ⟨hcon, htakes⟩ := (h.undecided hdec).mp ⟨after, hr⟩
    obtain ⟨last, hlast⟩ := (h'.undecided hdec').mpr
      ⟨hcon.of_alike halike, Store.arrayLengths_congr halike [a, b] ▸ htakes.congr halike⟩
    exact ⟨last, hlast, ((h.combines _ _ hr hd hdec).of_alike halike).mirrors
      (h'.combines _ _ hlast hd' hdec')⟩

/-- Where operands show the same, storing the lanes in place leaves in the destination what an engine
leaves. -/
theorem ShortCircuits.inPlace {t : Store} (h : ShortCircuits s op d a b pc r) (ht : t.Formed)
    (haligned : t.Aligned) (halike : ∀ c, s.Alike c t c) (hd : d < s.cells.size)
    (hd' : d < t.cells.size) (hr : r = .ok (next, after)) :
    ∃ u, t.connectInPlace op d a b = .ok u ∧ u.Mirrors d after.ended.machine.store d := by
  have hback : ∀ c, t.Alike c s c := fun c => (halike c).symm
  have hdecided : s.Decided op a ↔ t.Decided op a := Store.decided_congr (halike a).mirrors
  have haccepts : t.Decided op a ∨ t.Connectable a b := by
    by_cases hdec : s.Decided op a
    · exact .inl (hdecided.mp hdec)
    · exact .inr (((h.undecided hdec).mp ⟨_, h.advances _ _ hr ▸ hr⟩).1.of_alike halike)
  rw [ht.connectInPlace_eq haligned hd' haccepts]
  rcases ht.connect_cases op a b hd' with
    ⟨hnot, hno, -⟩ | ⟨-, -, -, u, hu, hcopy, hcombine⟩ | ⟨lengths, hjoin, htakes, -⟩
  · exact absurd haccepts (not_or.mpr ⟨hnot, hno⟩)
  · refine ⟨u, hu, ?_⟩
    by_cases hdec : s.Decided op a
    · exact (hcopy (hdecided.mp hdec)).symm.trans
        ((hback a).mirrors.trans (h.copies next after hr hd hdec))
    · exact ((hcombine fun hyes => hdec (hdecided.mpr hyes)).of_alike hback).mirrors
        (h.combines next after hr hd hdec)
  · refine absurd ?_ htakes
    obtain rfl := h.advances next after hr
    rcases hjoin with ⟨hdec, rfl⟩ | ⟨hdec, -, rfl⟩
    · rw [← (halike a).lengths_eq]
      exact ((h.decided (hdecided.mpr hdec)).mp ⟨after, hr⟩).congr halike
    · rw [← Store.arrayLengths_congr halike]
      exact ((h.undecided fun hyes => hdec (hdecided.mp hyes)).mp ⟨after, hr⟩).2.congr halike

end

/-- The engine of a stage treats a connective as the machine that tracks the stage. -/
theorem Tracks.shortCircuits (hl : l.Valid) (h : l.Tracks cache m stage) (hp : l.Preserves m)
    (hs : m.store.Formed) (hz : Machine.instructionAt? l.program pc = some z)
    (hop : z.opcode = .connect op) (hty : z.type = .bool)
    (hf : Machine.fetchAll z.operands m = .ok [d, a, b] n) :
    ShortCircuits m.store op d a b pc (stage.step l.environment pc) := by
  have hrelies : l.Relies cache m z := relies_of_connect hop
  rcases hp.step_connective hl hs hz hop hty hf with
    ⟨hnot, hno, e, m', hstep⟩ | ⟨lengths, hjoin, htakes, m', hstep, hmemory, hcopy, hcombine⟩ |
    ⟨lengths, hjoin, htakes, e, m', hstep, hun⟩
  · exact shortCircuits_of_refused hnot hno (h.step_error hl hrelies hz hstep)
  · obtain ⟨after, hafter, htracks⟩ := h.step_ok hl hrelies hz hstep
    obtain ⟨k, -, hops⟩ := Machine.fetchAll_ok hp.guarded.addressable hf
    have hshown : d < m.store.cells.size → m'.store.Mirrors d after.ended.machine.store d := by
      intro hd
      obtain ⟨w, hw, hfetched, -⟩ := hops.at (i := 0) rfl
      unfold Machine.Fetched at hfetched
      split at hfetched
      · exact absurd hd (Nat.not_lt.mpr hfetched)
      · have hplaced : Placed w := placed_of_knows
          ((hl.admissible hz).knows w (List.mem_of_getElem? hw)) hfetched
        exact (htracks.alike hl hplaced (hmemory ▸ hfetched)).2.mirrors
    exact shortCircuits_of_ok hjoin htakes hafter
      (fun hd hdec => (hcopy hdec).trans (hshown hd))
      fun hd hdec => (hcombine hdec).congr (hshown hd)
  · exact shortCircuits_of_aborted hjoin htakes (h.step_error hl hrelies hz hstep) hun

/-- What the slots of a stage come to is in order. -/
theorem Active.preserves (hl : l.Orderly) (h : l.Active cache stage) :
    l.Preserves stage.ended.machine ∧ stage.ended.machine.store.Formed := by
  obtain ⟨accelerated, hidle⟩ := h.reached
  have hformed := hl.formed_of_reached hidle
  exact ⟨(preserves_of_reached hl.valid.sparing hidle).1, hformed⟩

/-- Where a jump by its label may go: to the address that the label holds, or in an accelerated run, if
the label is a global, to the one that it held when the memory was new. -/
def Leads (l : Launch) (stage : Stage) (u : Operand) (next : Int) : Prop :=
  stage.ended.machine.HoldsAddress u next ∨
    u.part = .globals ∧ (∃ plan x, stage = .accelerating plan x) ∧ l.Labels u next

/-- A jump on a bool container goes by its label if the container decides, and else on behind
itself. -/
structure Branches (l : Launch) (stage : Stage) (op : Connective) (c : CellId) (u : Operand)
    (pc : Int) : Prop where
  leads : stage.ended.machine.store.Decided op c →
    ∀ next after, stage.step l.environment pc = .ok (next, after) → l.Leads stage u next
  goes : stage.ended.machine.store.Decided op c → ∀ i, stage.ended.machine.HoldsAddress u i →
    ∃ next after, stage.step l.environment pc = .ok (next, after)
  passes : ¬ stage.ended.machine.store.Decided op c →
    ∀ next, (∃ after, stage.step l.environment pc = .ok (next, after)) ↔ next = pc + 1

theorem branches_of_iff {u : Operand}
    (h : ∀ next, (∃ after, stage.step l.environment pc = .ok (next, after)) ↔
      stage.ended.machine.store.Decided op c ∧ stage.ended.machine.HoldsAddress u next ∨
        ¬ stage.ended.machine.store.Decided op c ∧ next = pc + 1) : l.Branches stage op c u pc := by
  refine ⟨fun hdec next after hstep => ?_, fun hdec i hi => ?_, fun hdec next => ?_⟩
  · rcases (h next).mp ⟨after, hstep⟩ with ⟨-, haddress⟩ | ⟨hnot, -⟩
    · exact .inl haddress
    · exact absurd hdec hnot
  · obtain ⟨after, hstep⟩ := (h i).mpr (.inl ⟨hdec, hi⟩)
    exact ⟨i, after, hstep⟩
  · rw [h next]
    exact ⟨fun hor => hor.elim (fun hyes => absurd hyes.1 hdec) fun hno => hno.2,
      fun hnext => .inr ⟨hdec, hnext⟩⟩

/-- A jump on a bool container branches exactly if the container decides. -/
theorem Active.branches (hl : l.Orderly) (h : l.Active cache stage) {y u : Operand}
    (hz : Machine.instructionAt? l.program pc = some z) (hop : z.opcode = .jump op.decider)
    (hops : z.operands = [y, u, w]) (hy : stage.ended.machine.memory.Fetches y)
    (hu : stage.ended.machine.memory.Fetches u)
    (hc : stage.ended.machine.memory.cell? w = some c)
    (hbool : stage.ended.machine.store.type c = .bool) : l.Branches stage op c u pc := by
  obtain ⟨-, hformed⟩ := h.preserves hl
  have hmachine : ∀ next,
      (∃ m', Machine.step l.environment pc stage.ended.machine = .ok next m') ↔
        stage.ended.machine.store.Decided op c ∧ stage.ended.machine.HoldsAddress u next ∨
          ¬ stage.ended.machine.store.Decided op c ∧ next = pc + 1 := fun _ =>
    Machine.step_jump_iff_of_bool l.environment hformed hz hop hops hy hu hc hbool
  cases h with
  | machine _ => exact branches_of_iff fun next => Stage.step_interpreting_iff.trans (hmachine next)
  | @plan plan x hplan h =>
    have hp : l.Planned cache plan := Accelerator.planOf_of_compile hplan
    have hx : l.Slotted cache plan x := h.kept hl.valid hp
    rcases hx.jump_cases hl.valid hp hz hop hops with
      hiff | ⟨-, c', v, target, x', hlabel, hc', hbranch, hstep, hto⟩
    · exact branches_of_iff fun next =>
        Stage.step_accelerating_iff.trans ((hiff next).trans (hmachine next))
    · rw [hc] at hc'
      cases hc'
      have hafter : (Stage.accelerating plan x).step l.environment pc =
          .ok (if v = op.decider then target else pc + 1, .accelerating plan x') := by
        simp only [Stage.step, hstep]
      rcases hformed.branches_of_bool op hbool with ⟨hdec, hb⟩ | ⟨hdec, hb⟩ <;>
        rw [hb] at hbranch
      · obtain rfl : v = op.decider := by simpa using (Except.ok.inj hbranch).symm
        rw [if_pos rfl] at hafter hto
        refine ⟨fun _ next after hnext => ?_, fun _ i _ => ⟨_, _, hafter⟩,
          fun hnot => absurd hdec hnot⟩
        rw [hafter] at hnext
        cases hnext
        by_cases hglobal : u.part = .globals
        · exact .inr ⟨hglobal, ⟨plan, x, rfl⟩, hlabel⟩
        · rcases (Machine.jumpsTo_iff_of_bool hformed hc hbool).mp (hto hglobal) with
            ⟨-, haddress⟩ | ⟨hnot, -⟩
          · exact .inl haddress
          · exact absurd hdec hnot
      · have hv : v ≠ op.decider := by
          have := (Except.ok.inj hbranch).symm
          simpa using this
        rw [if_neg hv] at hafter
        refine ⟨fun hyes => absurd hyes hdec, fun hyes => absurd hyes hdec, fun _ next => ?_⟩
        rw [hafter]
        constructor
        · rintro ⟨after, hnext⟩
          cases hnext
          rfl
        · rintro rfl
          exact ⟨_, rfl⟩

/-- A jump on a bool container with a label of the program, and the machine behind it. -/
theorem Active.jumps (hl : l.Orderly) (h : l.Active cache stage) {y u : Operand} {i : Int}
    (hz : Machine.instructionAt? l.program pc = some z) (hop : z.opcode = .jump op.decider)
    (hops : z.operands = [y, u, w]) (hy : stage.ended.machine.memory.Fetches y)
    (ht : Targets l.program u i) (hc : stage.ended.machine.memory.cell? w = some c)
    (hbool : stage.ended.machine.store.type c = .bool) :
    ∃ next k after, stage.step l.environment pc = .ok (next, after) ∧
      l.Tracks cache (stage.ended.machine.grown k) after ∧
      (stage.ended.machine.store.Decided op c ∧ next = i ∨
        ¬ stage.ended.machine.store.Decided op c ∧ next = pc + 1) := by
  obtain ⟨hp, hformed⟩ := h.preserves hl
  have haddress : stage.ended.machine.HoldsAddress u i := hp.holdsAddress hl.valid ht
  obtain ⟨next, hnext⟩ : ∃ next, stage.ended.machine.store.Decided op c ∧ next = i ∨
      ¬ stage.ended.machine.store.Decided op c ∧ next = pc + 1 := by
    by_cases hdec : stage.ended.machine.store.Decided op c
    · exact ⟨i, .inl ⟨hdec, rfl⟩⟩
    · exact ⟨pc + 1, .inr ⟨hdec, rfl⟩⟩
  have hgoes := hnext.imp_left fun hi => And.intro hi.1 (hi.2 ▸ haddress)
  obtain ⟨t, -, hcell, -⟩ := haddress
  obtain ⟨m', hstep⟩ := (Machine.step_jump_iff_of_bool l.environment hformed hz hop hops hy
    (.inr ⟨t, hcell⟩) hc hbool).mpr hgoes
  obtain ⟨k, rfl⟩ := Machine.state_of_jump l.environment hz hop hops hstep
  obtain ⟨after, hafter, htracks⟩ := (h.tracks hl).step_ok hl.valid
    (relies_of_jump hop hops hy (by simp [ht.part])) hz hstep
  exact ⟨next, k, after, hafter, htracks, hnext⟩

/-- What a step fetches for a connective whose destination is its left operand. -/
theorem Tracks.exists_fetched (hl : l.Valid) (h : l.Tracks cache m stage) (hp : l.Preserves m)
    {x : Operand} (hz : Machine.instructionAt? l.program pc = some z) (hop : z.opcode = .connect op)
    (hops : z.operands = [w, w, x]) (hc : m.memory.cell? w = some c)
    (hstep : stage.step l.environment pc = .ok (next, after)) :
    ∃ b n, Machine.fetchAll z.operands m = .ok [c, c, b] n ∧ Machine.Fetched m x b := by
  obtain ⟨m', hm'⟩ := (h.step_iff hl (relies_of_connect hop) hz).mp ⟨after, hstep⟩
  obtain ⟨cs, n, hf⟩ := Machine.fetched_of_step l.environment hz hm'
  obtain ⟨k, -, hall⟩ := Machine.fetchAll_ok hp.guarded.addressable hf
  rw [hops] at hall
  rcases hall with _ | ⟨⟨hd, -⟩, _ | ⟨⟨ha, -⟩, _ | ⟨⟨hb, -⟩, _ | _⟩⟩⟩
  obtain rfl := hd.eq_of_cell hc
  obtain rfl := ha.eq_of_cell hc
  exact ⟨_, n, hf, hb⟩

/-- Jumping over a connective whose left operand decides leaves its destination, which is its left
operand, as the connective alone would. -/
theorem Active.jumps_over (hl : l.Orderly) (h : l.Active cache stage) {y u x : Operand}
    {zj : Instruction} (hj : Machine.instructionAt? l.program pc = some zj)
    (hopj : zj.opcode = .jump op.decider) (hopsj : zj.operands = [y, u, w])
    (hy : stage.ended.machine.memory.Fetches y) (ht : Targets l.program u (pc + 2))
    (hz : Machine.instructionAt? l.program (pc + 1) = some z) (hop : z.opcode = .connect op)
    (hty : z.type = .bool) (hops : z.operands = [w, w, x])
    (hc : stage.ended.machine.memory.cell? w = some c)
    (halone : stage.step l.environment (pc + 1) = .ok (next, after)) :
    ∃ target mid, stage.step l.environment pc = .ok (target, mid) ∧
      (target = pc + 2 ∧ after.ended.machine.store.Mirrors c mid.ended.machine.store c ∨
        target = pc + 1 ∧ ∃ last, mid.step l.environment (pc + 1) = .ok (pc + 2, last) ∧
          after.ended.machine.store.Mirrors c last.ended.machine.store c) := by
  obtain ⟨hp, hformed⟩ := h.preserves hl
  have htracks := h.tracks hl
  obtain ⟨b, n, hf, hb⟩ := htracks.exists_fetched hl.valid hp hz hop hops hc halone
  have hshort := htracks.shortCircuits hl.valid hp hformed hz hop hty hf
  have hlt : c < stage.ended.machine.store.cells.size := hp.guarded.addressable w c hc
  have haccepts : stage.ended.machine.store.Decided op c ∨
      stage.ended.machine.store.Connectable c b := by
    by_contra hneither
    obtain ⟨e, he⟩ := hshort.refuses.mpr (not_or.mp hneither)
    rw [halone] at he
    cases he
  have hbool : stage.ended.machine.store.type c = .bool :=
    haccepts.elim (fun hdec => hdec.type_eq) fun hcon => hcon.left_eq
  obtain ⟨target, k, mid, hmid, htracks', hbranch⟩ := h.jumps hl hj hopj hopsj hy ht hc hbool
  have hback : ∀ c, stage.ended.machine.store.Alike c (stage.ended.machine.grown k).store c :=
    fun c => (Machine.alike_grown hformed.sound k c).symm
  refine ⟨target, mid, hmid, ?_⟩
  rcases hbranch with ⟨hdec, rfl⟩ | ⟨hnot, rfl⟩
  · -- the copy of the destination to itself is left out
    have hplaced : Placed w := placed_of_knows
      ((hl.valid.admissible hz).knows w (by simp [hops])) hc
    have hkept := (htracks'.alike hl.valid hplaced (c := c) hc).2.mirrors
    exact .inl ⟨rfl, (hshort.copies next after halone hlt hdec).symm.trans
      ((hback c).mirrors.trans hkept)⟩
  · obtain rfl := hshort.advances next after halone
    have hx : stage.ended.machine.memory.cell? x = some b := by
      refine Machine.cell?_of_fetched (k := 0) hb ?_
      rw [Machine.grown_zero, (haccepts.resolve_left hnot).right_eq]
      nofun
    have hf' : Machine.fetchAll z.operands (stage.ended.machine.grown k) =
        .ok [c, c, b] (stage.ended.machine.grown k) := by
      rw [hops]
      exact Machine.fetchAll_of_cells (.cons hc (.cons hc (.cons hx .nil)))
    have hshort' := htracks'.shortCircuits hl.valid
      (hp.moves (Machine.moves_grown hp.guarded.within k))
      (Store.Alters.formed (Store.Alters.freshMany k) hformed) hz hop hty hf'
    obtain ⟨last, hlast, hmirrors⟩ := hshort.transfer hshort' hback hlt
      (Nat.lt_of_lt_of_le hlt (by simp)) halone
    rw [show pc + 1 + 1 = pc + 2 by omega] at hlast
    exact .inr ⟨rfl, last, hlast, hmirrors⟩

/-- The short circuit of a connective of type bool is the same in both engines and at jumps, if no two
containers of the host show overlapping parts of one buffer.  If the left operand decides, the right
one does not matter, and the left one is copied; otherwise both have to be bool with the same lengths
if both are arrays, and are combined.  Both need a destination that takes the result, or they stop
because it cannot be allocated.  Storing the lanes in place leaves the same.  A jump branches exactly
if the container decides, so a connective whose destination is its left operand may be jumped over. -/
theorem short_circuit_consistent (hl : l.Level) (h : l.Active cache stage) :
    (∀ {pc : Int} {z : Instruction} {op : Connective} {ops : List CellId} {n : Machine},
      Machine.instructionAt? l.program pc = some z → z.opcode = .connect op → z.type = .bool →
      Machine.fetchAll z.operands stage.ended.machine = .ok ops n →
      ∃ d a b, ops = [d, a, b] ∧
        ShortCircuits stage.ended.machine.store op d a b pc (stage.step l.environment pc) ∧
        (d < stage.ended.machine.store.cells.size → ∀ next after,
          stage.step l.environment pc = .ok (next, after) →
          ∃ t, n.store.connectInPlace op d a b = .ok t ∧
            t.Mirrors d after.ended.machine.store d)) ∧
    (∀ {pc : Int} {z : Instruction} {op : Connective} {y u w : Operand} {c : CellId},
      Machine.instructionAt? l.program pc = some z → z.opcode = .jump op.decider →
      z.operands = [y, u, w] → stage.ended.machine.memory.Fetches y →
      stage.ended.machine.memory.Fetches u →
      stage.ended.machine.memory.cell? w = some c → stage.ended.machine.store.type c = .bool →
      l.Branches stage op c u pc) ∧
    (∀ {pc next : Int} {zj z : Instruction} {op : Connective} {y u w x : Operand} {c : CellId}
        {after : Stage},
      Machine.instructionAt? l.program pc = some zj → zj.opcode = .jump op.decider →
      zj.operands = [y, u, w] → stage.ended.machine.memory.Fetches y →
      Targets l.program u (pc + 2) → Machine.instructionAt? l.program (pc + 1) = some z →
      z.opcode = .connect op → z.type = .bool → z.operands = [w, w, x] →
      stage.ended.machine.memory.cell? w = some c →
      stage.step l.environment (pc + 1) = .ok (next, after) →
      ∃ target mid, stage.step l.environment pc = .ok (target, mid) ∧
        (target = pc + 2 ∧ after.ended.machine.store.Mirrors c mid.ended.machine.store c ∨
          target = pc + 1 ∧ ∃ last, mid.step l.environment (pc + 1) = .ok (pc + 2, last) ∧
            after.ended.machine.store.Mirrors c last.ended.machine.store c)) := by
  refine ⟨fun {pc z op ops n} hz hop hty hf => ?_, fun hz hop hops hy hu hc hbool =>
    h.branches hl.toOrderly hz hop hops hy hu hc hbool,
    fun hj hopj hopsj hy ht hz hop hty hops hc halone =>
      h.jumps_over hl.toOrderly hj hopj hopsj hy ht hz hop hty hops hc halone⟩
  obtain ⟨hp, hformed⟩ := h.preserves hl.toOrderly
  obtain ⟨k, rfl, hops⟩ := Machine.fetchAll_ok hp.guarded.addressable hf
  obtain ⟨d, a, b, rfl⟩ := Machine.operands_connect hop (hl.valid.admissible hz).arity hops
  have hshort := (h.tracks hl.toOrderly).shortCircuits hl.valid hp hformed hz hop hty hf
  refine ⟨d, a, b, rfl, hshort, fun hd next after hr => ?_⟩
  obtain ⟨accelerated, hidle⟩ := h.reached
  have haligned := Machine.aligned_grown (hl.aligned_of_reached hidle) k
  exact hshort.inPlace (Store.Alters.formed (Store.Alters.freshMany k) hformed) haligned
    (fun c => (Machine.alike_grown hformed.sound k c).symm) hd (hops.lt d (by simp)) hr

/-- Jumps over a conjunction of a false register with a number. -/
def jumpsOver : Program where
  code := #[
    { opcode := .alloc, types := [.bool], operands := [⟨.registers, 0⟩] },
    { opcode := .move, types := [.bool], operands := [⟨.registers, 0⟩, ⟨.constants, 0⟩] },
    { opcode := .jump false, types := [.bool],
      operands := [Operand.absent, ⟨.constants, 1⟩, ⟨.registers, 0⟩] },
    { opcode := .connect .and, types := [.bool],
      operands := [⟨.registers, 0⟩, ⟨.registers, 0⟩, ⟨.constants, 2⟩] },
    { opcode := .nop, types := [.void] },
    { opcode := .finish, types := [.void] }]
  labels := ⟨[("&done", 4)]⟩
  constants := ⟨[("~int:7", 2), ("~int:4", 1), ("~bool:false", 0)]⟩
  extent := { registers := 0, constants := 2 }
  registers := [0]

def jumpsOverText : String :=
  "ALLOC bool R0; MOV bool R0 ~bool:false; JMPN bool - &done R0; ANDM bool R0 R0 ~int:7; " ++
    "#LABEL &done; END void;"

/-- The slot of the register holds false, so the plan jumps, and the register is as if it had not. -/
theorem short_circuit_consistent_jumpsOver :
    let l := Launch.on jumpsOver none {} #[]
    l.Level ∧ ∃ plan x, Accelerator.compile l.program l.store l.memory true = .ok plan ∧
      l.Shares plan (.accelerating plan x) ∧
      let stage := Stage.accelerating plan x
      ShortCircuits stage.ended.machine.store .and 0 0 3 3 (stage.step l.environment 3) ∧
      stage.ended.machine.store.Decided .and 0 ∧
      ∃ mid after, stage.step l.environment 2 = .ok (4, mid) ∧
        stage.step l.environment 3 = .ok (4, after) ∧
        after.ended.machine.store.Mirrors 0 mid.ended.machine.store 0 := by
  intro l
  have hasm : (Assembler.assemble jumpsOverText {}).toOption = some jumpsOver := by decide +kernel
  have hvalid : l.Valid := valid_on hasm Store.sound_empty (by simp) (by decide +kernel) nofun
  have hl : l.Level :=
    { valid := hvalid
      sized := fun c => by simpa [l, on, Store.cell] using Store.sized_empty
      forms := by simp [l, on]
      aligned := Store.aligned_empty
      aligns := by simp [l, on] }
  let r := Accelerator.compile l.program l.store l.memory true
  have hr : r.toOption.isSome = true := by decide +kernel
  let plan := r.toOption.getD {}
  have hplan : Accelerator.compile l.program l.store l.memory true = .ok plan := by
    obtain ⟨plan', hplan'⟩ := Option.isSome_iff_exists.mp hr
    rw [show plan = plan' by simp [plan, hplan']]
    exact eq_ok_of_toOption hplan'
  let start : State := .start plan { l.machine with running := [] } {} 0
  let x := finalState (Accelerator.step l.environment plan 1
    (finalState (Accelerator.step l.environment plan 0 start)))
  have hshares : l.Shares plan (.accelerating plan x) :=
    .unit (z := jumpsOver.code[1]) (.unit (z := jumpsOver.code[0]) (.accelerate {} 0 .allocated) rfl)
      rfl
  refine ⟨hl, plan, x, hplan, hshares, ?_⟩
  intro stage
  obtain ⟨hconnect, hjump, hover⟩ := short_circuit_consistent hl (.plan hplan hshares)
  have hz : Machine.instructionAt? l.program 3 = some jumpsOver.code[3] := rfl
  have hj : Machine.instructionAt? l.program 2 = some jumpsOver.code[2] := rfl
  have hdecider : jumpsOver.code[2].opcode = .jump (Connective.decider .and) := rfl
  have ht : Targets l.program ⟨.constants, 1⟩ 4 :=
    ⟨rfl, by decide, by decide +kernel, _,
      Literal.decode_integerImmediate ⟨by decide, by decide⟩, by decide⟩
  have hcell : stage.ended.machine.memory.cell? ⟨.registers, 0⟩ = some 0 := by decide +kernel
  have hlabel : stage.ended.machine.memory.cell? ⟨.constants, 1⟩ = some 2 := by decide +kernel
  have hbool : stage.ended.machine.store.type 0 = .bool := by decide +kernel
  have hfetch : (success? (Machine.fetchAll [⟨.registers, 0⟩, ⟨.registers, 0⟩, ⟨.constants, 2⟩]
      stage.ended.machine)).any (fun y => y.1 = [0, 0, 3]) = true := by decide +kernel
  have htwo : (Accelerator.step l.environment plan 2).run' x = some 4 := by decide +kernel
  have hthree : (Accelerator.step l.environment plan 3).run' x = some 4 := by decide +kernel
  have hgoes : ∀ {pc next : Int}, (Accelerator.step l.environment plan pc).run' x = some next →
      ∃ after, stage.step l.environment pc = .ok (next, after) := by
    intro pc next h
    delta EStateM.run' EStateM.run at h
    simp only [stage, Stage.step]
    cases hstep : Accelerator.step l.environment plan pc x with
    | error e x' => simp [hstep] at h
    | ok next' x' =>
      obtain rfl : next' = next := by simpa [hstep] using h
      exact ⟨_, rfl⟩
  obtain ⟨ops, n, hf, hops⟩ := exists_ok hfetch
  obtain rfl : ops = [0, 0, 3] := of_decide_eq_true hops
  obtain ⟨d, a, b, hdab, hshort, -⟩ := hconnect hz rfl rfl hf
  cases hdab
  obtain ⟨after, hafter⟩ := hgoes hthree
  obtain ⟨mid, hmid⟩ := hgoes htwo
  have hdecided : stage.ended.machine.store.Decided .and 0 := by
    by_contra hnot
    cases ((hjump hj hdecider rfl (.inl rfl) (.inr ⟨2, hlabel⟩) hcell hbool).passes hnot 4).mp
      ⟨mid, hmid⟩
  obtain ⟨target, mid', hmid', hmirrors⟩ :=
    hover hj hdecider rfl (.inl rfl) ht hz rfl rfl rfl hcell hafter
  rw [hmid] at hmid'
  cases hmid'
  rcases hmirrors with ⟨-, hmirrors⟩ | ⟨hthree, -⟩
  · exact ⟨hshort, hdecided, mid, after, hmid, hafter, hmirrors⟩
  · cases hthree

/-- Copies a global that decides a conjunction into a local. -/
def andsGlobal : Program where
  code := #[
    { opcode := .connect .and, types := [.bool],
      operands := [⟨.locals, 0⟩, ⟨.globals, 0⟩, ⟨.constants, 0⟩] },
    { opcode := .finish, types := [.void] }]
  constants := ⟨[("~bool:true", 0)]⟩
  extent := { globals := 0, locals := 0, constants := 0 }

/-- A container of the host with six false elements, as its lengths -2 and -3 say. -/
def negativeBools : Store :=
  ({} : Store).fresh.2.renew 0 (.bools #[false, false, false, false, false, false]) [-2, -3]

/-- The left operand decides, and still the instruction does not succeed: its destination cannot be
given the lengths of the operand. -/
theorem connective_aborts_negativeBools :
    let l := Launch.on andsGlobal none negativeBools #[0]
    let start := { l.machine with running := [] }
    l.Level ∧ l.Active true (.interpreting start) ∧
      Machine.instructionAt? l.program 0 = some
        { opcode := .connect .and, types := [.bool],
          operands := [⟨.locals, 0⟩, ⟨.globals, 0⟩, ⟨.constants, 0⟩] } ∧
      start.memory.cell? ⟨.globals, 0⟩ = some 0 ∧ start.store.Decided .and 0 ∧
      (Stage.interpreting start).step l.environment 0 =
        .error (.abort (.fault { operation := "alloc", detail := "negative length -2" })) := by
  intro l start
  have hasm : (Assembler.assemble "ANDM bool L0 G0 ~bool:true; END void;" {}).toOption =
      some andsGlobal := by decide +kernel
  have hfresh : ({} : Store).fresh.2.Formed :=
    Store.Edit.formed .fresh
      ⟨Store.sound_empty, fun c => by simpa [Store.cell] using Store.sized_empty⟩
  have hformed : negativeBools.Formed :=
    Store.Edit.formed (.renew trivial (by decide) (by decide)) hfresh
  have haligned : negativeBools.Aligned := by
    refine Store.Aligned.renew ?_ hfresh.sound _
    exact Store.aligned_empty.of_same fun c => .inr (.inr (by simp))
  have hvalid : l.Valid := valid_on hasm hformed.sound (by decide) (by decide +kernel) (by simp)
  have hl : l.Level :=
    { valid := hvalid
      sized := hformed.sized
      forms := by simp [l, on]
      aligned := haligned
      aligns := by simp [l, on] }
  have hreached : Reached l false (.interpreting start) := .interpret .allocated
  refine ⟨hl, .machine hreached, rfl, by decide +kernel, ?_, ?_⟩
  · have hw : start.store.window 0 =
        .ok (.bools #[false, false, false, false, false, false]) := rfl
    exact (Store.decided_iff .and (by decide +kernel) (Store.shown?_of_window hw)).mpr
      (by decide +kernel)
  · have hstep : (failure? (Machine.step l.environment 0 start)).any (fun x =>
        x.1 = .abort (.fault { operation := "alloc", detail := "negative length -2" })) = true := by
      decide +kernel
    obtain ⟨stop, m', hs, hstop⟩ := exists_error hstep
    obtain rfl := of_decide_eq_true hstop
    simp only [Stage.step, hs]

end Launch

end VectorMachine
