import VectorMachine.Proofs.Machine.Effects
import VectorMachine.Proofs.Machine.Ledgers
import VectorMachine.Proofs.Machine.Pools
import VectorMachine.Proofs.Machine.Runs

/-!
# Runs that assign before they look

A run that looks at no local or register before it has assigned it takes the same steps on a used
memory as on a new one, ends alike, and leaves the same in all containers that are known then.
-/

namespace VectorMachine
set_option autoImplicit false

open Store (Pairing Matches)

namespace Machine

variable {k k' : Ledger} {R R' : Pairing} {m m' n n' : Machine} {c c' : CellId} {y z d : Operand}
  {x : Instruction} {env : Environment} {pc : Int} {ys : List Operand}

/-! ### Steps -/

theorem Dusty.grown (h : Dusty k R m m') (hw : k.Working) (j : Nat) :
    ∃ R' : Pairing, R.Below R' ∧ Dusty k R' (m.grown j) (m'.grown j) := by
  have hm := moves_grown h.dusted.within j
  have hm' := moves_grown h.dusted'.within j
  have hs : Matches False R (m.grown j).store (m'.grown j).store :=
    (h.tied.store.frame (hm.touches.sound h.dusted.sound) hm.touches.cells_le
      (fun _ => Store.cell_freshMany j) fun _ => rfl).frame' (hm'.touches.sound h.dusted'.sound)
      hm'.touches.cells_le (fun _ => Store.cell_freshMany j) fun _ => rfl
  obtain ⟨R', hle, hd, -⟩ := h.moved hw (fun _ => id) (fun _ => id) hm hm'
    (h.tied.withStore (fun _ _ => id) hs) fun _ _ => id
  exact ⟨R', hle, hd⟩

/-- How a step ends. -/
abbrev Stepped (R : Pairing) (k : Ledger) {α : Type} :
    EStateM.Result Stop Machine α → EStateM.Result Stop Machine α → Prop :=
  Jointly (fun a a' n n' => a = a' ∧ ∃ R' : Pairing, R.Below R' ∧ Dusty k R' n n')
    fun n n' => ∃ (k' : Ledger) (R' : Pairing), R.Below R' ∧ Tied False (Known k') R' n n'

/-- Instructions without effect look at nothing. -/
theorem Dusty.step_noOperation (h : Dusty k R m m') (hw : k.Working)
    (hx : instructionAt? env.program pc = some x) (hys : ∀ y ∈ x.operands, env.program.Knows y)
    (hno : Accelerator.isNoOperation x.opcode = true) :
    Stepped R k (step env pc m) (step env pc m') := by
  obtain ⟨j, hj⟩ := fetchAll_grown x.operands h.tied.sizes fun y hy hp => by
    have := hys y hy
    simp [Program.Knows, hp] at this
  obtain ⟨R', hle, hd⟩ := h.grown hw j
  rw [step_eq_of_noOperation hx hno, step_eq_of_noOperation hx hno]
  cases h₁ : Machine.fetchAll x.operands m <;> cases h₂ : Machine.fetchAll x.operands m' <;>
    rw [h₁, h₂] at hj
  · obtain ⟨rfl, rfl⟩ := hj
    exact ⟨rfl, R', hle, hd⟩
  · exact hj.elim
  · exact hj.elim
  · obtain ⟨rfl, rfl, rfl⟩ := hj
    exact ⟨rfl, k, R', hle, hd.tied⟩

theorem Dusty.step_known (h : Dusty k R m m') (hw : k.Working)
    (hconf : ∀ link, env.linker = some link → link.Confined)
    (hlink : ∀ link, env.linker = some link → link.Respects False)
    (hx : instructionAt? env.program pc = some x) (hadm : x.Admissible env.program)
    (hk : ∀ y ∈ x.operands, k y = .data) : Stepped R k (step env pc m) (step env pc m') := by
  have hknown : ∀ y ∈ x.operands, y.part = .absent ∨ Known k y := fun y hy =>
    known_of_knows (hadm.knows y hy) (hk y hy)
  have hstep : Relates False (Known k) R Same (step env pc m) (step env pc m') :=
    relates_step h.tied (fun _ _ _ => hlink) fun z hz => by
      rw [hx] at hz
      cases hz
      exact ⟨hknown, known_note hw hadm.notes⟩
  have hmoves : ∀ {a : Machine}, a.Dusted k →
      Moves (fun c => ¬ a.Dust k c) a (finalState (step env pc a)) := fun ha =>
    ha.moves_step hw hconf fun z hz => by
      rw [hx] at hz
      cases hz
      exact ⟨hadm.knows, fun i y _ hy => hk y (List.mem_of_getElem? hy)⟩
  have hm := hmoves h.dusted
  have hm' := hmoves h.dusted'
  cases h₁ : step env pc m <;> cases h₂ : step env pc m' <;> rw [h₁, h₂] at hstep
  · obtain ⟨R', hle, ht, rfl⟩ := hstep
    rw [h₁] at hm
    rw [h₂] at hm'
    obtain ⟨R₂, hle₂, hd, -⟩ := h.moved hw (fun _ => id) (fun _ => id) hm hm' ht hle
    exact ⟨rfl, R₂, hle₂, hd⟩
  · exact hstep.elim
  · exact hstep.elim
  · obtain ⟨rfl, R', hle, ht⟩ := hstep
    exact ⟨rfl, k, R', hle, ht⟩

/-- What has been stored into a destination makes it known. -/
theorem Dusty.stored (h : Dusty k R m m') (hw : k.Working)
    (hconf : ∀ link, env.linker = some link → link.Confined)
    (hx : instructionAt? env.program pc = some x) (hadm : x.Admissible env.program)
    (hk : ∀ y ∈ x.operands, k.set d .data y = .data) {a a' : Int}
    (h₁ : step env pc m = .ok a n) (h₂ : step env pc m' = .ok a' n')
    (hle : R.Below R') (ht : Tied False (Known (k.set d .data)) R' n n') :
    ∃ R' : Pairing, R.Below R' ∧ Dusty (k.set d .data) R' n n' := by
  have hb : k.Below (k.set d .data) := Ledger.below_set_data
  have hshape : ∀ y, k.set d .data y = .shape → k y = .shape := fun y hy => by
    have hne : k.set d .data y ≠ .data := by simp [hy]
    rwa [Ledger.set_of_ne (Ledger.ne_data_of_set hne).1] at hy
  have hmoves : ∀ {b c : Machine} {a : Int}, b.Dusted k → Machine.step env pc b = .ok a c →
      Moves (fun e => ¬ b.Dust (k.set d .data) e) b c := fun {b c a} hd hs => by
    have hm : Moves _ b (finalState (Machine.step env pc b)) :=
      (hd.mono hb).moves_step hw.set_data hconf fun z hz => by
        rw [hx] at hz
        cases hz
        exact ⟨hadm.knows, fun i y _ hy => hk y (List.mem_of_getElem? hy)⟩
    rwa [hs] at hm
  obtain ⟨R₂, hle₂, hd, -⟩ :=
    h.moved hw hb hshape (hmoves h.dusted h₁) (hmoves h.dusted' h₂) ht hle
  exact ⟨R₂, hle₂, hd⟩

/-- What stops a step. -/
def stopOf (pc : Int) (x : Instruction) (cs : List CellId) (m : Machine) : Failure → Stop
  | .abort a => .abort a
  | .data e => dataStop pc x cs e m

theorem step_eq_execute {cs : List CellId} (hx : instructionAt? env.program pc = some x)
    (hf : Machine.fetchAll x.operands m = .ok cs n) : step env pc m =
      match execute env pc x cs n with
      | .ok next n => .ok next n
      | .error e n => .error (stopOf pc x cs n e) n := by
  simp only [step, hx, hf]
  cases execute env pc x cs n with
  | ok next n => rfl
  | error e n => cases e <;> rfl

theorem overwrites_grown (hs : m.store.Sound) {v : Knowledge} (j : Nat) :
    (m.grown j).overwrites x v = m.overwrites x v := by
  have hrank : ∀ c, (m.grown j).store.rank c = m.store.rank c := fun c => by
    rw [Store.rank, Store.lengths, rootCell_grown hs, Store.rank, Store.lengths]
  unfold overwrites
  simp only [hrank]
  rfl

theorem of_overwrites {v : Knowledge} (h : m.overwrites x v = true) :
    x.opcode.writes = true ∧ x.opcode ≠ .callExternal ∧
      (x.opcode = .cast ∨ x.opcode = .fill → v = .shape) ∧
      (x.opcode = .move → v = .shape ∨ ∃ a, m.source? x = some a ∧ m.store.rank a = 0) ∧
      (x.opcode = .movePop → v = .shape ∨ ∃ a ∈ m.memory.stack.back?, m.store.rank a = 0) := by
  unfold overwrites at h
  cases hop : x.opcode <;>
    simp_all [Opcode.writes, source?, Option.any_eq_true]

/-- The container that a move assigns has been fetched for its second operand. -/
theorem mem_of_source {cs : List CellId} {P : Operand → CellId → Prop} (hmove : x.opcode = .move)
    (hops : x.operands = d :: ys)
    (hcs : List.Forall₂ (fun y c => Fetched m y c ∧ P y c) ys cs) (hc : m.source? x = some c) :
    c ∈ cs[0]? := by
  simp only [source?, hmove, hops, List.getElem?_cons_succ] at hc
  rcases hcs with _ | ⟨⟨hf, -⟩, -⟩
  · simp at hc
  · rename_i y e ys cs
    simp only [List.getElem?_cons_zero, Option.bind_some] at hc
    simp [hf.eq_of_cell hc]

theorem Dusty.execute_overwrites {cs cs' : List CellId} (env : Environment) (pc : Int)
    (h : Dusty k R m m') (hw : k.Working)
    (hd : k d ≠ .data) (hc : m.memory.cell? d = some c) (hc' : m'.memory.cell? d = some c')
    (hcs : List.Forall₂ R cs cs') (hover : m'.overwrites x (k d) = true)
    (hsource : ∀ a, x.opcode = .move → m'.source? x = some a → a ∈ cs'[0]?) :
    Jointly (fun a a' n n' => a = a' ∧
        (x.opcode.allocates = true ∧ Dusty (k.shaped d) R n n' ∨ x.opcode.allocates = false ∧
          ∃ R' : Pairing, R.Below R' ∧ Tied False (Known (k.set d .data)) R' n n'))
      (fun n n' => n.world = m.world ∧ n'.world = m'.world ∧ Tied False (Known k) R n n')
      (execute env pc x (c :: cs) m) (execute env pc x (c' :: cs') m') := by
  cases hall : x.opcode.allocates with
  | true =>
    have he := h.execute_allocates env pc hw hd hc hc' hcs hall
    cases h₁ : execute env pc x (c :: cs) m <;> cases h₂ : execute env pc x (c' :: cs') m' <;>
      rw [h₁, h₂] at he
    · exact ⟨he.1, .inl ⟨rfl, he.2⟩⟩
    all_goals exact he
  | false =>
    obtain ⟨hwrites, hcall, hshape, hmove, hpop⟩ := of_overwrites hover
    have he := h.execute_stores env pc hw hd hc hc' hcs hwrites hall hcall hshape
      (fun hop => (hmove hop).imp_right fun ⟨a, ha, hrank⟩ => ⟨a, hsource a hop ha, hrank⟩) hpop
    cases h₁ : execute env pc x (c :: cs) m <;> cases h₂ : execute env pc x (c' :: cs') m' <;>
      rw [h₁, h₂] at he
    · exact ⟨he.1, .inr ⟨rfl, he.2⟩⟩
    all_goals exact he

theorem after_of_stores (hops : x.operands = d :: ys) (hall : x.opcode.allocates = false)
    (hwrites : x.opcode.writes = true) : x.after k = k.set d .data := by
  simp [Instruction.after, hops, hall, hwrites]

theorem after_of_allocates (hops : x.operands = d :: ys) (hall : x.opcode.allocates = true) :
    x.after k = k.shaped d := by
  simp [Instruction.after, hops, hall]

theorem fetchAll_cons_of_error {e : Abort} (h : fetch d m = .error e n) :
    Machine.fetchAll (d :: ys) m = .error e n := by
  simp only [Machine.fetchAll, bind, EStateM.bind, h]

theorem fetchAll_cons_of_cell (hc : m.memory.cell? d = some c) :
    Machine.fetchAll (d :: ys) m =
      match Machine.fetchAll ys m with
      | .ok cs n => .ok (c :: cs) n
      | .error e n => .error e n := by
  simp only [Machine.fetchAll, bind, EStateM.bind, fetch_eq_of_cell hc]
  cases Machine.fetchAll ys m <;> rfl

/-- What stops an instruction on a destination of the same shape, or on one that its error does
not show, is the same. -/
theorem Dusty.stopOf_eq {cs cs' : List CellId} {e : Failure} (h : Dusty k R m m') (hw : k.Working)
    (hnote : env.program.Notes x.note) (hd : k d ≠ .data)
    (hc : m.memory.cell? d = some c) (hc' : m'.memory.cell? d = some c')
    (hcs : List.Forall₂ R cs cs') (hn : n.world = m.world) (hn' : n'.world = m'.world)
    (ht : Tied False (Known k) R n n')
    (herr : ∀ e', stopOf pc x (c' :: cs') n' e = .data e' → k d ≠ .nothing) :
    stopOf pc x (c :: cs) n e = stopOf pc x (c' :: cs') n' e := by
  cases e with
  | abort a => rfl
  | data e =>
    refine ht.dataStop_eq_of_shapes (known_note hw hnote) fun text htext => ?_
    have hkd : k d = .shape := by
      have hne := herr ⟨pc, x, (c' :: cs').map n'.world.store.shape, text, e⟩ (by
        rw [stopOf, dataStop, htext])
      cases hk : k d <;> simp_all
    simp only [store, hn, hn', List.map_cons]
    rw [show m.world.store.shape c = _ from h.shapes hkd hc hc', map_shape_eq h.tied.store hcs]

/-- An instruction that overwrites an unknown destination, once its operands are fetched. -/
theorem Dusty.step_fetched {cs cs' : List CellId} (h : Dusty k R m m') (hw : k.Working)
    (hconf : ∀ link, env.linker = some link → link.Confined)
    (hx : instructionAt? env.program pc = some x) (hadm : x.Admissible env.program)
    (hops : x.operands = d :: ys) (hd : k d ≠ .data) (hys : ∀ y ∈ ys, k y = .data)
    (hf : Machine.fetchAll x.operands m = .ok (c :: cs) n)
    (hf' : Machine.fetchAll x.operands m' = .ok (c' :: cs') n')
    (hle : R.Below R') (hn : Dusty k R' n n') (hc : n.memory.cell? d = some c)
    (hc' : n'.memory.cell? d = some c') (hcs : List.Forall₂ R' cs cs')
    (hover : n'.overwrites x (k d) = true)
    (hsource : ∀ a, x.opcode = .move → n'.source? x = some a → a ∈ cs'[0]?)
    (herr : ∀ e n', step env pc m' = .error (.data e) n' → k d ≠ .nothing) :
    Stepped R (x.after k) (step env pc m) (step env pc m') := by
  have hs := step_eq_execute hx hf
  have hs' := step_eq_execute hx hf'
  have he := hn.execute_overwrites env pc hw hd hc hc' hcs hover hsource
  cases h₁ : execute env pc x (c :: cs) n <;> cases h₂ : execute env pc x (c' :: cs') n' <;>
    rw [h₁, h₂] at he <;> simp only [h₁] at hs <;> simp only [h₂] at hs' <;> rw [hs, hs']
  · obtain ⟨rfl, hres⟩ := he
    rcases hres with ⟨hall, hd₂⟩ | ⟨hall, R₂, hle₂, ht⟩
    · rw [after_of_allocates hops hall]
      exact ⟨rfl, R', hle, hd₂⟩
    · rw [after_of_stores hops hall (of_overwrites hover).1]
      refine ⟨rfl, h.stored hw hconf hx hadm (fun y hy => ?_) hs hs'
        (fun e e' he => hle₂ e e' (hle e e' he)) ht⟩
      by_contra hne
      obtain ⟨hyd, hky⟩ := Ledger.ne_data_of_set hne
      rw [hops] at hy
      exact hky (hys y ((List.mem_cons.mp hy).resolve_left hyd))
  · exact he.elim
  · exact he.elim
  · obtain ⟨rfl, hw₁, hw₂, ht⟩ := he
    refine ⟨hn.stopOf_eq hw hadm.notes hd hc hc' hcs hw₁ hw₂ ht fun e' he' => ?_, k, R', hle, ht⟩
    exact herr e' _ (hs'.trans (by rw [he']))

/-- Instructions that overwrite an unknown destination. -/
theorem Dusty.step_overwrites (h : Dusty k R m m') (hw : k.Working)
    (hconf : ∀ link, env.linker = some link → link.Confined)
    (hx : instructionAt? env.program pc = some x) (hadm : x.Admissible env.program)
    (hops : x.operands = d :: ys) (hd : k d ≠ .data) (hys : ∀ y ∈ ys, k y = .data)
    (hover : m'.overwrites x (k d) = true)
    (herr : ∀ e n', step env pc m' = .error (.data e) n' → k d ≠ .nothing) :
    Stepped R (x.after k) (step env pc m) (step env pc m') := by
  have hown := hw.isOwn hd
  have habs : d.part ≠ .absent := by
    rcases hown with hp | hp | hp <;> simp [hp]
  rcases fetch_cases (h.tied.sizes (Memory.stack_ne_of_own hown)) habs with
    ⟨c, c', hc, hc'⟩ | ⟨a, h₁, h₂⟩
  · have hknown : ∀ y ∈ ys, y.part = .absent ∨ Known k y := fun y hy =>
      known_of_knows (hadm.knows y (by simp [hops, hy])) (hys y hy)
    have hrest := h.fetchAll hw hknown
    obtain ⟨j, hj, hok⟩ := fetchAll_spec ys m'
    have hf : Machine.fetchAll (d :: ys) m = _ := fetchAll_cons_of_cell hc
    have hf' : Machine.fetchAll (d :: ys) m' = _ := fetchAll_cons_of_cell hc'
    rw [← hops] at hf hf'
    cases h₁ : Machine.fetchAll ys m <;> cases h₂ : Machine.fetchAll ys m' <;>
      rw [h₁, h₂] at hrest <;> rw [h₁] at hf <;> rw [h₂] at hf'
    · rename_i cs n cs' n'
      rw [h₂] at hj
      obtain rfl : n' = m'.grown j := hj
      obtain ⟨hmem, -, R₁, hle, hn, hcs⟩ := hrest
      exact h.step_fetched hw hconf hx hadm hops hd hys hf hf' hle hn (hmem ▸ hc) hc' hcs
        ((overwrites_grown h.dusted'.sound j).trans hover)
        (fun a hmove ha => mem_of_source hmove hops (hok _ _ h₂) ha) herr
    · exact hrest.elim
    · exact hrest.elim
    · obtain ⟨rfl, R₁, hle, hn⟩ := hrest
      rw [step_of_fetchAll_error hx hf, step_of_fetchAll_error hx hf']
      exact ⟨rfl, k, R₁, hle, hn.tied⟩
  · rw [step_of_fetchAll_error hx (hops ▸ fetchAll_cons_of_error h₁),
      step_of_fetchAll_error hx (hops ▸ fetchAll_cons_of_error h₂)]
    exact ⟨rfl, k, R, fun _ _ => id, h.tied⟩

theorem after_of_known (hk : ∀ y ∈ x.operands, k y = .data) : x.after k = k := by
  unfold Instruction.after
  cases hops : x.operands with
  | nil => rfl
  | cons d ys =>
    have hd : k d = .data := hk d (by simp [hops])
    simp [Ledger.shaped, hd, Ledger.set_eq_self hd]

theorem after_of_noOperation (hno : Accelerator.isNoOperation x.opcode = true) : x.after k = k := by
  unfold Instruction.after
  cases hop : x.opcode <;> rw [hop] at hno <;> cases hno <;>
    cases x.operands <;> simp [Opcode.allocates, Opcode.writes]

theorem Ledger.Working.after (hw : k.Working) : (x.after k).Working := by
  unfold Instruction.after
  split
  · exact hw
  · split
    · exact Ledger.Working.shaped hw
    · split
      · exact Ledger.Working.set_data hw
      · exact hw

/-- A step that looks at nothing unknown is the same on both machines. -/
theorem Dusty.step (h : Dusty k R m m') (hw : k.Working) (hwf : env.program.WellFormed)
    (hconf : ∀ link, env.linker = some link → link.Confined)
    (hlink : ∀ link, env.linker = some link → link.Respects False)
    (hx : instructionAt? env.program pc = some x) (hadmits : m'.admits k x = true)
    (herr : ∀ e n', step env pc m' = .error (.data e) n' → ∀ y ∈ x.operands, k y ≠ .nothing) :
    Stepped R (x.after k) (step env pc m) (step env pc m') := by
  have hadm := hwf.admissible hx
  simp only [admits, Bool.or_eq_true] at hadmits
  rcases hadmits with hno | hlooks
  · rw [after_of_noOperation hno]
    exact h.step_noOperation hw hx hadm.knows hno
  · cases hops : x.operands with
    | nil =>
      have hk : ∀ y ∈ x.operands, k y = .data := by simp [hops]
      rw [after_of_known hk]
      exact h.step_known hw hconf hlink hx hadm hk
    | cons d ys =>
      simp only [hops, Bool.and_eq_true, List.all_eq_true, decide_eq_true_eq,
        Bool.or_eq_true] at hlooks
      obtain ⟨hys, hd⟩ := hlooks
      by_cases hkd : k d = .data
      · have hk : ∀ y ∈ x.operands, k y = .data := by
          rw [hops]
          exact List.forall_mem_cons.mpr ⟨hkd, hys⟩
        rw [after_of_known hk]
        exact h.step_known hw hconf hlink hx hadm hk
      · exact h.step_overwrites hw hconf hx hadm hops hkd hys (hd.resolve_left hkd)
          fun e n' he => herr e n' he d (by simp [hops])

/-- How two runs end that assign before they look: alike, with paired containers at all addresses
that are known then. -/
def Reruns (R : Pairing) (result : Operand) (r r' : Except Stop Unit × Nat × Traced) : Prop :=
  r.1 = r'.1 ∧ r.2.1 = r'.2.1 ∧ ∃ (k : Ledger) (R' : Pairing), R.Below R' ∧
    Tied False (Known k) R' r.2.2.machine r'.2.2.machine ∧ (r'.1 = .ok () → k result = .data)

/-- Runs on two machines that differ in unknown containers only, of which the second one assigns
before it looks. -/
theorem Dusty.drive {z z' : Traced} {result : Operand} {stop : Stop} {fuel steps : Nat}
    (h : Dusty k R z.machine z'.machine) (hw : k.Working) (hwf : env.program.WellFormed)
    (hconf : ∀ link, env.linker = some link → link.Confined)
    (hlink : ∀ link, env.linker = some link → link.Respects False)
    (hfirst : z'.machine.assignsFirst env result fuel k pc = true) :
    Reruns R result
      (VectorMachine.drive env.program.code.size (Traced.step env) stop fuel steps pc z)
      (VectorMachine.drive env.program.code.size (Traced.step env) stop fuel steps pc z') := by
  induction fuel generalizing k R steps pc z z' with
  | zero =>
    unfold assignsFirst at hfirst
    unfold VectorMachine.drive
    split at hfirst
    · rename_i hout
      rw [if_pos hout, if_pos hout]
      exact ⟨rfl, rfl, k, R, fun _ _ => id, h.tied, fun _ => of_decide_eq_true hfirst⟩
    · rename_i hin
      rw [if_neg hin, if_neg hin]
      exact ⟨rfl, rfl, k, R, fun _ _ => id, h.tied, fun he => by cases he⟩
  | succ fuel ih =>
    unfold assignsFirst at hfirst
    unfold VectorMachine.drive
    obtain ⟨trace, width, hz⟩ := Traced.step_eq env pc z
    obtain ⟨trace', width', hz'⟩ := Traced.step_eq env pc z'
    split at hfirst
    · rename_i hout
      rw [if_pos hout, if_pos hout]
      exact ⟨rfl, rfl, k, R, fun _ _ => id, h.tied, fun _ => of_decide_eq_true hfirst⟩
    · rename_i hin
      rw [if_neg hin, if_neg hin, hz, hz']
      cases hx : instructionAt? env.program pc with
      | none =>
        simp only [Machine.step, hx]
        exact ⟨rfl, rfl, k, R, fun _ _ => id, h.tied, fun he => by cases he⟩
      | some x =>
        simp only [hx, Bool.and_eq_true] at hfirst
        obtain ⟨hadmits, hnext⟩ := hfirst
        have hstep := h.step hw hwf hconf hlink hx hadmits fun e n' he y hy => by
          simp only [he, List.all_eq_true, decide_eq_true_eq] at hnext
          exact hnext y hy
        cases h₁ : Machine.step env pc z.machine <;> cases h₂ : Machine.step env pc z'.machine <;>
          rw [h₁, h₂] at hstep
        · obtain ⟨rfl, R₁, hle₁, hd₁⟩ := hstep
          rw [h₂] at hnext
          rename_i next n n'
          obtain ⟨hout, hsteps, k₂, R₂, hle₂, hrest⟩ := @ih (x.after k) R₁ next
            ⟨n, trace, width⟩ ⟨n', trace', width'⟩ (steps + 1) hd₁ (Ledger.Working.after hw) hnext
          exact ⟨hout, hsteps, k₂, R₂, fun c c' hc => hle₂ c c' (hle₁ c c' hc), hrest⟩
        · exact hstep.elim
        · exact hstep.elim
        · obtain ⟨rfl, k₁, R₁, hle₁, ht₁⟩ := hstep
          exact ⟨rfl, rfl, k₁, R₁, hle₁, ht₁, fun he => by cases he⟩

theorem admits_of_known (hk : ∀ y, k y = .data) : m.admits k x = true := by
  unfold admits
  cases x.operands <;> simp [hk]

/-- A run that knows everything looks at nothing unknown. -/
theorem assignsFirst_of_known (hk : ∀ y, k y = .data) (result : Operand) (fuel : Nat) :
    m.assignsFirst env result fuel k pc = true := by
  induction fuel generalizing m pc with
  | zero =>
    unfold assignsFirst
    split
    · simp [hk]
    · rfl
  | succ fuel ih =>
    unfold assignsFirst
    split
    · simp [hk]
    · cases instructionAt? env.program pc with
      | none => rfl
      | some x =>
        simp only [Bool.and_eq_true, after_of_known fun y _ => hk y]
        refine ⟨admits_of_known hk, ?_⟩
        cases Machine.step env pc m with
        | ok next n => exact ih
        | error e n => cases e <;> simp [hk]

/-! ### Used and new memories -/

variable {base : Nat}

/-- The pairs that a run starts with on two memories: those of other containers, and the own ones
that are known. -/
def Starting (k : Ledger) (R : Pairing) (m m' : Machine) : Pairing := fun c c' =>
  (R c c' ∧ ¬ m.IsGuard Operand.IsOwn c ∧ ¬ m'.IsGuard Operand.IsOwn c') ∨
    ∃ y : Operand, y.IsOwn ∧ k y = .data ∧ m.memory.cell? y = some c ∧
      m'.memory.cell? y = some c'

theorem Guarded.dusted (h : m.Guarded base Operand.IsOwn) (hw : k.Working)
    (hstack : m.memory.stack = #[])
    (hspare : ∀ {y c}, k y ≠ .data → m.memory.cell? y = some c → m.store.Spare c) : m.Dusted k where
  sound := h.sound
  spare := fun ⟨_, hy, hc⟩ => hspare hy hc
  addressable := h.addressable
  off_stack := by simp [hstack]
  off_globals := by
    rintro y c hy hc ⟨z, hz, hzc⟩
    exact Nat.not_lt.mpr (h.apart.own_ge (hw.isOwn hz) hzc) (h.apart.globals_lt hy hc)
  distinct := h.apart.own_inj

/-- Containers from before both memories were made are paired with themselves. -/
theorem Starting.host (h : m.Guarded base Operand.IsOwn) (h' : m'.Guarded base Operand.IsOwn)
    (hR : ∀ c, c < base → R c c) (hc : c < base) : Starting k R m m' c c := by
  refine .inl ⟨hR c hc, ?_, ?_⟩
  · rintro ⟨y, hy, hyc⟩
    exact Nat.not_lt.mpr (h.apart.own_ge hy hyc) hc
  · rintro ⟨y, hy, hyc⟩
    exact Nat.not_lt.mpr (h'.apart.own_ge hy hyc) hc

/-- The pairs of a start agree: own cells are isolated, so they extend any pairs of others. -/
theorem Starting.matches (h : m.Guarded base Operand.IsOwn) (h' : m'.Guarded base Operand.IsOwn)
    (hstore : Matches False R m.store m'.store)
    (hsame : ∀ {y c c'}, y.IsOwn → k y = .data → m.memory.cell? y = some c →
      m'.memory.cell? y = some c' →
      Store.SameData m.store (m.store.cell c) m'.store (m'.store.cell c')) :
    Matches False (Starting k R m m') m.store m'.store := by
  refine Store.Matches.join (hstore.restrict And.left fun _ ht ht' hcd => ⟨hcd,
    fun hd => (h.isolated hd).unlinked _ ht, fun hd => (h'.isolated hd).unlinked _ ht'⟩) ?_ ?_ ?_
  · rintro c c' ⟨y, hy, hk, hc, hc'⟩
    exact ⟨h.isolated ⟨y, hy, hc⟩, h'.isolated ⟨y, hy, hc'⟩, hsame hy hk hc hc'⟩
  · rintro c c' d d' ⟨y, hy, -, hc, hc'⟩ ⟨z, hz, -, hd, hd'⟩
    refine ⟨fun he => ?_, fun he => ?_⟩
    · obtain rfl := h.apart.own_inj hy hz hc (he ▸ hd)
      exact Option.some.inj (hc'.symm.trans hd')
    · obtain rfl := h'.apart.own_inj hy hz hc' (he ▸ hd')
      exact Option.some.inj (hc.symm.trans hd)
  · rintro c c' d d' ⟨-, hn, hn'⟩ ⟨z, hz, -, hd, hd'⟩
    exact ⟨fun he => hn (he ▸ ⟨z, hz, hd⟩), fun he => hn' (he ▸ ⟨z, hz, hd'⟩)⟩

/-- The known addresses have paired cells. -/
theorem Starting.cells (h : m.Guarded base Operand.IsOwn) (h' : m'.Guarded base Operand.IsOwn)
    (hR : ∀ c, c < base → R c c) (hglobals : m.memory.globals = m'.memory.globals)
    (hsizes : ∀ {p}, p ≠ .stack →
      (m.memory.cells? p).map Array.size = (m'.memory.cells? p).map Array.size)
    (hy : Known k y) :
    Option.Rel (Starting k R m m') (m.memory.cell? y) (m'.memory.cell? y) := by
  rcases hy with ⟨hp | hp, hyk⟩
  · have hcell : m'.memory.cell? y = m.memory.cell? y := by
      simp only [Memory.cell?, hp, Memory.cells?, hglobals]
    rw [hcell]
    cases hc : m.memory.cell? y with
    | none => exact .none
    | some c => exact .some (host h h' hR (h.apart.globals_lt hp hc))
  · have hiff := cell?_eq_none_congr (hsizes (Memory.stack_ne_of_own hp))
    cases hc : m.memory.cell? y with
    | none =>
      rw [hiff.mp hc]
      exact .none
    | some c =>
      cases hc' : m'.memory.cell? y with
      | none => simp [hiff.mpr hc'] at hc
      | some c' => exact .some (.inr ⟨y, hp, hyk, hc, hc'⟩)

/-- No pair of a start is of an unknown container. -/
theorem Starting.apart (h : m.Guarded base Operand.IsOwn) (h' : m'.Guarded base Operand.IsOwn)
    (hw : k.Working) (hc : Starting k R m m' c c') : ¬ m.Dust k c ∧ ¬ m'.Dust k c' := by
  rcases hc with ⟨-, hn, hn'⟩ | ⟨y, hy, hyk, hc, hc'⟩
  · constructor
    · rintro ⟨z, hz, hzc⟩
      exact hn ⟨z, hw.isOwn hz, hzc⟩
    · rintro ⟨z, hz, hzc⟩
      exact hn' ⟨z, hw.isOwn hz, hzc⟩
  · constructor
    · rintro ⟨z, hz, hzc⟩
      exact hz (h.apart.own_inj hy (hw.isOwn hz) hc hzc ▸ hyk)
    · rintro ⟨z, hz, hzc⟩
      exact hz (h'.apart.own_inj hy (hw.isOwn hz) hc' hzc ▸ hyk)

/-- Two memories of the same sizes, the own cells of which are apart from everything else, differ in
unknown containers only. -/
theorem dusty_of_guarded (h : m.Guarded base Operand.IsOwn) (h' : m'.Guarded base Operand.IsOwn)
    (hstore : Matches False R m.store m'.store) (hR : ∀ c, c < base → R c c)
    (hjournal : m.world.journal = m'.world.journal) (hrunning : m.running = m'.running)
    (hstack : m.memory.stack = #[]) (hstack' : m'.memory.stack = #[])
    (hglobals : m.memory.globals = m'.memory.globals)
    (hsizes : ∀ {p}, p ≠ .stack →
      (m.memory.cells? p).map Array.size = (m'.memory.cells? p).map Array.size)
    (hw : k.Working) (hk : ∀ y, k y ≠ .shape)
    (hspare : ∀ {y c}, k y ≠ .data → m.memory.cell? y = some c → m.store.Spare c)
    (hspare' : ∀ {y c}, k y ≠ .data → m'.memory.cell? y = some c → m'.store.Spare c)
    (hsame : ∀ {y c c'}, y.IsOwn → k y = .data → m.memory.cell? y = some c →
      m'.memory.cell? y = some c' →
      Store.SameData m.store (m.store.cell c) m'.store (m'.store.cell c')) :
    (∀ c, c < base → Starting k R m m' c c) ∧ Dusty k (Starting k R m m') m m' := by
  refine ⟨fun _ => Starting.host h h' hR, h.dusted hw hstack hspare, h'.dusted hw hstack' hspare', ?_,
    Starting.apart h h' hw, fun hy => absurd hy (hk _)⟩
  exact {
    store := Starting.matches h h' hstore hsame
    journal := hjournal
    running := hrunning
    stack := by simp [hstack, hstack']
    off_stack := fun hy => hy.1.elim (fun hp => by simp [hp]) Memory.stack_ne_of_own
    cells := Starting.cells h h' hR hglobals hsizes
    sizes := hsizes }

end Machine

end VectorMachine
