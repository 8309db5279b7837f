import VectorMachine.Proofs.Machine.Frames
import VectorMachine.Proofs.Store.Courses

/-!
# Refused instructions

An instruction that refuses its data leaves everything as it was, except that an assignment from
the stack has taken the top off the stack.  This is so although instructions change containers in
place: the machine in which every change stays that was made before a failure takes the same steps.
-/

namespace VectorMachine
set_option autoImplicit false

open Store (Course)

namespace Machine

variable {m m' : Machine} {α β : Type} {env : Environment} {pc : Int} {x : Instruction}
  {ops : List CellId}

/-! ### Steps in place -/

/-- Runs a course of changes on the containers. -/
def inPlace (c : Course Unit) : Action Unit := fun m =>
  match c m.world.store with
  | .ok _ s => .ok () { m with world.store := s }
  | .error e s => .error e { m with world.store := s }

theorem inPlace_eq {c : Course Unit} {f : Store → Except Failure Store} (h : Store.Course.Carries c f) :
    inPlace c = onStore f := by
  funext m
  simp only [inPlace, onStore, h m.world.store]
  cases f m.world.store <;> rfl

/-- The course of an instruction that only changes containers. -/
def course? (x : Instruction) (ops : List CellId) : Option (Course Unit) :=
  let t := x.type
  match x.opcode, ops with
  | .arithmetic op, d :: a :: b :: _ => some (.receive d (·.arithmeticResult op t a b))
  | .compare op, d :: a :: b :: _ => some (.receive d (·.compareResult op t a b))
  | .connect op, d :: a :: b :: _ => some (.receive d (·.connectResult op t a b))
  | .negate, d :: a :: _ => some (.receive d (·.negateResult t a))
  | .not, d :: a :: _ => some (.receive d (·.complementResult t a))
  | .alloc, d :: lengths => some (.allocate t d lengths)
  | .allocLike, d :: like :: _ => some (.allocateLike t d like)
  | .free, d :: _ => some (.edit (·.free d))
  | .move, d :: a :: _ => some (.receive d fun s => s.moveResult t (s.isScalar d) a)
  | .cast, d :: a :: _ => some (.receive d fun s => s.castResult t (s.shape d) a)
  | .fill, d :: a :: _ => some (.receive d fun s => s.fillResult t (s.shape d) a)
  | .refer, d :: a :: _ => some (.edit (·.link d a))
  | .moveElement, d :: a :: indices => some (.receive d (·.elementResult t a indices))
  | .referElement, d :: a :: indices => some (.referElement d a indices)
  | _, _ => none

theorem carries_course : Option.Rel Course.Carries (course? x ops) (change? x ops) := by
  unfold course? change?
  generalize x.opcode = op
  rcases ops with _ | ⟨d, _ | ⟨a, _ | ⟨b, cs⟩⟩⟩ <;> cases op
  all_goals first
    | exact .none
    | exact .some Course.carries_receive
    | exact .some Course.carries_allocate
    | exact .some Course.carries_allocateLike
    | exact .some Course.carries_referElement
    | exact .some (Course.carries_edit _)

/-- Executes an instruction on its operand cells, every change of a container being made at once. -/
def executeInPlace (env : Environment) (pc : Int) (x : Instruction) (ops : List CellId) :
    Action Int :=
  match course? x ops with
  | some c => do inPlace c; return pc + 1
  | none => match x.opcode, ops with
    | .allocTop, d :: _ => do
      inPlace (.allocateLike x.type d (← peek))
      return pc + 1
    | .movePop, d :: _ => do
      let top ← pop
      inPlace (.receive d fun s => s.moveResult x.type (s.isScalar d) top)
      return pc + 1
    | .referPop, d :: _ => do
      let top ← pop
      inPlace (.edit (·.link d top))
      return pc + 1
    | _, _ => control env pc x ops

/-- Executes the instruction at `pc` with every change of a container being made at once, and kept
when the instruction fails afterwards. -/
def stepInPlace (env : Environment) (pc : Int) : EStateM Stop Machine Int := fun m =>
  match instructionAt? env.program pc with
  | none => .error (.abort .breakdown) m
  | some x =>
    match fetchAll x.operands m with
    | .error a m => .error (.abort a) m
    | .ok ops m =>
      match executeInPlace env pc x ops m with
      | .ok next m => .ok next m
      | .error (.abort a) m => .error (.abort a) m
      | .error (.data c) m => .error (dataStop pc x ops c m) m

theorem executeInPlace_eq : executeInPlace env pc x ops = execute env pc x ops := by
  unfold executeInPlace execute
  have hrel : Option.Rel Course.Carries (course? x ops) (change? x ops) := carries_course
  generalize course? x ops = c? at hrel ⊢
  cases hchange : change? x ops with
  | some f =>
    rw [hchange] at hrel
    cases hrel with
    | some hc => simp only [inPlace_eq hc]
  | none =>
    rw [hchange] at hrel
    cases hrel
    simp only
    split
    · rename_i d _ hop
      simp only [control, hop, onDestination, inPlace_eq Course.carries_allocateLike]
    · rename_i d _ hop
      simp only [control, hop, onDestination, inPlace_eq Course.carries_receive, Store.move]
    · rename_i d _ hop
      simp only [control, hop, onDestination, inPlace_eq (Course.carries_edit _)]
    · rfl

/-- Steps that change containers in place and keep what they changed when they fail are the steps
of the machine. -/
theorem stepInPlace_eq : stepInPlace env pc = step env pc := by
  have hexecute : executeInPlace env pc = execute env pc :=
    funext fun _ => funext fun _ => executeInPlace_eq
  funext m
  unfold stepInPlace
  rw [hexecute]
  rfl

/-! ### How a step ends -/

/-- The end of a step that stores something computed. -/
def conclude (pc : Int) (x : Instruction) (ops : List CellId) (m : Machine) :
    Except Failure Store → EStateM.Result Stop Machine Int
  | .ok s => .ok (pc + 1) { m with world.store := s }
  | .error (.data c) => .error (dataStop pc x ops c m) m
  | .error (.abort a) => .error (.abort a) m

theorem step_eq_conclude {n : Machine} {r : Except Failure Store}
    (hx : instructionAt? env.program pc = some x) (hf : fetchAll x.operands m = .ok ops n)
    (h : execute env pc x ops n = match r with
      | .ok s => .ok (pc + 1) { m' with world.store := s }
      | .error e => .error e m') : step env pc m = conclude pc x ops m' r := by
  simp only [step, hx, hf, h]
  rcases r with (_ | _) | s <;> rfl

theorem onStore_eq {f : Store → Except Failure Store} :
    (do onStore f; return pc + 1 : Action Int) m = match f m.store with
      | .ok s => .ok (pc + 1) { m with world.store := s }
      | .error e => .error e m := by
  simp only [bind, EStateM.bind, onStore, store]
  cases f m.world.store <;> rfl

/-! ### What refuses the data -/

/-- A computation that starts at `m` refuses the data only in the states `P`. -/
def RefusesIn (P : Machine → Prop) (f : Action α) (m : Machine) : Prop :=
  ∀ c m', f m = .error (.data c) m' → P m'

/-- A computation gives a result or stops for another reason than the data. -/
abbrev Accepts (f : Action α) (m : Machine) : Prop := RefusesIn (fun _ => False) f m

variable {P : Machine → Prop} {f : Action α}

theorem Accepts.refusesIn (h : Accepts f m) : RefusesIn P f m :=
  fun c m' hr => (h c m' hr).elim

theorem RefusesIn.bind {g : α → Action β} (hf : RefusesIn P f m)
    (hg : ∀ a m', f m = .ok a m' → RefusesIn P (g a) m') : RefusesIn P (f >>= g) m := by
  intro c m' h
  simp only [Bind.bind, EStateM.bind] at h
  cases hr : f m with
  | ok a m₁ =>
    rw [hr] at h
    exact hg a m₁ hr c m' h
  | error e m₁ =>
    rw [hr] at h
    cases h
    exact hf c _ hr

theorem accepts_pure {a : α} : Accepts (pure a) m := fun _ _ h => by cases h

theorem refusesIn_throw {e : Failure} (h : P m) : RefusesIn P (throw e : Action α) m := by
  intro c m' hr
  cases hr
  exact h

theorem accepts_modify {f : Machine → Machine} : Accepts (modify f) m := fun _ _ h => by cases h

theorem accepts_abortWith {a : Abort} : Accepts (abortWith a : Action α) m :=
  fun _ _ h => by cases h

theorem refusesIn_consult {f : Machine → Except Failure α} (h : P m) :
    RefusesIn P (consult f) m := by
  intro c m' hr
  unfold consult at hr
  split at hr <;> cases hr
  exact h

theorem accepts_consult {f : Machine → Except Abort α} :
    Accepts (consult fun m => (f m).mapError .abort) m := by
  intro c m' hr
  unfold consult at hr
  cases hf : f m <;> simp [hf, Except.mapError] at hr

theorem consult_ok {f : Machine → Except Failure α} {a : α} (h : consult f m = .ok a m') :
    m' = m := by
  unfold consult at h
  split at h <;> cases h
  rfl

theorem refusesIn_onStore {f : Store → Except Failure Store} (h : P m) :
    RefusesIn P (onStore f) m := by
  intro c m' hr
  unfold onStore at hr
  split at hr <;> cases hr
  exact h

theorem refusesIn_onDestination {f : CellId → Store → Except Failure Store} (h : P m) :
    RefusesIn P (onDestination ops f) m := by
  cases ops with
  | nil => exact accepts_abortWith.refusesIn
  | cons d ops => exact refusesIn_onStore h

theorem accepts_relink {f : CellId → Store → Store} :
    Accepts (onDestination ops fun d s => .ok (f d s)) m := by
  cases ops with
  | nil => exact accepts_abortWith
  | cons d ops => exact fun _ _ h => by cases h

theorem accepts_pop : Accepts pop m := by
  intro c m' h
  unfold pop at h
  split at h <;> cases h

theorem accepts_handedOver {y : Operand} {c : CellId} : Accepts (handedOver y c) m := by
  intro e m' h
  unfold handedOver at h
  split at h
  · split at h <;> cases h
  · cases h

theorem accepts_pushAll {ys : List Operand} {cs : List CellId} : Accepts (pushAll ys cs) m := by
  induction ys generalizing cs m with
  | nil => exact accepts_pure
  | cons y ys ih =>
    cases cs with
    | nil => exact accepts_pure
    | cons c cs => exact accepts_handedOver.bind fun _ _ _ => accepts_modify.bind fun _ _ _ => ih

/-- A call is refused before anything is pushed. -/
theorem refusesIn_call {p : Program} (h : P m) : RefusesIn P (call p pc x ops) m := by
  unfold call
  split
  · refine RefusesIn.bind accepts_consult.refusesIn fun f m₁ hf => ?_
    obtain rfl := consult_ok hf
    refine RefusesIn.bind (fun _ _ hr => by cases hr) fun m₂ m₃ hget => ?_
    cases hget
    have hpush : Accepts (do
        modify fun m => { m with running := f :: m.running }
        pushScalar (.int (Int64.ofInt (pc + 1)))
        pushAll (x.operands.drop 2) ‹List CellId›
        return f) m₁ :=
      accepts_modify.bind fun _ _ _ => RefusesIn.bind (fun _ _ hr => by cases hr) fun _ _ _ =>
        accepts_pushAll.bind fun _ _ _ => accepts_pure
    split
    · exact RefusesIn.bind (refusesIn_throw h) fun _ _ hr => by cases hr
    · exact hpush.refusesIn
  · exact accepts_abortWith.refusesIn

theorem accepts_pushValue : Accepts (pushValue x ops) m := by
  unfold pushValue
  split
  · exact accepts_handedOver.bind fun _ _ _ => accepts_modify
  · exact fun _ _ h => by cases h

theorem accepts_leave : Accepts (leave ops) m := by
  unfold leave
  split
  · exact accepts_consult.bind fun _ _ _ => accepts_modify
  · exact accepts_abortWith

theorem accepts_ret : Accepts (ret x ops) m :=
  accepts_pop.bind fun _ _ _ => accepts_consult.bind fun _ _ _ => accepts_pushValue.bind
    fun _ _ _ => accepts_leave.bind fun _ _ _ => accepts_pure

theorem endedName_cases (p : Program) (c : CellId) (ops : List CellId) (m : Machine) :
    endedName p (c :: ops) m = consult (fun m => (m.world.store.string c).mapError .abort) m ∨
    endedName p (c :: ops) m = (do return functionName p (← address c)) m ∨
    endedName p (c :: ops) m = (pure "" : Action String) m := by
  have hget : ∀ x : Machine → Action String, (get >>= x) m = x m m := fun _ => rfl
  simp only [endedName, hget]
  cases m.world.store.type c with
  | string => exact .inl rfl
  | int => exact .inr (.inl rfl)
  | void | any | float | bool => exact .inr (.inr rfl)

theorem endedName_spec {p : Program} : Accepts (endedName p ops) m ∧
    ∀ name m', endedName p ops m = .ok name m' → m' = m := by
  rcases ops with _ | ⟨c, ops⟩
  · exact ⟨accepts_pure, fun _ _ h => by cases h; rfl⟩
  · simp only [Accepts, RefusesIn]
    rcases endedName_cases p c ops m with heq | heq | heq <;> rw [heq]
    · exact ⟨accepts_consult, fun _ _ h => consult_ok h⟩
    · refine ⟨accepts_consult.bind fun _ _ _ => accepts_pure, fun name m' h => ?_⟩
      simp only [bind, EStateM.bind] at h
      split at h
      · rename_i hf
        cases h
        exact consult_ok hf
      · cases h
    · exact ⟨accepts_pure, fun _ _ h => by cases h; rfl⟩

theorem refusesIn_endFunction {p : Program} (h : P m) : RefusesIn P (endFunction p ops) m := by
  refine RefusesIn.bind endedName_spec.1.refusesIn fun name m₁ hname => ?_
  obtain rfl := endedName_spec.2 name m₁ hname
  exact refusesIn_throw h

/-- The state in which an instruction that refuses its data leaves the machine. -/
def Refused (op : Opcode) (m m' : Machine) : Prop :=
  if op = .movePop then
    ∃ top, m.memory.pop = .ok (top, m'.memory) ∧ m' = { m with memory := m'.memory }
  else m' = m

theorem refusesIn_control (hx : x.opcode ≠ .callExternal) :
    RefusesIn (Refused x.opcode m) (control env pc x ops) m := by
  have hsame : x.opcode ≠ .movePop → Refused x.opcode m m := fun hop => by simp [Refused, hop]
  unfold control
  split
  · rename_i hop
    refine RefusesIn.bind accepts_consult.refusesIn fun like m₁ hpeek => ?_
    -- the top is only looked at, and nothing is allocated before the refusal
    obtain rfl := consult_ok hpeek
    exact (refusesIn_onDestination (hsame (by simp [hop]))).bind fun _ _ _ =>
      accepts_pure.refusesIn
  · exact accepts_pop.refusesIn.bind fun _ _ _ => accepts_pure.refusesIn
  · rename_i hop
    refine RefusesIn.bind accepts_pop.refusesIn fun top m₁ hpop => ?_
    have hrefused : Refused x.opcode m m₁ := by
      unfold pop at hpop
      split at hpop <;> cases hpop
      rename_i hpop
      simp [Refused, hop, hpop]
    exact (refusesIn_onDestination hrefused).bind fun _ _ _ => accepts_pure.refusesIn
  · exact accepts_pop.refusesIn.bind fun _ _ _ => accepts_relink.refusesIn.bind fun _ _ _ =>
      accepts_pure.refusesIn
  · rename_i hop
    refine RefusesIn.bind (refusesIn_consult (hsame (by simp [hop]))) fun taken m₁ htaken => ?_
    split
    · exact accepts_consult.refusesIn
    · exact accepts_pure.refusesIn
  · rename_i hop
    exact refusesIn_call (hsame (by simp [hop]))
  · rename_i hop
    exact absurd hop hx
  · exact accepts_ret.refusesIn
  · rename_i hop
    exact (refusesIn_endFunction (hsame (by simp [hop]))).bind fun _ _ _ => accepts_pure.refusesIn
  all_goals first
    | exact accepts_pure.refusesIn
    | exact accepts_abortWith.refusesIn

theorem refusesIn_execute (hx : x.opcode ≠ .callExternal) :
    RefusesIn (Refused x.opcode m) (execute env pc x ops) m := by
  unfold execute
  split
  · rename_i f hf
    have hpop : x.opcode ≠ .movePop := by
      intro hop
      simp [change?, hop] at hf
    exact (refusesIn_onStore (by simp [Refused, hpop])).bind fun _ _ _ => accepts_pure.refusesIn
  · exact refusesIn_control hx

theorem of_dataStop {c : DataCause} {e : DataError} (h : dataStop pc x ops c m = .data e) :
    e.pc = pc ∧ e.instruction = x := by
  unfold dataStop at h
  split at h <;> cases h
  exact ⟨rfl, rfl⟩

/-- An instruction other than a call of host code that refuses its data leaves every container, the
stack, what is running and the journal as they were; but an assignment from the stack has removed
its top.  The error names the instruction and its address, at which the program stays.  The machine
that keeps what it changed before it failed comes to the same state. -/
theorem unchanged_of_refused {z : Instruction} {e : DataError}
    (hz : instructionAt? env.program pc = some z) (hx : z.opcode ≠ .callExternal)
    (h : step env pc m = .error (.data e) m') :
    e.pc = pc ∧ e.instruction = z ∧ stepInPlace env pc m = .error (.data e) m' ∧
      (∀ c, m'.world.store.cell c = m.world.store.cell c) ∧
      m'.world.store.buffers = m.world.store.buffers ∧
      m'.world.journal = m.world.journal ∧ m'.running = m.running ∧
      (z.opcode ≠ .movePop → m'.memory = m.memory) ∧
      (z.opcode = .movePop → ∃ top, m.memory.pop = .ok (top, m'.memory)) := by
  have hinPlace : stepInPlace env pc m = .error (.data e) m' := stepInPlace_eq ▸ h
  simp only [step, hz] at h
  obtain ⟨n, hn, -⟩ := fetchAll_spec z.operands m
  cases hf : fetchAll z.operands m with
  | error a m₁ =>
    rw [hf] at h
    cases h
  | ok cs m₁ =>
    rw [hf] at h hn
    obtain rfl : m₁ = m.grown n := hn
    simp only at h
    cases he : execute env pc z cs (m.grown n) with
    | ok next m₂ =>
      rw [he] at h
      cases h
    | error failure m₂ =>
      rw [he] at h
      cases failure with
      | abort a => cases h
      | data cause =>
        simp only [EStateM.Result.error.injEq] at h
        obtain ⟨hstop, rfl⟩ := h
        obtain ⟨hpc, hinstruction⟩ := of_dataStop hstop
        have hcell : ∀ c, (m.grown n).world.store.cell c = m.world.store.cell c :=
          fun c => Store.cell_freshMany n
        have hrefused := refusesIn_execute hx _ _ he
        refine ⟨hpc, hinstruction, hinPlace, ?_⟩
        unfold Refused at hrefused
        split at hrefused
        · rename_i hop
          obtain ⟨top, hpop, hm⟩ := hrefused
          rw [hm]
          exact ⟨hcell, rfl, rfl, rfl, fun hno => absurd hop hno, fun _ => ⟨top, hpop⟩⟩
        · rename_i hop
          subst hrefused
          exact ⟨hcell, rfl, rfl, rfl, fun _ => rfl, fun hyes => absurd hyes hop⟩

def takesTop : Program where
  code := #[{ opcode := .movePop, types := [.int], operands := [⟨.locals, 0⟩] }]

/-- A void local, and a void container on the stack. -/
def voidOnTop : Machine where
  world.store.cells := #[{}, {}]
  memory := { locals := #[0], stack := #[1] }

theorem unchanged_of_refused_void : ∃ e m',
    instructionAt? takesTop 0 =
      some { opcode := .movePop, types := [.int], operands := [⟨.locals, 0⟩] } ∧
    Opcode.movePop ≠ .callExternal ∧
    step { program := takesTop } 0 voidOnTop = .error (.data e) m' ∧ e.pc = 0 ∧
    (∀ c, m'.world.store.cell c = voidOnTop.world.store.cell c) ∧
    ∃ top, voidOnTop.memory.pop = .ok (top, m'.memory) := by
  obtain ⟨e, m', h⟩ : ∃ e m', step { program := takesTop } 0 voidOnTop = .error (.data e) m' :=
    ⟨_, _, rfl⟩
  obtain ⟨hpc, -, -, hcell, -, -, -, -, hpop⟩ := unchanged_of_refused rfl (by decide) h
  exact ⟨e, m', rfl, by decide, h, hpc, hcell, hpop rfl⟩

end Machine

end VectorMachine
