import VectorMachine.Assembler.Basic
import VectorMachine.Proofs.Store.Changes

/-!
# What the assembler guarantees

Every operand of an assembled program is absent, global, or an address that the program declares;
every instruction has as many operands as its operation takes, stores into no constant, and shares
the data of none.
-/

namespace VectorMachine
set_option autoImplicit false

theorem eq_ok_of_toOption {ε α : Type} {x : Except ε α} {a : α} (h : x.toOption = some a) :
    x = .ok a := by
  cases x with
  | error e => cases h
  | ok b =>
    cases h
    rfl

namespace SymbolTable

variable {t : SymbolTable} {n : String} {a : Int}

theorem le_foldl_max (l : List Int) (b : Int) : b ≤ l.foldl max b ∧ ∀ c ∈ l, c ≤ l.foldl max b := by
  induction l generalizing b with
  | nil => simp
  | cons d l ih =>
    obtain ⟨h₁, h₂⟩ := ih (max b d)
    refine ⟨by simp only [List.foldl_cons]; omega, fun c hc => ?_⟩
    rcases List.mem_cons.mp hc with rfl | hc
    · simp only [List.foldl_cons]
      omega
    · exact h₂ c hc

theorem le_greatest (h : (n, a) ∈ t.definitions) : a ≤ t.greatest := by
  unfold greatest
  have ha : a ∈ t.definitions.map (·.2) := List.mem_map.mpr ⟨_, h, rfl⟩
  split
  · rename_i hl
    simp [hl] at ha
  · rename_i b rest hl
    rw [hl] at ha
    rcases List.mem_cons.mp ha with rfl | ha
    · exact (le_foldl_max rest a).1
    · exact (le_foldl_max rest b).2 a ha

theorem mem_of_addr? (h : t.addr? n = some a) : (n, a) ∈ t.definitions := by
  obtain ⟨l, r, hl, -⟩ := List.lookup_eq_some_iff.mp h
  simp [hl]

theorem neg_one_le_greatest (h : ∀ x ∈ t.definitions, (0 : Int) ≤ x.2) : -1 ≤ t.greatest := by
  cases hd : t.definitions with
  | nil => simp [greatest, hd]
  | cons x l =>
    have hx : x ∈ t.definitions := by simp [hd]
    have h₁ := h x hx
    have h₂ := le_greatest (n := x.1) (a := x.2) hx
    omega

/-- Interned addresses are nonnegative and within the greatest one. -/
theorem intern_spec (h : ∀ x ∈ t.definitions, (0 : Int) ≤ x.2) :
    0 ≤ (t.intern n).1 ∧ (t.intern n).1 ≤ (t.intern n).2.greatest ∧
      t.greatest ≤ (t.intern n).2.greatest ∧ ∀ x ∈ (t.intern n).2.definitions, (0 : Int) ≤ x.2 := by
  unfold intern
  split
  · rename_i a ha
    have hm := mem_of_addr? ha
    exact ⟨h _ hm, le_greatest hm, Int.le_refl _, h⟩
  · have hg := neg_one_le_greatest h
    have hnew := le_greatest (t := t.define n (t.greatest + 1)) (n := n) (a := t.greatest + 1)
      (by simp [define])
    refine ⟨by simp only; omega, hnew, by simp only; omega, fun x hx => ?_⟩
    simp only [define, List.mem_cons] at hx
    rcases hx with rfl | hx
    · simp only
      omega
    · exact h x hx

end SymbolTable

namespace Program

variable {p q : Program} {x : Operand}

/-- Whether an operand stands for nothing, for a global, or for an address that the program
declares. -/
def Knows (p : Program) (x : Operand) : Prop :=
  match x.part with
  | .absent | .globals => True
  | .locals => 0 ≤ x.addr ∧ x.addr ≤ p.extent.locals
  | .registers => 0 ≤ x.addr ∧ x.addr ≤ p.extent.registers
  | .constants => 0 ≤ x.addr ∧ x.addr ≤ p.constants.greatest
  | .stack | .unknown _ => False

/-- `q` declares at least the addresses of `p`. -/
structure Covers (q p : Program) : Prop where
  locals : p.extent.locals ≤ q.extent.locals
  registers : p.extent.registers ≤ q.extent.registers
  constants : p.constants.greatest ≤ q.constants.greatest

theorem Covers.refl (p : Program) : p.Covers p := ⟨Int.le_refl _, Int.le_refl _, Int.le_refl _⟩

theorem Covers.trans {r : Program} (h : r.Covers q) (h' : q.Covers p) : r.Covers p :=
  ⟨Int.le_trans h'.locals h.locals, Int.le_trans h'.registers h.registers,
    Int.le_trans h'.constants h.constants⟩

theorem Knows.mono (h : q.Covers p) (hx : p.Knows x) : q.Knows x := by
  unfold Knows at *
  have := h.locals
  have := h.registers
  have := h.constants
  split <;> simp_all <;> omega

theorem covers_use (p : Program) (x : Operand) : (p.use x).Covers p := by
  unfold use
  split <;> constructor <;> first | exact Int.le_refl _ | exact Int.le_max_left _ _

theorem knows_use (hx : x.part = .locals ∨ x.part = .registers) (ha : 0 ≤ x.addr) :
    (p.use x).Knows x := by
  rcases hx with hx | hx
  · simp only [Knows, use, hx]
    omega
  · simp only [Knows, use, hx]
    omega

/-- What holds of the declarations while a program is assembled. -/
structure Declares (p : Program) : Prop where
  locals : ∀ x ∈ p.locals.definitions, 0 ≤ x.2 ∧ x.2 ≤ p.extent.locals
  constants : ∀ x ∈ p.constants.definitions, (0 : Int) ≤ x.2
  locals_ge : -1 ≤ p.extent.locals
  registers_ge : -1 ≤ p.extent.registers

theorem Declares.use (h : p.Declares) (x : Operand) : (p.use x).Declares := by
  have hc := covers_use p x
  have hl := hc.locals
  have hr := hc.registers
  refine ⟨fun y hy => ?_, fun y hy => ?_, Int.le_trans h.locals_ge hl,
    Int.le_trans h.registers_ge hr⟩
  · have hy' : y ∈ p.locals.definitions := by
      unfold Program.use at hy
      split at hy <;> exact hy
    have := h.locals y hy'
    exact ⟨this.1, Int.le_trans this.2 hl⟩
  · refine h.constants y ?_
    unfold Program.use at hy
    split at hy <;> exact hy

end Program

/-- Whether an operand can stand as a note: it is absent or a constant. -/
def Program.Notes (p : Program) (x : Operand) : Prop :=
  p.Knows x ∧ (x.part = .absent ∨ x.part = .constants)

theorem Program.Notes.mono {p q : Program} {x : Operand} (h : q.Covers p) (hx : p.Notes x) :
    q.Notes x :=
  ⟨hx.1.mono h, hx.2⟩

/-- Only operations have names that programs can use. -/
theorem Opcode.known_of_name {word : String} {op : Opcode} (h : Opcode.ofName? word = some op)
    (n : UInt8) : op ≠ .unknown n := by
  rintro rfl
  have := List.mem_of_find?_eq_some h
  simp [Opcode.all] at this

/-- What the assembler promises of an instruction in a program. -/
structure Instruction.Admissible (p : Program) (x : Instruction) : Prop where
  arity : x.opcode.arity.admits x.operands.length = true
  known : ∀ n, x.opcode ≠ .unknown n
  knows : ∀ y ∈ x.operands, p.Knows y
  notes : p.Notes x.note
  destination : x.opcode.writes = true → ∀ y, x.operands[0]? = some y → y.part ≠ .constants
  source : x.opcode = .refer ∨ x.opcode = .referElement →
    ∀ y, x.operands[1]? = some y → y.part ≠ .constants

theorem Instruction.Admissible.mono {p q : Program} {x : Instruction} (h : q.Covers p)
    (hx : x.Admissible p) : x.Admissible q :=
  ⟨hx.arity, hx.known, fun y hy => (hx.knows y hy).mono h, hx.notes.mono h, hx.destination, hx.source⟩

namespace Program

/-- What the assembler promises of a program. -/
structure WellFormed (p : Program) : Prop where
  declares : p.Declares
  code : ∀ x ∈ p.code, x.Admissible p
  knows_result : p.Knows p.result

end Program

namespace Assembler

variable {p q : Program}

theorem knows_constant (h : p.Declares) (text : String) :
    (constant p text).2.Covers p ∧ (constant p text).2.Declares ∧
      (constant p text).2.Knows (constant p text).1 := by
  obtain ⟨h₁, h₂, h₃, h₄⟩ := SymbolTable.intern_spec (n := text) h.constants
  simp only [constant]
  have hd : Program.Declares { p with constants := (p.constants.intern text).2 } :=
    ⟨h.locals, h₄, h.locals_ge, h.registers_ge⟩
  have hc : Program.Covers { p with constants := (p.constants.intern text).2 } p :=
    ⟨Int.le_refl _, Int.le_refl _, h₃⟩
  exact ⟨(Program.covers_use _ _).trans hc, hd.use _, ⟨h₁, h₂⟩⟩

/-- What resolving operands promises, next to the operands. -/
structure Resolved (p q : Program) (xs : List Operand) : Prop where
  covers : q.Covers p
  declares : q.Declares
  knows : ∀ x ∈ xs, q.Knows x
  code : q.code = p.code
  result : q.result = p.result

theorem code_use (x : Operand) : (p.use x).code = p.code ∧ (p.use x).result = p.result := by
  unfold Program.use
  split <;> exact ⟨rfl, rfl⟩

theorem resolved_constant (h : p.Declares) (text : String) :
    Resolved p (constant p text).2 [(constant p text).1] := by
  obtain ⟨h₁, h₂, h₃⟩ := knows_constant h text
  refine ⟨h₁, h₂, by simpa using h₃, ?_, ?_⟩
  · exact (code_use _).1
  · exact (code_use _).2

theorem resolved_address {part : Partition} {w digits : String} {x : Operand} (h : p.Declares)
    (hpart : part = .registers ∨ part = .locals ∨ part = .globals)
    (hx : addressOperand p part w digits = .ok (x, q)) : Resolved p q [x] := by
  unfold addressOperand at hx
  split at hx
  · cases hx
  · split at hx
    · cases hx
    · rename_i a ha
      cases hx
      refine ⟨Program.covers_use _ _, h.use _, ?_, (code_use _).1, (code_use _).2⟩
      simp only [List.mem_singleton, forall_eq]
      rcases hpart with rfl | rfl | rfl
      · exact Program.knows_use (.inr rfl) (by simp only; omega)
      · exact Program.knows_use (.inl rfl) (by simp only; omega)
      · trivial

theorem resolved_named {w : String} {x : Operand} (h : p.Declares)
    (hx : namedOperand p w = .ok (x, q)) : Resolved p q [x] := by
  unfold namedOperand at hx
  split at hx
  · rename_i a ha
    cases hx
    have ha := h.locals _ (SymbolTable.mem_of_addr? ha)
    exact ⟨.refl _, h, by simpa [Program.Knows] using ha, rfl, rfl⟩
  · split at hx
    · cases hx
      exact ⟨.refl _, h, by simp [Program.Knows], rfl, rfl⟩
    · split at hx
      · obtain ⟨rfl, rfl⟩ := Prod.mk.inj (Except.ok.inj hx)
        exact resolved_constant h _
      · cases hx

theorem addressedPartition?_cases {c : Char} {part : Partition}
    (h : addressedPartition? c = some part) :
    part = .registers ∨ part = .locals ∨ part = .globals := by
  unfold addressedPartition? at h
  split at h <;> simp_all

theorem resolved_immediate {text : String} {x : Operand} (h : p.Declares)
    (hx : immediateOperand p text = .ok (x, q)) : Resolved p q [x] := by
  unfold immediateOperand at hx
  split at hx
  · obtain ⟨rfl, rfl⟩ := Prod.mk.inj (Except.ok.inj hx)
    exact resolved_constant h _
  · cases hx

theorem resolved_operand {w : String} {x : Operand} (h : p.Declares)
    (hx : operand p w = .ok (x, q)) : Resolved p q [x] := by
  unfold operand at hx
  split at hx
  · exact resolved_immediate h hx
  · exact resolved_immediate h hx
  · exact resolved_named h hx
  · unfold labelOperand at hx
    split at hx
    · obtain ⟨rfl, rfl⟩ := Prod.mk.inj (Except.ok.inj hx)
      exact resolved_constant h _
    · cases hx
  · cases hx
    exact ⟨.refl _, h, by simp [Program.Knows, Operand.absent], rfl, rfl⟩
  · split at hx
    · rename_i part hpart
      exact resolved_address h (addressedPartition?_cases hpart) hx
    · cases hx
  · cases hx

theorem resolved_operands {ws : List String} {xs : List Operand} (h : p.Declares)
    (hx : operands p ws = .ok (xs, q)) : Resolved p q xs := by
  induction ws generalizing p xs with
  | nil =>
    cases hx
    exact ⟨.refl _, h, by simp, rfl, rfl⟩
  | cons w ws ih =>
    obtain ⟨⟨x, p₁⟩, h₁, hx⟩ := Store.bind_eq_ok.mp hx
    obtain ⟨⟨ys, p₂⟩, h₂, hx⟩ := Store.bind_eq_ok.mp hx
    cases hx
    have r₁ := resolved_operand h h₁
    have r₂ := ih r₁.declares h₂
    refine ⟨r₂.covers.trans r₁.covers, r₂.declares, fun y hy => ?_, r₂.code.trans r₁.code,
      r₂.result.trans r₁.result⟩
    rcases List.mem_cons.mp hy with rfl | hy
    · exact (r₁.knows y (by simp)).mono r₂.covers
    · exact r₂.knows y hy

theorem length_operands {ws : List String} {xs : List Operand}
    (hx : operands p ws = .ok (xs, q)) : ws.length = xs.length := by
  induction ws generalizing p xs with
  | nil =>
    cases hx
    rfl
  | cons w ws ih =>
    obtain ⟨⟨x, p₁⟩, _, hx⟩ := Store.bind_eq_ok.mp hx
    obtain ⟨⟨ys, p₂⟩, h₂, hx⟩ := Store.bind_eq_ok.mp hx
    cases hx
    simp [ih h₂]

theorem checkWrites_ok {x : Instruction} (h : checkWrites x = .ok ()) :
    (x.opcode.writes = true → ∀ y, x.operands[0]? = some y → y.part ≠ .constants) ∧
      (x.opcode = .refer ∨ x.opcode = .referElement →
        ∀ y, x.operands[1]? = some y → y.part ≠ .constants) := by
  unfold checkWrites at h
  split at h
  · rename_i hx
    simp [hx]
  · rename_i d rest hx
    split at h
    · cases h
    · rename_i hd
      have hdst : x.opcode.writes = true → ∀ y, x.operands[0]? = some y → y.part ≠ .constants := by
        intro hw y hy hc
        simp only [hx, List.getElem?_cons_zero, Option.some.injEq] at hy
        exact hd ⟨hw, hy ▸ hc⟩
      refine ⟨hdst, fun hop y hy hc => ?_⟩
      simp only [hx, List.getElem?_cons_succ] at hy
      split at h
      · split at h
        · cases h
        · rename_i s rest hs
          simp only [List.getElem?_cons_zero, Option.some.injEq] at hy
          exact hs ⟨hop, hy ▸ hc⟩
      · simp at hy

theorem instruction_ok {words : List String} {x : Instruction} (h : p.Declares)
    (hx : instruction p words = .ok (x, q)) :
    Resolved p q x.operands ∧ ∀ note, q.Notes note → ({ x with note := note }).Admissible q := by
  unfold instruction at hx
  split at hx
  · cases hx
  · split at hx
    · cases hx
    · rename_i op hname
      split at hx
      · cases hx
      · rename_i types args
        obtain ⟨types, _, hx⟩ := Store.bind_eq_ok.mp hx
        dsimp only at hx
        split at hx
        · cases hx
        · split at hx
          · cases hx
          · rename_i harity
            obtain ⟨⟨xs, p₁⟩, hxs, hx⟩ := Store.bind_eq_ok.mp hx
            obtain ⟨_, hw, hx⟩ := Store.bind_eq_ok.mp hx
            cases hx
            have hr := resolved_operands h hxs
            obtain ⟨h₁, h₂⟩ := checkWrites_ok hw
            refine ⟨hr, fun note hn => ⟨?_, Opcode.known_of_name hname, hr.knows, hn, h₁, h₂⟩⟩
            simpa [length_operands hxs] using harity

/-- What holds while the second pass emits instructions. -/
structure Emits (e : Emitted) : Prop where
  wellFormed : e.program.WellFormed
  notes : e.program.Notes e.note

theorem Emits.extend {e : Emitted} (h : Emits e) {xs : List Operand}
    (hr : Resolved e.program q xs) : Emits { e with program := q } := by
  refine ⟨⟨hr.declares, fun x hx => ?_, ?_⟩, h.notes.mono hr.covers⟩
  · exact (h.wellFormed.code x (hr.code ▸ hx)).mono hr.covers
  · rw [hr.result]
    exact h.wellFormed.knows_result.mono hr.covers

theorem Emits.emit {e : Emitted} (h : Emits e) {x : Instruction}
    (hx : ({ x with note := e.note }).Admissible e.program) : Emits (emit e x) := by
  have hc : (Assembler.emit e x).program.Covers e.program :=
    ⟨Int.le_refl _, Int.le_refl _, Int.le_refl _⟩
  have hd := h.wellFormed.declares
  refine ⟨⟨⟨hd.locals, hd.constants, hd.locals_ge, hd.registers_ge⟩, fun y hy => ?_,
    h.wellFormed.knows_result.mono hc⟩, h.notes.mono hc⟩
  rcases Array.mem_push.mp hy with hy | rfl
  · exact (h.wellFormed.code y hy).mono hc
  · exact hx.mono hc

theorem Emits.landing {e : Emitted} (h : Emits e) :
    Emits (Assembler.emit e (Instruction.landing Operand.absent)) :=
  h.emit ⟨rfl, by simp [Instruction.landing], by simp [Instruction.landing], h.notes, by simp [Instruction.landing],
    by simp [Instruction.landing]⟩

theorem Emits.emitInstruction {e : Emitted} (h : Emits e) {x : Instruction}
    (hx : ({ x with note := e.note }).Admissible e.program) : Emits (emitInstruction e x) := by
  have h₁ := h.emit hx
  have h₂ : Emits (if x.opcode = .call then
      Assembler.emit (Assembler.emit e x) (Instruction.landing Operand.absent)
      else Assembler.emit e x) := by
    split
    · exact h₁.landing
    · exact h₁
  have hres : ∀ y ∈ x.operands, ∀ e' : Emitted, e'.program.Covers e.program → Emits e' →
      Emits { e' with program.result := y } := by
    intro y hy e' hc he'
    have hd := he'.wellFormed.declares
    have hc' : Program.Covers { e'.program with result := y } e'.program :=
      ⟨Int.le_refl _, Int.le_refl _, Int.le_refl _⟩
    exact ⟨⟨⟨hd.locals, hd.constants, hd.locals_ge, hd.registers_ge⟩,
      fun z hz => (he'.wellFormed.code z hz).mono hc', (hx.knows y hy).mono (hc'.trans hc)⟩,
      he'.notes.mono hc'⟩
  unfold Assembler.emitInstruction
  dsimp only
  split
  · rename_i hops
    refine hres _ (by simp [hops]) _ ?_ h₂
    split <;> exact ⟨Int.le_refl _, Int.le_refl _, Int.le_refl _⟩
  · exact h₂

/-- What the second pass makes of a statement that it accepts. -/
inductive Assembles (e : Emitted) (st : Statement) : Emitted → Prop
  | note : st.words.headD "" = "#META" →
      Assembles e st { program := (constant e.program ("~string:" ++ st.words.tail.headD "")).2,
                       note := (constant e.program ("~string:" ++ st.words.tail.headD "")).1 }
  | label : st.words.headD "" = "#LABEL" →
      Assembles e st (emit e (Instruction.landing Operand.absent))
  | directive : st.words.headD "" ≠ "#LABEL" → (st.words.headD "").startsWith "#" = true →
      Assembles e st e
  | operation {z : Instruction} {q : Program} : (st.words.headD "").startsWith "#" = false →
      instruction e.program st.words = .ok (z, q) →
      Assembles e st (emitInstruction { e with program := q } z)

theorem assembles_of_statement {e e' : Emitted} {st : Statement}
    (hst : assembleStatement e st = .ok e') : Assembles e st e' := by
  unfold assembleStatement at hst
  dsimp only at hst
  split at hst
  · rename_i hw
    cases hst
    exact .note hw
  split at hst
  · rename_i hw
    cases hst
    exact .label hw
  split at hst
  · rename_i hlabel hw
    cases hst
    exact .directive hlabel hw
  · rename_i hw
    obtain ⟨⟨z, q⟩, hz, hst⟩ := Store.bind_eq_ok.mp hst
    cases hst
    exact .operation (by simpa using hw) hz

theorem Emits.statement {e e' : Emitted} (h : Emits e) {st : Statement}
    (hst : assembleStatement e st = .ok e') : Emits e' := by
  cases assembles_of_statement hst with
  | note =>
    have hr := resolved_constant h.wellFormed.declares ("~string:" ++ st.words.tail.headD "")
    exact ⟨(h.extend hr).wellFormed, hr.knows _ (by simp), .inr rfl⟩
  | label => exact h.landing
  | directive => exact h
  | operation _ hx =>
    obtain ⟨hr, hadm⟩ := instruction_ok h.wellFormed.declares hx
    exact (h.extend hr).emitInstruction (hadm _ (h.notes.mono hr.covers))

theorem pass_keeps {σ : Type} {step : σ → Statement → Except Cause σ} {P : σ → Prop}
    (hstep : ∀ x y st, P x → step x st = .ok y → P y) {sts : List Statement} {x y : σ}
    (hx : P x) (h : pass step x sts = .ok y) : P y := by
  induction sts generalizing x with
  | nil =>
    cases h
    exact hx
  | cons st sts ih =>
    simp only [pass] at h
    split at h
    · rename_i z hz
      exact ih (hstep x z st hx hz) h
    · cases h

/-- What holds while the first pass declares names: there is no code yet. -/
structure Fresh (p : Program) : Prop where
  declares : p.Declares
  code : p.code = #[]
  result : p.result = Operand.absent

theorem Fresh.use (h : Fresh p) (x : Operand) : Fresh (p.use x) :=
  ⟨h.declares.use x, (code_use x).1.trans h.code, (code_use x).2.trans h.result⟩

/-- Only the tables of locals and constants and the extent matter. -/
theorem Fresh.keep (h : Fresh p) (h₁ : q.locals = p.locals) (h₂ : q.constants = p.constants)
    (h₃ : q.extent = p.extent) (h₄ : q.code = p.code) (h₅ : q.result = p.result) : Fresh q := by
  refine ⟨⟨?_, ?_, ?_, ?_⟩, h₄.trans h.code, h₅.trans h.result⟩
  · rw [h₁, h₃]
    exact h.declares.locals
  · rw [h₂]
    exact h.declares.constants
  · rw [h₃]
    exact h.declares.locals_ge
  · rw [h₃]
    exact h.declares.registers_ge

/-- What the first pass makes of a statement that it accepts. -/
inductive Accepts (syms : Symbols) (d : Declared) (st : Statement) : Declared → Prop
  | operation : (st.words.headD "").startsWith "#" = false →
      Accepts syms d st { d with next := d.next + emittedCount (st.words.headD "") }
  | localVariable : Directive.ofWord? (st.words.headD "") = some .localVariable →
      st.words.tail.headD "" ≠ "" →
      Accepts syms d st { d with
        program := { d.program with
          locals := (d.program.locals.intern (st.words.tail.headD "")).2 }.use
            ⟨.locals, (d.program.locals.intern (st.words.tail.headD "")).1⟩ }
  | globalVariable {a : Int} : Directive.ofWord? (st.words.headD "") = some .globalVariable →
      syms.global? (st.words.tail.headD "") = some a →
      Accepts syms d st { d with
        program := { d.program with
          globals := d.program.globals.define (st.words.tail.headD "") a }.use ⟨.globals, a⟩ }
  | globalFunction {i : Int} : Directive.ofWord? (st.words.headD "") = some .globalFunction →
      syms.function? (st.words.tail.headD "") = some i →
      Accepts syms d st { d with
        program.functions := d.program.functions.define (st.words.tail.headD "") i }
  | localFunction : Directive.ofWord? (st.words.headD "") = some .localFunction →
      Accepts syms d st { d with
        program.localFunctions := d.program.localFunctions ++ [st.words.tail.headD ""] }
  | label : st.words.headD "" = "#LABEL" → isLabelName (st.words.tail.headD "") = true →
      d.program.labels.addr? (st.words.tail.headD "") = none →
      Accepts syms d st { d with
        program.labels := d.program.labels.define (st.words.tail.headD "") d.next
        next := d.next + 1 }
  | info {key : InfoKey} : Directive.ofWord? (st.words.headD "") = some (.info key) →
      Accepts syms d st { d with
        program.info := d.program.info.set key (literalOr (st.words.tail.headD "")) }
  | note {text : String} : Directive.ofWord? (st.words.headD "") = some .note →
      Literal.readText (st.words.tail.headD "") = .ok text → Accepts syms d st d
  | comment : Directive.ofWord? (st.words.headD "") = some .comment → Accepts syms d st d

theorem directive_eq_label {word : String} (h : Directive.ofWord? word = some .label) :
    word = "#LABEL" := by
  unfold Directive.ofWord? at h
  split at h <;> simp_all

theorem startsWith_of_directive {word : String} {k : Directive}
    (h : Directive.ofWord? word = some k) : word.startsWith "#" = true := by
  unfold Directive.ofWord? at h
  split at h
  case h_8 =>
    obtain ⟨key, hkey, -⟩ := Option.map_eq_some_iff.mp h
    have hword : key.directive = word := by simpa using List.find?_some hkey
    rw [← hword]
    cases key <;> decide +kernel
  all_goals decide +kernel

theorem declareLocal_ok {d d' : Declared} {name : String} (h : declareLocal d name = .ok d') :
    name ≠ "" ∧ d' = { d with
      program := { d.program with locals := (d.program.locals.intern name).2 }.use
        ⟨.locals, (d.program.locals.intern name).1⟩ } := by
  unfold declareLocal at h
  split at h
  · cases h
  · rename_i hname
    split at h <;> cases h
    exact ⟨hname, rfl⟩

theorem declareGlobal_ok {syms : Symbols} {d d' : Declared} {name : String}
    (h : declareGlobal syms d name = .ok d') : ∃ a, syms.global? name = some a ∧ d' = { d with
      program := { d.program with globals := d.program.globals.define name a }.use
        ⟨.globals, a⟩ } := by
  unfold declareGlobal at h
  split at h
  · cases h
  · split at h
    · cases h
    · rename_i a ha
      cases h
      exact ⟨a, ha, rfl⟩

theorem declareFunction_ok {syms : Symbols} {d d' : Declared} {name : String}
    (h : declareFunction syms d name = .ok d') : ∃ i, syms.function? name = some i ∧
      d' = { d with program.functions := d.program.functions.define name i } := by
  unfold declareFunction at h
  split at h
  · cases h
  · split at h
    · cases h
    · rename_i i hi
      cases h
      exact ⟨i, hi, rfl⟩

theorem declareLabel_ok {d d' : Declared} {name : String} (h : declareLabel d name = .ok d') :
    isLabelName name = true ∧ d.program.labels.addr? name = none ∧
      d' = { d with
        program.labels := d.program.labels.define name d.next
        next := d.next + 1 } := by
  unfold declareLabel at h
  split at h
  · cases h
  · rename_i hname
    split at h
    · cases h
    · rename_i hnew
      cases h
      exact ⟨by simpa using hname, Option.not_isSome_iff_eq_none.mp hnew, rfl⟩

theorem accepts_of_declare {syms : Symbols} {d d' : Declared} {st : Statement}
    (hd : declare syms d st = .ok d') : Accepts syms d st d' := by
  unfold declare at hd
  dsimp only at hd
  split at hd
  · rename_i hw
    cases hd
    exact .operation (by simpa using hw)
  cases hk : Directive.ofWord? (st.words.headD "") with
  | none =>
    rw [hk] at hd
    cases hd
  | some k =>
    cases k <;> simp only [hk] at hd
    case localVariable =>
      obtain ⟨hname, rfl⟩ := declareLocal_ok hd
      exact .localVariable hk hname
    case globalVariable =>
      obtain ⟨a, ha, rfl⟩ := declareGlobal_ok hd
      exact .globalVariable hk ha
    case globalFunction =>
      obtain ⟨i, hi, rfl⟩ := declareFunction_ok hd
      exact .globalFunction hk hi
    case localFunction =>
      split at hd <;> cases hd
      exact .localFunction hk
    case label =>
      obtain ⟨hname, hnew, rfl⟩ := declareLabel_ok hd
      exact .label (directive_eq_label hk) hname hnew
    case info =>
      split at hd <;> cases hd
      exact .info hk
    case note =>
      split at hd
      · rename_i ht
        cases hd
        exact .note hk ht
      · cases hd
    case comment =>
      cases hd
      exact .comment hk

theorem Fresh.internLocal (h : Fresh p) (name : String) :
    Fresh ({ p with locals := (p.locals.intern name).2 }.use ⟨.locals, (p.locals.intern name).1⟩) := by
  have hl := h.declares.locals
  obtain ⟨h₁, h₂, h₃, h₄⟩ := SymbolTable.intern_spec (n := name) fun x hx => (hl x hx).1
  have hu : ∀ x ∈ (p.locals.intern name).2.definitions,
      x.2 ≤ max p.extent.locals (p.locals.intern name).1 := by
    intro x hx
    unfold SymbolTable.intern at hx ⊢
    split at hx
    · have := hl x hx
      omega
    · rcases List.mem_cons.mp hx with rfl | hx
      · exact Int.le_max_right _ _
      · have := hl x hx
        omega
  have hge := h.declares.locals_ge
  exact ⟨⟨fun x hx => ⟨h₄ x hx, hu x hx⟩, h.declares.constants,
    Int.le_trans hge (Int.le_max_left _ _), h.declares.registers_ge⟩, h.code, h.result⟩

theorem Fresh.declare {syms : Symbols} {d d' : Declared} {st : Statement} (h : Fresh d.program)
    (hd : declare syms d st = .ok d') : Fresh d'.program := by
  cases accepts_of_declare hd with
  | operation => exact h
  | localVariable => exact h.internLocal _
  | globalVariable =>
    dsimp only
    refine Fresh.use ?_ _
    exact h.keep rfl rfl rfl rfl rfl
  | globalFunction => exact h.keep rfl rfl rfl rfl rfl
  | localFunction => exact h.keep rfl rfl rfl rfl rfl
  | label => exact h.keep rfl rfl rfl rfl rfl
  | info => exact h.keep rfl rfl rfl rfl rfl
  | note => exact h
  | comment => exact h

theorem wellFormed_assemble {src : String} {syms : Symbols} (h : assemble src syms = .ok p) :
    p.WellFormed := by
  unfold assemble at h
  split at h
  · cases h
  · obtain ⟨d, hd, h⟩ := Store.bind_eq_ok.mp h
    obtain ⟨e, he, h⟩ := Store.bind_eq_ok.mp h
    cases h
    have hfresh : Fresh d.program := by
      refine pass_keeps (P := fun d => Fresh d.program) (fun _ _ _ h hst => h.declare hst) ?_ hd
      exact ⟨⟨by simp, by simp, by simp, by simp⟩, rfl, rfl⟩
    have hemit : Emits { program := d.program } := by
      refine ⟨⟨hfresh.declares, by simp [hfresh.code], ?_⟩, ⟨trivial, .inl rfl⟩⟩
      rw [hfresh.result]
      trivial
    exact (pass_keeps (P := Emits) (fun _ _ _ h hst => h.statement hst) hemit he).wellFormed

end Assembler

end VectorMachine
