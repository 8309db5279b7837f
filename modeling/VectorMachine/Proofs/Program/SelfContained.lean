import Mathlib.Algebra.Group.Nat.Defs
import VectorMachine.Proofs.Literal.Integers
import VectorMachine.Proofs.Machine.Allocation
import VectorMachine.Proofs.Machine.Reach
import VectorMachine.Proofs.Program.Naming

/-!
# Self-contained programs

What a program needs to run is all in it.  The first pass of the assembler gives every label the
address of its instruction, so that the code and the labels agree on its size; the second pass pools
only texts that decode and records every register that an operand names.  So a memory for the program
can be allocated, its constants hold what the pooled texts stand for, and every operand of its own
lies inside the memory.
-/

namespace VectorMachine
set_option autoImplicit false

open Literal (IsWord decodeImmediate)

namespace Program

variable {p q : Program} {a : Int} {l : List Int}

theorem pairwise_insertAscending (h : l.Pairwise (· < ·)) :
    (insertAscending a l).Pairwise (· < ·) := by
  induction l with
  | nil => simp [insertAscending]
  | cons b rest ih =>
    obtain ⟨hb, hrest⟩ := List.pairwise_cons.mp h
    simp only [insertAscending]
    split
    · rename_i hab
      refine List.pairwise_cons.mpr ⟨fun c hc => ?_, h⟩
      rcases List.mem_cons.mp hc with rfl | hc
      · exact hab
      · exact Int.lt_trans hab (hb c hc)
    · split
      · exact h
      · refine List.pairwise_cons.mpr ⟨fun c hc => ?_, ih hrest⟩
        rcases mem_insertAscending.mp hc with rfl | hc
        · omega
        · exact hb c hc

theorem tables_use (p : Program) (x : Operand) : (p.use x).locals = p.locals ∧
    (p.use x).labels = p.labels ∧ (p.use x).functions = p.functions ∧
    (p.use x).constants = p.constants := by
  unfold use
  split <;> exact ⟨rfl, rfl, rfl, rfl⟩

theorem mem_registers_use (p : Program) (x : Operand) (r : Int) :
    r ∈ (p.use x).registers ↔ r ∈ p.registers ∨ (⟨.registers, r⟩ : Operand) = x := by
  obtain ⟨part, addr⟩ := x
  unfold use
  split
  case h_4 hpart =>
    cases hpart
    simp [mem_insertAscending, or_comm]
  all_goals
    rename_i hpart
    cases hpart
    simp

theorem pairwise_registers_use (h : p.registers.Pairwise (· < ·)) (x : Operand) :
    (p.use x).registers.Pairwise (· < ·) := by
  unfold use
  split
  · exact h
  · exact h
  · exact h
  · exact pairwise_insertAscending h
  all_goals exact h

/-- What holds of the tables while operands are resolved. -/
structure Pooled (p : Program) : Prop where
  faithful : p.constants.Faithful
  dense : p.constants.Dense
  decodes : ∀ x ∈ p.constants.definitions, ∃ v, decodeImmediate x.1 = .ok v
  labels : ∀ x ∈ p.labels.definitions, IsWord x.2
  functions : ∀ x ∈ p.functions.definitions, IsWord x.2
  ascending : p.registers.Pairwise (· < ·)

theorem Pooled.keep (h : p.Pooled) (hc : q.constants = p.constants) (hl : q.labels = p.labels)
    (hf : q.functions = p.functions) (hr : q.registers.Pairwise (· < ·)) : q.Pooled :=
  ⟨hc ▸ h.faithful, hc ▸ h.dense, by simpa only [hc] using h.decodes,
    by simpa only [hl] using h.labels, by simpa only [hf] using h.functions, hr⟩

theorem Pooled.use (h : p.Pooled) (x : Operand) : (p.use x).Pooled := by
  obtain ⟨-, hlabels, hfunctions, hconstants⟩ := tables_use p x
  exact h.keep hconstants hlabels hfunctions (pairwise_registers_use h.ascending x)

end Program

namespace Assembler

variable {p q : Program} {xs : List Operand} {text w : String} {x : Operand}

/-- What resolving the operands `xs` adds to a program. -/
structure Collects (p q : Program) (xs : List Operand) : Prop where
  pooled : q.Pooled
  locals_eq : q.locals = p.locals
  labels_eq : q.labels = p.labels
  registers : ∀ r, r ∈ q.registers ↔ r ∈ p.registers ∨ (⟨.registers, r⟩ : Operand) ∈ xs

theorem Collects.refl (h : p.Pooled) (hx : x.part ≠ .registers) : Collects p p [x] := by
  refine ⟨h, rfl, rfl, fun r => ?_⟩
  simp only [List.mem_singleton, iff_self_or]
  rintro rfl
  exact absurd rfl hx

theorem collects_use (h : p.Pooled) (x : Operand) : Collects p (p.use x) [x] := by
  obtain ⟨hlocals, hlabels, -, -⟩ := Program.tables_use p x
  refine ⟨h.use x, hlocals, hlabels, fun r => ?_⟩
  rw [List.mem_singleton, Program.mem_registers_use]

/-- A text that decodes may be pooled. -/
theorem collects_constant (h : p.Pooled) (htext : ∃ v, decodeImmediate text = .ok v) :
    Collects p (constant p text).2 [(constant p text).1] := by
  have hne : text ≠ "" := by
    rintro rfl
    obtain ⟨v, hv⟩ := htext
    cases (show decodeImmediate "" = .error ⟨"", .missingSeparator⟩ from rfl).symm.trans hv
  have hpool : ({ p with constants := (p.constants.intern text).2 } : Program).Pooled := by
    refine ⟨h.faithful.intern hne, h.dense.intern, fun y hy => ?_, h.labels, h.functions,
      h.ascending⟩
    unfold SymbolTable.intern at hy
    split at hy
    · exact h.decodes y hy
    · rcases List.mem_cons.mp hy with rfl | hy
      · exact htext
      · exact h.decodes y hy
  have hc := collects_use hpool ⟨.constants, (p.constants.intern text).1⟩
  exact ⟨hc.pooled, hc.locals_eq, hc.labels_eq, hc.registers⟩

theorem collects_integer (h : p.Pooled) {i : Int} (hi : IsWord i) :
    Collects p (constant p (integerImmediate i)).2 [(constant p (integerImmediate i)).1] :=
  collects_constant h ⟨_, Literal.decode_integerImmediate hi⟩

theorem collects_immediate (h : p.Pooled) (hx : immediateOperand p text = .ok (x, q)) :
    Collects p q [x] := by
  unfold immediateOperand at hx
  split at hx
  · rename_i v hv
    obtain ⟨rfl, rfl⟩ := Prod.mk.inj (Except.ok.inj hx)
    exact collects_constant h ⟨v, hv⟩
  · cases hx

theorem collects_named (h : p.Pooled) (hx : namedOperand p w = .ok (x, q)) : Collects p q [x] := by
  unfold namedOperand at hx
  split at hx
  · cases hx
    exact .refl h (by simp)
  · split at hx
    · cases hx
      exact .refl h (by simp)
    · split at hx
      · rename_i i hi
        obtain ⟨rfl, rfl⟩ := Prod.mk.inj (Except.ok.inj hx)
        exact collects_integer h (h.functions _ (SymbolTable.mem_of_addr? hi))
      · cases hx

theorem collects_label (h : p.Pooled) (hx : labelOperand p w = .ok (x, q)) : Collects p q [x] := by
  unfold labelOperand at hx
  split at hx
  · rename_i a ha
    obtain ⟨rfl, rfl⟩ := Prod.mk.inj (Except.ok.inj hx)
    exact collects_integer h (h.labels _ (SymbolTable.mem_of_addr? ha))
  · cases hx

theorem collects_operand (h : p.Pooled) (hx : operand p w = .ok (x, q)) : Collects p q [x] := by
  unfold operand at hx
  split at hx
  · exact collects_immediate h hx
  · exact collects_immediate h hx
  · exact collects_named h hx
  · exact collects_label h hx
  · cases hx
    exact .refl h (by simp [Operand.absent])
  · split at hx
    · unfold addressOperand at hx
      split at hx
      · cases hx
      · split at hx
        · cases hx
        · cases hx
          exact collects_use h _
    · cases hx
  · cases hx

theorem collects_operands {ws : List String} (h : p.Pooled) (hx : operands p ws = .ok (xs, q)) :
    Collects p q xs := by
  induction ws generalizing p xs with
  | nil =>
    cases hx
    exact ⟨h, rfl, rfl, by simp⟩
  | cons w ws ih =>
    obtain ⟨⟨x, p₁⟩, h₁, hx⟩ := Store.bind_eq_ok.mp hx
    obtain ⟨⟨ys, p₂⟩, h₂, hx⟩ := Store.bind_eq_ok.mp hx
    cases hx
    have c₁ := collects_operand h h₁
    have c₂ := ih c₁.pooled h₂
    refine ⟨c₂.pooled, c₂.locals_eq.trans c₁.locals_eq, c₂.labels_eq.trans c₁.labels_eq,
      fun r => ?_⟩
    rw [c₂.registers, c₁.registers, List.mem_singleton, List.mem_cons, or_assoc]

/-- The words that an instruction is made of. -/
theorem instruction_words {words : List String} {z : Instruction}
    (hz : instruction p words = .ok (z, q)) : ∃ word types args, words = word :: types :: args ∧
      Opcode.ofName? word = some z.opcode ∧ operands p args = .ok (z.operands, q) := by
  unfold instruction at hz
  split at hz
  · cases hz
  · rename_i word rest
    split at hz
    · cases hz
    · rename_i op hop
      split at hz
      · cases hz
      · rename_i types args
        obtain ⟨ts, _, hz⟩ := Store.bind_eq_ok.mp hz
        dsimp only at hz
        split at hz
        · cases hz
        · split at hz
          · cases hz
          · obtain ⟨⟨ys, p₁⟩, hys, hz⟩ := Store.bind_eq_ok.mp hz
            obtain ⟨_, _, hz⟩ := Store.bind_eq_ok.mp hz
            cases hz
            exact ⟨word, types, args, rfl, hop, hys⟩

/-! ### The two passes -/

/-- How many instructions a statement stands for. -/
def emittedBy (st : Statement) : Int :=
  if (st.words.headD "").startsWith "#" then if st.words.headD "" = "#LABEL" then 1 else 0
  else emittedCount (st.words.headD "")

/-- What holds of the tables while names are declared. -/
structure Begun (d : Declared) : Prop where
  constants : d.program.constants = {}
  registers : d.program.registers = []
  locals : d.program.locals.Faithful
  labels : d.program.labels.Faithful
  placed : ∀ x ∈ d.program.labels.definitions, 0 ≤ x.2 ∧ x.2 < d.next
  next_nonneg : 0 ≤ d.next
  functions : ∀ x ∈ d.program.functions.definitions, IsWord x.2

/-- Only the tables matter. -/
theorem Begun.keep {d : Declared} (h : Begun d) (hc : q.constants = d.program.constants)
    (hr : q.registers = d.program.registers) (hloc : q.locals = d.program.locals)
    (hlab : q.labels = d.program.labels) (hf : q.functions = d.program.functions) :
    Begun { d with program := q } :=
  ⟨hc.trans h.constants, hr.trans h.registers, hloc ▸ h.locals, hlab ▸ h.labels,
    by simpa only [hlab] using h.placed, h.next_nonneg, by simpa only [hf] using h.functions⟩

theorem emittedCount_pos (word : String) : 0 < emittedCount word := by
  unfold emittedCount
  split <;> decide

theorem Begun.operation {d : Declared} (h : Begun d) {k : Int} (hk : 0 < k) :
    Begun { d with next := d.next + k } := by
  have hn := h.next_nonneg
  refine ⟨h.constants, h.registers, h.locals, h.labels, fun x hx => ?_, ?_, h.functions⟩
  · have := h.placed x hx
    exact ⟨this.1, Int.lt_trans this.2 (by simp only; omega)⟩
  · simp only
    omega

theorem Begun.internLocal {d : Declared} {name : String} (h : Begun d) (hn : name ≠ "") :
    Begun { d with
      program := { d.program with locals := (d.program.locals.intern name).2 }.use
        ⟨.locals, (d.program.locals.intern name).1⟩ } :=
  ⟨h.constants, h.registers, h.locals.intern hn, h.labels, h.placed, h.next_nonneg, h.functions⟩

theorem Begun.defineFunction {d : Declared} {name : String} {i : Int} (h : Begun d)
    (hi : IsWord i) :
    Begun { d with program.functions := d.program.functions.define name i } := by
  refine ⟨h.constants, h.registers, h.locals, h.labels, h.placed, h.next_nonneg, fun x hx => ?_⟩
  rcases List.mem_cons.mp hx with rfl | hx
  · exact hi
  · exact h.functions x hx

theorem Begun.defineLabel {d : Declared} {name : String} (h : Begun d)
    (hname : isLabelName name = true) (hnew : d.program.labels.addr? name = none) :
    Begun { d with program.labels := d.program.labels.define name d.next, next := d.next + 1 } := by
  have hn := h.next_nonneg
  have hne : name ≠ "" := by
    rintro rfl
    exact absurd hname (by decide)
  -- all labels so far stand before this one
  have hlt : ∀ x ∈ d.program.labels.definitions, x.2 ≠ d.next := by
    intro x hx
    have := (h.placed x hx).2
    omega
  refine ⟨h.constants, h.registers, h.locals, h.labels.define hne hnew hlt, fun x hx => ?_,
    by simp only; omega, h.functions⟩
  rcases List.mem_cons.mp hx with rfl | hx
  · exact ⟨hn, by simp only; omega⟩
  · have := h.placed x hx
    exact ⟨this.1, by simp only; omega⟩

/-- No other directive stands for an instruction. -/
theorem emittedBy_directive {st : Statement} {k : Directive}
    (hk : Directive.ofWord? (st.words.headD "") = some k) (hne : k ≠ .label) :
    emittedBy st = 0 := by
  have hword : st.words.headD "" ≠ "#LABEL" := by
    intro hword
    rw [hword] at hk
    exact hne (Option.some.inj hk).symm
  rw [emittedBy, if_pos (startsWith_of_directive hk), if_neg hword]

theorem emittedBy_label {st : Statement} (hw : st.words.headD "" = "#LABEL") : emittedBy st = 1 := by
  rw [emittedBy, hw, if_pos (by decide +kernel), if_pos rfl]

theorem emittedBy_operation {st : Statement} (hw : (st.words.headD "").startsWith "#" = false) :
    emittedBy st = emittedCount (st.words.headD "") := by
  rw [emittedBy, hw, if_neg Bool.false_ne_true]

/-- The first pass counts the instructions that a statement stands for. -/
theorem Accepts.next_eq {syms : Symbols} {d d' : Declared} {st : Statement}
    (h : Accepts syms d st d') : d'.next = d.next + emittedBy st := by
  have hzero : ∀ {k : Directive}, Directive.ofWord? (st.words.headD "") = some k → k ≠ .label →
      d.next = d.next + emittedBy st := fun hk hne => by
    rw [emittedBy_directive hk hne, Int.add_zero]
  cases h with
  | operation hw => rw [emittedBy_operation hw]
  | localVariable hk => exact hzero hk (by simp)
  | globalVariable hk => exact hzero hk (by simp)
  | globalFunction hk => exact hzero hk (by simp)
  | localFunction hk => exact hzero hk (by simp)
  | label hw => rw [emittedBy_label hw]
  | info hk => exact hzero hk (by simp)
  | note hk => exact hzero hk (by simp)
  | comment hk => exact hzero hk (by simp)

theorem Begun.declare {syms : Symbols} {d d' : Declared} {st : Statement} (h : Begun d)
    (hs : ∀ n i, syms.function? n = some i → IsWord i) (hd : declare syms d st = .ok d') :
    Begun d' ∧ d'.next = d.next + emittedBy st := by
  have hd := accepts_of_declare hd
  refine ⟨?_, hd.next_eq⟩
  cases hd with
  | operation => exact h.operation (emittedCount_pos _)
  | localVariable _ hn => exact h.internLocal hn
  | globalVariable => exact h.keep rfl rfl rfl rfl rfl
  | globalFunction _ hi => exact h.defineFunction (hs _ _ hi)
  | localFunction => exact h.keep rfl rfl rfl rfl rfl
  | label _ hname hnew => exact h.defineLabel hname hnew
  | info => exact h.keep rfl rfl rfl rfl rfl
  | note => exact h
  | comment => exact h

/-- A note that is declared is a string literal. -/
theorem readText_of_declare {syms : Symbols} {d d' : Declared} {st : Statement}
    (hd : declare syms d st = .ok d') (hw : st.words.headD "" = "#META") :
    ∃ t, Literal.readText (st.words.tail.headD "") = .ok t := by
  have hk : Directive.ofWord? (st.words.headD "") = some .note := by rw [hw]; rfl
  have hno : ∀ {k : Directive}, Directive.ofWord? (st.words.headD "") = some k → k = .note :=
    fun hk' => Option.some.inj (hk'.symm.trans hk)
  cases accepts_of_declare hd with
  | note _ ht => exact ⟨_, ht⟩
  | operation hop => exact absurd (startsWith_of_directive hk) (by rw [hop]; decide)
  | label hlabel => exact absurd (hw.symm.trans hlabel) (by decide)
  | _ hk' => cases hno hk'

theorem call_ofName? {word : String} {op : Opcode} (h : Opcode.ofName? word = some op) :
    op = .call ↔ word = Opcode.call.name := by
  constructor
  · rintro rfl
    have hname : Opcode.call.name = word := by simpa using List.find?_some h
    exact hname.symm
  · rintro rfl
    have : Opcode.ofName? Opcode.call.name = some .call := by decide
    exact (Option.some.inj (this.symm.trans h)).symm

/-- What holds of the tables while instructions are emitted. -/
structure Collected (p : Program) (e : Emitted) : Prop where
  pooled : e.program.Pooled
  locals_eq : e.program.locals = p.locals
  labels_eq : e.program.labels = p.labels
  used : ∀ r, r ∈ e.program.registers ↔
    ∃ z ∈ e.program.code, (⟨.registers, r⟩ : Operand) ∈ z.operands

theorem Collected.landing {e : Emitted} (h : Collected p e) :
    Collected p (emit e (Instruction.landing Operand.absent)) := by
  refine ⟨h.pooled.keep rfl rfl rfl h.pooled.ascending, h.locals_eq, h.labels_eq, fun r => ?_⟩
  refine (h.used r).trans ⟨fun ⟨z, hz, hr⟩ => ⟨z, Array.mem_push.mpr (.inl hz), hr⟩, ?_⟩
  rintro ⟨z, hz, hr⟩
  rcases Array.mem_push.mp hz with hz | rfl
  · exact ⟨z, hz, hr⟩
  · simp [Instruction.landing] at hr

theorem Collected.emit {e : Emitted} (h : Collected p e) {z : Instruction}
    (hc : Collects e.program q z.operands) (hcode : q.code = e.program.code) :
    Collected p (emit { e with program := q } z) := by
  refine ⟨hc.pooled.keep rfl rfl rfl hc.pooled.ascending, hc.locals_eq.trans h.locals_eq,
    hc.labels_eq.trans h.labels_eq, fun r => ?_⟩
  have hcode' : (Assembler.emit { e with program := q } z).program.code =
      e.program.code.push { z with note := e.note } := by
    simp only [Assembler.emit, hcode]
  rw [hcode']
  refine (hc.registers r).trans ⟨?_, ?_⟩
  · rintro (hr | hr)
    · obtain ⟨y, hy, hr⟩ := (h.used r).mp hr
      exact ⟨y, Array.mem_push.mpr (.inl hy), hr⟩
    · exact ⟨_, Array.mem_push_self, hr⟩
  · rintro ⟨y, hy, hr⟩
    rcases Array.mem_push.mp hy with hy | rfl
    · exact .inl ((h.used r).mpr ⟨y, hy, hr⟩)
    · exact .inr hr

/-- An instruction and, behind a call, the place where it returns to. -/
theorem emitInstruction_eq (e : Emitted) (z : Instruction) : ∃ result,
    emitInstruction e z =
      let e := emit e z
      let e := if z.opcode = .call then emit e (Instruction.landing Operand.absent) else e
      { e with program.result := result } := by
  unfold emitInstruction
  dsimp only
  split
  · exact ⟨_, rfl⟩
  · exact ⟨_, rfl⟩

theorem Collected.emitInstruction {e : Emitted} (h : Collected p e) {z : Instruction}
    (hc : Collects e.program q z.operands) (hcode : q.code = e.program.code) :
    Collected p (emitInstruction { e with program := q } z) := by
  obtain ⟨result, hresult⟩ := emitInstruction_eq { e with program := q } z
  rw [hresult]
  have h₁ := h.emit hc hcode
  have h₂ : Collected p (if z.opcode = .call then
      Assembler.emit (Assembler.emit { e with program := q } z)
        (Instruction.landing Operand.absent) else Assembler.emit { e with program := q } z) := by
    split
    · exact h₁.landing
    · exact h₁
  exact ⟨h₂.pooled.keep rfl rfl rfl h₂.pooled.ascending, h₂.locals_eq, h₂.labels_eq, h₂.used⟩

theorem size_emitInstruction (e : Emitted) (z : Instruction) :
    ((emitInstruction e z).program.code.size : Int) =
      e.program.code.size + if z.opcode = .call then 2 else 1 := by
  obtain ⟨result, hresult⟩ := emitInstruction_eq e z
  rw [hresult]
  dsimp only
  split
  · simp only [emit, Array.size_push]
    omega
  · simp [emit]

theorem decode_note {text : String} (h : ∃ t, Literal.readText text = .ok t) :
    ∃ v, decodeImmediate ("~string:" ++ text) = .ok v := by
  obtain ⟨t, ht⟩ := h
  have hlist : ("~string:" ++ text).toList =
      '~' :: 's' :: 't' :: 'r' :: 'i' :: 'n' :: 'g' :: ':' :: text.toList := by
    rw [String.toList_append]
    rfl
  have hsplit : Literal.splitImmediate ("~string:" ++ text) = .ok ("string", text) := by
    simp [Literal.splitImmediate, hlist, Literal.dropMark, Literal.splitAtColon?, List.takeWhile,
      List.dropWhile]
  have hname : DataType.ofName? "string" = some .string := rfl
  refine ⟨.string t, ?_⟩
  simp [decodeImmediate, hsplit, hname, Literal.readValue, ht, Except.map, Except.mapError, bind,
    Except.bind]

theorem Collected.statement {e e' : Emitted} {st : Statement} (h : Collected p e)
    (hwf : e.program.Declares)
    (hnote : st.words.headD "" = "#META" → ∃ t, Literal.readText (st.words.tail.headD "") = .ok t)
    (hst : assembleStatement e st = .ok e') : Collected p e' := by
  cases assembles_of_statement hst with
  | note hw =>
    have hc := collects_constant h.pooled (decode_note (hnote hw))
    have hcode := (resolved_constant hwf ("~string:" ++ st.words.tail.headD "")).code
    refine ⟨hc.pooled, hc.locals_eq.trans h.locals_eq, hc.labels_eq.trans h.labels_eq, fun r => ?_⟩
    rw [hc.registers, hcode, ← h.used]
    simp [constant]
  | label => exact h.landing
  | directive => exact h
  | operation _ hz =>
    obtain ⟨_, _, _, -, -, hargs⟩ := instruction_words hz
    exact h.emitInstruction (collects_operands h.pooled hargs) (instruction_ok hwf hz).1.code

theorem size_statement {e e' : Emitted} {st : Statement} (hwf : e.program.Declares)
    (hst : assembleStatement e st = .ok e') :
    (e'.program.code.size : Int) = e.program.code.size + emittedBy st := by
  cases assembles_of_statement hst with
  | note hw =>
    have hk : Directive.ofWord? (st.words.headD "") = some .note := by rw [hw]; rfl
    have hcode := (resolved_constant hwf ("~string:" ++ st.words.tail.headD "")).code
    rw [emittedBy_directive hk (by simp), hcode, Int.add_zero]
  | label hw =>
    rw [emittedBy_label hw]
    simp [emit]
  | directive hlabel hw => rw [emittedBy, if_pos hw, if_neg hlabel, Int.add_zero]
  | operation hw hz =>
    obtain ⟨word, types, args, hwords, hop, -⟩ := instruction_words hz
    have hcode := (instruction_ok hwf hz).1.code
    rw [emittedBy_operation hw, size_emitInstruction, hwords]
    simp only [hcode, List.headD_cons, emittedCount, ← call_ofName? hop]

/-! ### Whole programs -/

section Pass

variable {σ : Type} {step : σ → Statement → Except Cause σ} {sts : List Statement} {x y : σ}

/-- What every statement keeps and adds, the whole pass keeps and adds. -/
theorem pass_total {P : σ → Prop} {f : σ → Int} {g : Statement → Int}
    (hstep : ∀ x y st, P x → step x st = .ok y → P y ∧ f y = f x + g st) (hx : P x)
    (h : pass step x sts = .ok y) : P y ∧ f y = f x + sts.foldr (g · + ·) 0 := by
  induction sts generalizing x with
  | nil =>
    cases h
    exact ⟨hx, by simp⟩
  | cons st sts ih =>
    simp only [pass] at h
    split at h
    · rename_i z hz
      obtain ⟨hPz, hfz⟩ := hstep x z st hx hz
      obtain ⟨hPy, hfy⟩ := ih hPz h
      refine ⟨hPy, ?_⟩
      rw [hfy, hfz, List.foldr_cons, Int.add_assoc]
    · cases h

theorem pass_accepts (h : pass step x sts = .ok y) :
    ∀ st ∈ sts, ∃ z z', step z st = .ok z' := by
  induction sts generalizing x with
  | nil => simp
  | cons st sts ih =>
    simp only [pass] at h
    split at h
    · rename_i z hz
      intro st' hst
      rcases List.mem_cons.mp hst with rfl | hst
      · exact ⟨x, z, hz⟩
      · exact ih h st' hst
    · cases h

theorem pass_keeps_mem {P : σ → Prop}
    (hstep : ∀ x y, ∀ st ∈ sts, P x → step x st = .ok y → P y) (hx : P x)
    (h : pass step x sts = .ok y) : P y := by
  induction sts generalizing x with
  | nil =>
    cases h
    exact hx
  | cons st sts ih =>
    simp only [pass] at h
    split at h
    · rename_i z hz
      exact ih (fun x y st' hst => hstep x y st' (by simp [hst])) (hstep x z st (by simp) hx hz) h
    · cases h

end Pass

/-- What the first pass declares and the second one collects. -/
theorem collected_assemble {src : String} {syms : Symbols} (h : assemble src syms = .ok p)
    (hs : ∀ n i, syms.function? n = some i → IsWord i) (hsize : p.code.size < 2 ^ 63) :
    p.Pooled ∧ p.locals.Faithful ∧ p.labels.Faithful ∧
      (∀ x ∈ p.labels.definitions, 0 ≤ x.2 ∧ x.2 < p.code.size) ∧
      ∀ r, r ∈ p.registers ↔ ∃ z ∈ p.code, (⟨.registers, r⟩ : Operand) ∈ z.operands := by
  unfold assemble at h
  split at h
  · cases h
  · rename_i sts _
    obtain ⟨d, hd, h⟩ := Store.bind_eq_ok.mp h
    obtain ⟨e, he, h⟩ := Store.bind_eq_ok.mp h
    cases h
    obtain ⟨⟨hbegun, hfresh⟩, hnext⟩ := pass_total (f := Declared.next) (g := emittedBy)
      (P := fun d => Begun d ∧ Fresh d.program)
      (fun _ _ _ h hst => ⟨⟨(h.1.declare hs hst).1, h.2.declare hst⟩, (h.1.declare hs hst).2⟩)
      ⟨⟨rfl, rfl, SymbolTable.faithful_empty, SymbolTable.faithful_empty, by simp, by simp,
        by simp⟩,
        ⟨by simp, by simp, by simp, by simp⟩, rfl, rfl⟩ hd
    have hemit : Emits { program := d.program } := by
      refine ⟨⟨hfresh.declares, by simp [hfresh.code], ?_⟩, ⟨trivial, .inl rfl⟩⟩
      rw [hfresh.result]
      trivial
    -- both passes count the same instructions
    obtain ⟨-, hcode⟩ := pass_total (f := fun e => (e.program.code.size : Int)) (g := emittedBy)
      (P := Emits) (fun _ _ _ h hst => ⟨h.statement hst, size_statement h.wellFormed.declares hst⟩)
      hemit he
    have hcount : (e.program.code.size : Int) = d.next := by
      rw [hcode, hnext]
      simp [hfresh.code]
    have hplaced : ∀ x ∈ d.program.labels.definitions, 0 ≤ x.2 ∧ x.2 < (e.program.code.size : Int) :=
      fun x hx => hcount ▸ hbegun.placed x hx
    have hstart : Collected d.program { program := d.program } := by
      refine ⟨⟨?_, ?_, ?_, fun x hx => ?_, hbegun.functions, ?_⟩, rfl, rfl, fun r => ?_⟩
      · rw [hbegun.constants]
        exact SymbolTable.faithful_empty
      · rw [hbegun.constants]
        exact SymbolTable.dense_empty
      · simp [hbegun.constants]
      · have := hplaced x hx
        have hpow : Nat.pow 2 63 = 9223372036854775808 := rfl
        simp only [IsWord, Binary64.leastInt, Binary64.greatestInt, hpow]
        omega
      · simp [hbegun.registers]
      · simp [hbegun.registers, hfresh.code]
    have hcollected := pass_keeps_mem (P := fun e => Emits e ∧ Collected d.program e)
      (fun x y st hst h hy => by
        obtain ⟨z, z', hz⟩ := pass_accepts hd st hst
        exact ⟨h.1.statement hy, h.2.statement h.1.wellFormed.declares (readText_of_declare hz) hy⟩)
      ⟨hemit, hstart⟩ he
    obtain ⟨-, hc⟩ := hcollected
    refine ⟨hc.pooled, hc.locals_eq ▸ hbegun.locals, hc.labels_eq ▸ hbegun.labels, ?_, hc.used⟩
    rw [hc.labels_eq]
    exact hplaced

end Assembler

end VectorMachine
