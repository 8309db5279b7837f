import VectorMachine.Proofs.Program.Legible
import VectorMachine.Proofs.Program.SelfContained

/-!
# Where statements are emitted

The second pass of the assembler only adds: an instruction keeps its address, a name keeps what it
stands for, and a pooled text keeps its constant.  So whatever a statement emits and resolves is found
in the finished program, at the position at which the second pass came to the statement.
-/

namespace VectorMachine
set_option autoImplicit false

namespace Program

variable {p q r : Program}

/-- The program `q` has all instructions, names and constants of `p` where `p` has them, and no other
names. -/
structure Extends (p q : Program) : Prop where
  locals_eq : q.locals = p.locals
  globals_eq : q.globals = p.globals
  functions_eq : q.functions = p.functions
  labels_eq : q.labels = p.labels
  constants : ∀ {text a}, p.constants.addr? text = some a → q.constants.addr? text = some a
  code : ∀ {i : Nat} {z}, p.code[i]? = some z → q.code[i]? = some z

theorem Extends.refl (p : Program) : p.Extends p := ⟨rfl, rfl, rfl, rfl, id, id⟩

theorem Extends.trans (h : p.Extends q) (h' : q.Extends r) : p.Extends r :=
  ⟨h'.locals_eq.trans h.locals_eq, h'.globals_eq.trans h.globals_eq,
    h'.functions_eq.trans h.functions_eq, h'.labels_eq.trans h.labels_eq,
    fun ha => h'.constants (h.constants ha), fun hz => h'.code (h.code hz)⟩

theorem extends_use (p : Program) (x : Operand) : p.Extends (p.use x) := by
  unfold use
  split <;> exact ⟨rfl, rfl, rfl, rfl, id, id⟩

end Program

namespace SymbolTable

theorem addr?_intern_of_some {t : SymbolTable} {m n : String} {a : Int} (h : t.addr? m = some a) :
    (t.intern n).2.addr? m = some a := by
  unfold intern
  split
  · exact h
  · rename_i hn
    have hne : m ≠ n := by
      rintro rfl
      rw [hn] at h
      cases h
    rw [addr?_define_of_ne _ _ hne]
    exact h

end SymbolTable

namespace Assembler

variable {p q : Program} {syms : Symbols} {src w text : String} {ws : List String}
  {x z : Instruction} {y : Operand} {xs : List Operand} {e e' : Emitted} {st : Statement}
  {sts before after : List Statement}

/-! ### Operands -/

theorem extends_constant (p : Program) (text : String) : p.Extends (constant p text).2 := by
  have h : p.Extends { p with constants := (p.constants.intern text).2 } :=
    ⟨rfl, rfl, rfl, rfl, SymbolTable.addr?_intern_of_some, id⟩
  exact h.trans (Program.extends_use { p with constants := (p.constants.intern text).2 }
    ⟨.constants, (p.constants.intern text).1⟩)

theorem addr?_constant (p : Program) (text : String) :
    (constant p text).2.constants.addr? text = some (constant p text).1.addr := by
  have hc := (Program.tables_use { p with constants := (p.constants.intern text).2 }
    ⟨.constants, (p.constants.intern text).1⟩).2.2.2
  simp only [constant, hc]
  exact SymbolTable.addr?_intern _ _

theorem extends_immediate (hx : immediateOperand p text = .ok (y, q)) : p.Extends q := by
  unfold immediateOperand at hx
  split at hx
  · obtain ⟨-, rfl⟩ := Prod.mk.inj (Except.ok.inj hx)
    exact extends_constant _ _
  · cases hx

theorem extends_named (hx : namedOperand p w = .ok (y, q)) : p.Extends q := by
  unfold namedOperand at hx
  split at hx
  · cases hx
    exact .refl _
  · split at hx
    · cases hx
      exact .refl _
    · split at hx
      · obtain ⟨-, rfl⟩ := Prod.mk.inj (Except.ok.inj hx)
        exact extends_constant _ _
      · cases hx

theorem extends_label (hx : labelOperand p w = .ok (y, q)) : p.Extends q := by
  unfold labelOperand at hx
  split at hx
  · obtain ⟨-, rfl⟩ := Prod.mk.inj (Except.ok.inj hx)
    exact extends_constant _ _
  · cases hx

theorem extends_operand (hx : operand p w = .ok (y, q)) : p.Extends q := by
  unfold operand at hx
  split at hx
  · exact extends_immediate hx
  · exact extends_immediate hx
  · exact extends_named hx
  · exact extends_label hx
  · cases hx
    exact .refl _
  · split at hx
    · unfold addressOperand at hx
      split at hx
      · cases hx
      · split at hx
        · cases hx
        · cases hx
          exact Program.extends_use _ _
    · cases hx
  · cases hx

theorem extends_operands (hx : operands p ws = .ok (xs, q)) : p.Extends q := by
  induction ws generalizing p xs with
  | nil =>
    cases hx
    exact .refl _
  | cons w ws ih =>
    obtain ⟨⟨y, p₁⟩, h₁, hx⟩ := Store.bind_eq_ok.mp hx
    obtain ⟨⟨ys, p₂⟩, h₂, hx⟩ := Store.bind_eq_ok.mp hx
    cases hx
    exact (extends_operand h₁).trans (ih h₂)

/-- Every operand is resolved in a program between the one before and the one behind all operands. -/
theorem operand_at (hx : operands p ws = .ok (xs, q)) {j : Nat} (hj : ws[j]? = some w) :
    ∃ p' y q', operand p' w = .ok (y, q') ∧ xs[j]? = some y ∧ p.Extends p' ∧ q'.Extends q := by
  induction ws generalizing p xs j with
  | nil => simp at hj
  | cons v ws ih =>
    obtain ⟨⟨y, p₁⟩, h₁, hx⟩ := Store.bind_eq_ok.mp hx
    obtain ⟨⟨ys, p₂⟩, h₂, hx⟩ := Store.bind_eq_ok.mp hx
    cases hx
    cases j with
    | zero =>
      obtain rfl : v = w := Option.some.inj hj
      exact ⟨p, y, p₁, h₁, rfl, .refl p, extends_operands h₂⟩
    | succ j =>
      obtain ⟨p', y', q', hy', hj', hp', hq'⟩ := ih h₂ hj
      exact ⟨p', y', q', hy', hj', (extends_operand h₁).trans hp', hq'⟩

/-! ### Statements -/

theorem extends_instruction (hz : instruction p ws = .ok (z, q)) : p.Extends q := by
  obtain ⟨_, _, _, -, -, hargs⟩ := instruction_words hz
  exact extends_operands hargs

theorem extends_emit (e : Emitted) (z : Instruction) : e.program.Extends (emit e z).program :=
  ⟨rfl, rfl, rfl, rfl, id, fun {i z'} hi => by
    obtain ⟨hlt, -⟩ := Array.getElem?_eq_some_iff.mp hi
    simp only [emit, Array.getElem?_push_lt hlt]
    rw [← hi, Array.getElem?_eq_getElem hlt]⟩

theorem getElem?_emit (e : Emitted) (z : Instruction) :
    (emit e z).program.code[e.program.code.size]? = some { z with note := e.note } := by
  simp [emit]

theorem extends_emitInstruction (e : Emitted) (z : Instruction) :
    (emit e z).program.Extends (emitInstruction e z).program := by
  obtain ⟨result, hresult⟩ := emitInstruction_eq e z
  rw [hresult]
  dsimp only
  have h : (emit e z).program.Extends (if z.opcode = .call then
      emit (emit e z) (Instruction.landing Operand.absent) else emit e z).program := by
    split
    · exact extends_emit _ _
    · exact .refl _
  exact ⟨h.locals_eq, h.globals_eq, h.functions_eq, h.labels_eq, h.constants, h.code⟩

theorem extends_statement (hst : assembleStatement e st = .ok e') :
    e.program.Extends e'.program := by
  cases assembles_of_statement hst with
  | note => exact extends_constant _ _
  | label => exact extends_emit _ _
  | directive => exact .refl _
  | @operation z q _ hz =>
    exact (extends_instruction hz).trans ((extends_emit { e with program := q } z).trans
      (extends_emitInstruction _ z))

theorem extends_pass (h : pass assembleStatement e sts = .ok e') : e.program.Extends e'.program := by
  induction sts generalizing e with
  | nil =>
    cases h
    exact .refl _
  | cons st sts ih =>
    simp only [pass] at h
    split at h
    · rename_i e₁ hst
      exact (extends_statement hst).trans (ih h)
    · cases h

/-! ### Where a statement stands -/

/-- A pass over all statements comes to each of them. -/
theorem pass_append_cons {σ : Type} {step : σ → Statement → Except Cause σ} {x y : σ}
    (h : pass step x (before ++ st :: after) = .ok y) :
    ∃ u v, pass step x before = .ok u ∧ step u st = .ok v ∧ pass step v after = .ok y := by
  induction before generalizing x with
  | nil =>
    simp only [List.nil_append, pass] at h
    split at h
    · rename_i v hv
      exact ⟨x, v, rfl, hv, h⟩
    · cases h
  | cons st' before ih =>
    simp only [List.cons_append, pass] at h ⊢
    split at h
    · exact ih h
    · cases h

/-- The state in which the second pass comes to a statement of `sts`, behind the statements
`before`. -/
def ComesTo (syms : Symbols) (sts before : List Statement) (e : Emitted) : Prop :=
  ∃ d, pass (declare syms) {} sts = .ok d ∧
    pass assembleStatement { program := d.program } before = .ok e

theorem comesTo (hsts : statements src = .ok sts) (h : assemble src syms = .ok p)
    (hsplit : sts = before ++ st :: after) :
    ∃ e e', ComesTo syms sts before e ∧ assembleStatement e st = .ok e' ∧ e'.program.Extends p := by
  simp only [assemble, hsts] at h
  obtain ⟨d, hd, h⟩ := Store.bind_eq_ok.mp h
  obtain ⟨e, he, h⟩ := Store.bind_eq_ok.mp h
  cases h
  obtain ⟨u, v, hu, hv, hafter⟩ := pass_append_cons (hsplit ▸ he)
  exact ⟨u, v, ⟨d, hd, hu⟩, hv, extends_pass hafter⟩

/-- The second pass starts with what the first one declares. -/
theorem emits_of_declared {d : Declared} (hd : pass (declare syms) {} sts = .ok d) :
    Emits { program := d.program } ∧ d.program.code = #[] := by
  have hfresh : Fresh d.program := by
    refine pass_keeps (P := fun d => Fresh d.program) (fun _ _ _ h hst => h.declare hst) ?_ hd
    exact ⟨⟨by simp, by simp, by simp, by simp⟩, rfl, rfl⟩
  refine ⟨⟨⟨hfresh.declares, by simp [hfresh.code], ?_⟩, ⟨trivial, .inl rfl⟩⟩, hfresh.code⟩
  rw [hfresh.result]
  trivial

/-- The second pass stands behind what the statements so far stand for. -/
theorem ComesTo.emits (h : ComesTo syms sts before e) :
    Emits e ∧ (e.program.code.size : Int) = before.foldr (emittedBy · + ·) 0 := by
  obtain ⟨d, hd, he⟩ := h
  obtain ⟨hstart, hcode⟩ := emits_of_declared hd
  obtain ⟨hemits, hsize⟩ := pass_total (f := fun e => (e.program.code.size : Int)) (g := emittedBy)
    (P := Emits) (fun _ _ _ h hst => ⟨h.statement hst, size_statement h.wellFormed.declares hst⟩)
    hstart he
  exact ⟨hemits, by simpa [hcode] using hsize⟩

theorem emitted_label (hst : assembleStatement e st = .ok e') (hw : st.words.headD "" = "#LABEL") :
    e'.program.code[e.program.code.size]? =
      some { Instruction.landing Operand.absent with note := e.note } := by
  cases assembles_of_statement hst with
  | note hw' => exact absurd (hw.symm.trans hw') (by decide)
  | label => exact getElem?_emit _ _
  | directive hne => exact absurd hw hne
  | operation hop =>
    rw [hw] at hop
    exact absurd hop (by decide +kernel)

/-- A statement that is no directive emits its instruction at the position that is reached. -/
theorem emitted_operation (he : Emits e) (hst : assembleStatement e st = .ok e')
    (hop : (st.words.headD "").startsWith "#" = false) :
    ∃ z q, instruction e.program st.words = .ok (z, q) ∧ q.Extends e'.program ∧
      e'.program.code[e.program.code.size]? = some { z with note := e.note } := by
  cases assembles_of_statement hst with
  | note hw =>
    rw [hw] at hop
    exact absurd hop (by decide +kernel)
  | label hw =>
    rw [hw] at hop
    exact absurd hop (by decide +kernel)
  | directive _ hw =>
    rw [hop] at hw
    cases hw
  | @operation z q _ hz =>
    refine ⟨z, q, hz, (extends_emit { e with program := q } z).trans (extends_emitInstruction _ z), ?_⟩
    have hcode := (instruction_ok he.wellFormed.declares hz).1.code
    have hz' := getElem?_emit { e with program := q } z
    simp only [hcode] at hz'
    exact (extends_emitInstruction { e with program := q } z).code hz'

/-! ### Names of bindings -/

/-- Declared globals and functions have the addresses that the symbols give to their names. -/
structure Bound (syms : Symbols) (p : Program) : Prop where
  globals : ∀ x ∈ p.globals.definitions, syms.global? x.1 = some x.2
  functions : ∀ x ∈ p.functions.definitions, syms.function? x.1 = some x.2

theorem Bound.declare {d d' : Declared} (h : Bound syms d.program) (hd : declare syms d st = .ok d') :
    Bound syms d'.program := by
  cases accepts_of_declare hd with
  | operation => exact h
  | localVariable => exact ⟨h.globals, h.functions⟩
  | globalVariable _ ha =>
    refine ⟨fun x hx => ?_, h.functions⟩
    rcases List.mem_cons.mp hx with rfl | hx
    · exact ha
    · exact h.globals x hx
  | globalFunction _ hi =>
    refine ⟨h.globals, fun x hx => ?_⟩
    rcases List.mem_cons.mp hx with rfl | hx
    · exact hi
    · exact h.functions x hx
  | localFunction => exact ⟨h.globals, h.functions⟩
  | label => exact ⟨h.globals, h.functions⟩
  | info => exact ⟨h.globals, h.functions⟩
  | note => exact h
  | comment => exact h

theorem ComesTo.bound (h : ComesTo syms sts before e) : Bound syms e.program := by
  obtain ⟨d, hd, he⟩ := h
  have hbound : Bound syms d.program :=
    pass_keeps (P := fun d => Bound syms d.program) (fun _ _ _ h hst => h.declare hst)
      ⟨by simp, by simp⟩ hd
  have hext := extends_pass he
  exact ⟨hext.globals_eq ▸ hbound.globals, hext.functions_eq ▸ hbound.functions⟩

/-- A name stands for a local, for the global that the symbols bind to it, or for the constant of the
index of a function that they bind to it. -/
theorem operand_named (hp : Bound syms p) {cs : List Char} (hw : w.toList = '_' :: cs)
    (hx : operand p w = .ok (y, q)) : y.part = .locals ∨
      (y.part = .globals ∧ syms.global? w = some y.addr) ∨
      ∃ i, syms.function? w = some i ∧ constant p (integerImmediate i) = (y, q) := by
  simp only [operand, hw, namedOperand] at hx
  split at hx
  · cases hx
    exact .inl rfl
  · split at hx
    · rename_i a ha
      cases hx
      exact .inr (.inl ⟨rfl, hp.globals _ (SymbolTable.mem_of_addr? ha)⟩)
    · split at hx
      · rename_i i hi
        exact .inr (.inr ⟨i, hp.functions _ (SymbolTable.mem_of_addr? hi), Except.ok.inj hx⟩)
      · cases hx

end Assembler

end VectorMachine
