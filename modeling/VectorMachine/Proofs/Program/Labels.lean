import VectorMachine.Proofs.Program.Positions

/-!
# Labels

Both passes of the assembler walk over the same statements and count the same instructions.  So the
address that the first pass gives to a label is the position at which the second pass emits the
landing of the label, and the constant of an operand with the label is this address.
-/

namespace VectorMachine
set_option autoImplicit false

open Literal (IsWord)

namespace Assembler

variable {p q : Program} {syms : Symbols} {src label : String} {d d' : Declared} {st : Statement}
  {sts before after : List Statement} {e e' : Emitted} {a i : Int} {y : Operand}

/-- A statement that declares a label. -/
def Statement.Labels (st : Statement) (label : String) : Prop :=
  st.words.headD "" = "#LABEL" ∧ st.words.tail.headD "" = label

/-- A word that stands for a label. -/
def NamesLabel (word : String) : Prop := ∃ cs, word.toList = '&' :: cs

/-! ### The first pass -/

/-- What the first pass over a statement does to labels and addresses. -/
structure Advances (d d' : Declared) (st : Statement) : Prop where
  next : d'.next = d.next + emittedBy st
  keeps : ∀ {label a}, d.program.labels.addr? label = some a →
    d'.program.labels.addr? label = some a
  places : ∀ {label}, st.Labels label → d'.program.labels.addr? label = some d.next
  only : ∀ {label a}, d'.program.labels.addr? label = some a →
    d.program.labels.addr? label = some a ∨ st.Labels label

/-- A statement that declares no label. -/
theorem Advances.keep (hw : st.words.headD "" ≠ "#LABEL") (hnext : d'.next = d.next + emittedBy st)
    (hl : d'.program.labels = d.program.labels) : Advances d d' st :=
  ⟨hnext, fun ha => hl ▸ ha, fun h => absurd h.1 hw, fun ha => .inl (hl ▸ ha)⟩

theorem advances_define (hw : st.words.headD "" = "#LABEL")
    (hnew : d.program.labels.addr? (st.words.tail.headD "") = none) :
    Advances d { d with
      program.labels := d.program.labels.define (st.words.tail.headD "") d.next
      next := d.next + 1 } st := by
  refine ⟨by rw [emittedBy_label hw], fun {label a} ha => ?_, fun {label} hl => ?_,
    fun {label a} ha => ?_⟩
  · have hne : label ≠ st.words.tail.headD "" := by
      rintro rfl
      rw [hnew] at ha
      cases ha
    rw [SymbolTable.addr?_define_of_ne _ _ hne]
    exact ha
  · rw [← hl.2]
    exact SymbolTable.addr?_define_self _ _ _
  · by_cases hne : label = st.words.tail.headD ""
    · exact .inr ⟨hw, hne.symm⟩
    · rw [SymbolTable.addr?_define_of_ne _ _ hne] at ha
      exact .inl ha

theorem advances_declare (hd : declare syms d st = .ok d') : Advances d d' st := by
  have hd := accepts_of_declare hd
  have hnext := hd.next_eq
  have hlabel : ∀ {k : Directive}, Directive.ofWord? (st.words.headD "") = some k → k ≠ .label →
      st.words.headD "" ≠ "#LABEL" := by
    intro k hk hne hw
    rw [hw] at hk
    exact hne (Option.some.inj hk).symm
  cases hd with
  | operation hop =>
    refine .keep (fun hw => ?_) hnext rfl
    rw [hw] at hop
    exact absurd hop (by decide +kernel)
  | localVariable hk => exact .keep (hlabel hk (by simp)) hnext (Program.tables_use _ _).2.1
  | globalVariable hk => exact .keep (hlabel hk (by simp)) hnext (Program.tables_use _ _).2.1
  | globalFunction hk => exact .keep (hlabel hk (by simp)) hnext rfl
  | localFunction hk => exact .keep (hlabel hk (by simp)) hnext rfl
  | label hw _ hnew => exact advances_define hw hnew
  | info hk => exact .keep (hlabel hk (by simp)) hnext rfl
  | note hk => exact .keep (hlabel hk (by simp)) hnext rfl
  | comment hk => exact .keep (hlabel hk (by simp)) hnext rfl

theorem keeps_label (hd : pass (declare syms) d sts = .ok d')
    (ha : d.program.labels.addr? label = some a) : d'.program.labels.addr? label = some a :=
  pass_keeps (P := fun d => d.program.labels.addr? label = some a)
    (fun _ _ _ h hst => (advances_declare hst).keeps h) ha hd

/-- Every label is declared by a statement. -/
theorem exists_labels (hd : pass (declare syms) d sts = .ok d')
    (hnone : d.program.labels.addr? label = none)
    (ha : d'.program.labels.addr? label = some a) : ∃ st ∈ sts, st.Labels label := by
  by_contra hno
  refine Option.some_ne_none a (ha.symm.trans ?_)
  refine pass_keeps_mem (P := fun d => d.program.labels.addr? label = none)
    (fun x y st hst hx hy => ?_) hnone hd
  cases hy' : y.program.labels.addr? label with
  | none => rfl
  | some b =>
    rcases (advances_declare hy).only hy' with h | h
    · rw [hx] at h
      cases h
    · exact absurd ⟨st, hst, h⟩ hno

/-- A label has the address of the instructions that stand before it. -/
theorem addr?_of_labels (hd : pass (declare syms) {} (before ++ st :: after) = .ok d)
    (hl : st.Labels label) :
    d.program.labels.addr? label = some (before.foldr (emittedBy · + ·) 0) := by
  obtain ⟨u, v, hu, hv, hafter⟩ := pass_append_cons hd
  obtain ⟨-, hnext⟩ := pass_total (f := Declared.next) (g := emittedBy) (P := fun _ => True)
    (fun _ _ _ _ hst => ⟨trivial, (advances_declare hst).next⟩) trivial hu
  have hplaced := keeps_label hafter ((advances_declare hv).places hl)
  rw [hplaced, hnext]
  simp

/-! ### Both passes -/

theorem ComesTo.labels_eq (h : ComesTo syms sts before e) : ∃ d,
    pass (declare syms) {} sts = .ok d ∧ e.program.labels = d.program.labels := by
  obtain ⟨d, hd, he⟩ := h
  exact ⟨d, hd, (extends_pass he).labels_eq⟩

/-- The second pass comes to a label at the address that the first pass has given to it. -/
theorem ComesTo.addr?_label (h : ComesTo syms (before ++ st :: after) before e)
    (hl : st.Labels label) : e.program.labels.addr? label = some (e.program.code.size : Int) := by
  obtain ⟨d, hd, hlabels⟩ := h.labels_eq
  rw [hlabels, addr?_of_labels hd hl, h.emits.2]

/-- Where a label lands, there is the landing that the label has emitted. -/
theorem exists_landing (hsts : statements src = .ok sts) (h : assemble src syms = .ok p)
    (ha : p.labels.addr? label = some a) :
    (∃ st ∈ sts, st.Labels label) ∧ 0 ≤ a ∧
      ∃ note, p.code[a.toNat]? = some { Instruction.landing Operand.absent with note := note } := by
  have h' := h
  simp only [assemble, hsts] at h'
  obtain ⟨d, hd, h'⟩ := Store.bind_eq_ok.mp h'
  obtain ⟨e', he, h'⟩ := Store.bind_eq_ok.mp h'
  cases h'
  rw [(extends_pass he).labels_eq] at ha
  obtain ⟨st, hst, hl⟩ := exists_labels hd rfl ha
  obtain ⟨before, after, hsplit⟩ := List.append_of_mem hst
  obtain ⟨u, v, hcome, hv, hext⟩ := comesTo hsts h hsplit
  have hcome' := hcome
  rw [hsplit] at hcome'
  have hplace := hcome'.addr?_label hl
  rw [← hext.labels_eq.trans (extends_statement hv).labels_eq, (extends_pass he).labels_eq, ha] at hplace
  obtain rfl := Option.some.inj hplace
  refine ⟨⟨st, hst, hl⟩, Int.natCast_nonneg _, u.note, ?_⟩
  exact hext.code (emitted_label hv hl.1)

/-- Behind every call there is the place where it returns to. -/
def Returns (code : Array Instruction) : Prop :=
  ∀ (i : Nat) (z : Instruction), code[i]? = some z → z.opcode = .call →
    ∃ note, code[i + 1]? = some { Instruction.landing Operand.absent with note := note }

theorem Returns.emit (h : Returns e.program.code) {z : Instruction} (hop : z.opcode ≠ .call) :
    Returns (emit e z).program.code := by
  intro i z' hz' hcall
  by_cases hi : i < e.program.code.size
  · rw [Assembler.emit, Array.getElem?_push_lt hi, ← Array.getElem?_eq_getElem hi] at hz'
    obtain ⟨note, hnote⟩ := h i z' hz' hcall
    exact ⟨note, (extends_emit e z).code hnote⟩
  · obtain ⟨hlt, -⟩ := Array.getElem?_eq_some_iff.mp hz'
    have hsize : (Assembler.emit e z).program.code.size = e.program.code.size + 1 := by
      simp [Assembler.emit]
    obtain rfl : i = e.program.code.size := by omega
    rw [getElem?_emit] at hz'
    cases hz'
    exact absurd hcall hop

theorem Returns.emitInstruction (h : Returns e.program.code) (z : Instruction) :
    Returns (emitInstruction e z).program.code := by
  obtain ⟨result, hresult⟩ := emitInstruction_eq e z
  rw [hresult]
  dsimp only
  split
  · -- the call and its landing
    intro i z' hz' hcall
    by_cases hi : i < e.program.code.size
    · have hold : e.program.code[i]? = some z' := by
        simp only [Assembler.emit] at hz'
        rw [Array.getElem?_push_lt (by simp; omega), Array.getElem_push_lt hi] at hz'
        rw [Array.getElem?_eq_getElem hi, hz']
      obtain ⟨note, hnote⟩ := h i z' hold hcall
      exact ⟨note, (extends_emit _ _).code ((extends_emit e z).code hnote)⟩
    · obtain ⟨hlt, -⟩ := Array.getElem?_eq_some_iff.mp hz'
      have hsize : (Assembler.emit e z).program.code.size = e.program.code.size + 1 := by
        simp [Assembler.emit]
      have hlanding := getElem?_emit (Assembler.emit e z) (Instruction.landing Operand.absent)
      rw [hsize] at hlanding
      have hlt' : i < e.program.code.size + 2 := by
        simp only [Assembler.emit, Array.size_push] at hlt
        omega
      obtain rfl | rfl : i = e.program.code.size ∨ i = e.program.code.size + 1 := by omega
      · exact ⟨_, hlanding⟩
      · rw [hlanding] at hz'
        cases hz'
        cases hcall
  · rename_i hop
    exact h.emit hop

theorem Returns.statement (he : Emits e) (h : Returns e.program.code)
    (hst : assembleStatement e st = .ok e') : Returns e'.program.code := by
  cases assembles_of_statement hst with
  | note =>
    rw [(resolved_constant he.wellFormed.declares _).code]
    exact h
  | label => exact h.emit (by simp [Instruction.landing])
  | directive => exact h
  | @operation z q _ hz =>
    refine Returns.emitInstruction ?_ z
    rw [(instruction_ok he.wellFormed.declares hz).1.code]
    exact h

theorem returns_assemble (h : assemble src syms = .ok p) : Returns p.code := by
  unfold assemble at h
  split at h
  · cases h
  · obtain ⟨d, hd, h⟩ := Store.bind_eq_ok.mp h
    obtain ⟨e, he, h⟩ := Store.bind_eq_ok.mp h
    cases h
    obtain ⟨hstart, hcode⟩ := emits_of_declared hd
    refine (pass_keeps (P := fun e => Emits e ∧ Returns e.program.code) (fun _ _ _ h hst =>
      ⟨h.1.statement hst, h.2.statement h.1 hst⟩) ⟨hstart, ?_⟩ he).2
    simp [hcode, Returns]

/-! ### Operands -/

/-- The operand `y` is the constant of the address `i`. -/
structure Targets (p : Program) (y : Operand) (i : Int) : Prop where
  part : y.part = .constants
  nonneg : 0 ≤ y.addr
  pooled : p.immediates[y.addr.toNat]? = some (integerImmediate i)
  decodes : ∃ n : Int64, Literal.decodeImmediate (integerImmediate i) = .ok (.int n) ∧ n.toInt = i

theorem getElem?_constant (h : assemble src syms = .ok q) {text : String}
    (hq : (constant p text).2.Extends q) : 0 ≤ (constant p text).1.addr ∧
      q.immediates[(constant p text).1.addr.toNat]? = some text := by
  have hl := legible_assemble h
  have hpooled := hq.constants (addr?_constant p text)
  have hnonneg := (hl.dense.mem_iff.mp ⟨_, SymbolTable.mem_of_addr? hpooled⟩).1
  refine ⟨hnonneg, ?_⟩
  rw [Program.getElem?_immediates hl.faithful hl.dense, Int.toNat_of_nonneg hnonneg]
  exact hpooled

/-- The operand of a label is the constant of the place where the label lands. -/
theorem targets_of_label (hsts : statements src = .ok sts) (h : assemble src syms = .ok q)
    (hsize : q.code.size < 2 ^ 63) {p' : Program} (hlabel : NamesLabel label)
    (hx : operand p label = .ok (y, p')) (hp : p.labels = q.labels) (hq : p'.Extends q) :
    ∃ i, q.labels.addr? label = some i ∧ Targets q y i := by
  obtain ⟨cs, hcs⟩ := hlabel
  simp only [operand, hcs, labelOperand] at hx
  split at hx
  · rename_i i hi
    obtain ⟨hy, hp'⟩ := Prod.ext_iff.mp (Except.ok.inj hx)
    simp only at hy hp'
    rw [← hp'] at hq
    obtain ⟨hnonneg, hpooled⟩ := getElem?_constant h hq
    obtain ⟨-, h₀, note, hnote⟩ := exists_landing hsts h (hp ▸ hi)
    have hlt := (Array.getElem?_eq_some_iff.mp hnote).1
    have hpow : Nat.pow 2 63 = 9223372036854775808 := rfl
    have hword : IsWord i := by
      simp only [IsWord, Binary64.leastInt, Binary64.greatestInt, hpow]
      omega
    rw [← hy]
    exact ⟨i, hp ▸ hi, rfl, hnonneg, hpooled, _, Literal.decode_integerImmediate hword,
      Int64.toInt_ofInt_of_le (by omega) (by omega)⟩
  · cases hx

theorem operation_at (hv : assembleStatement e st = .ok e') (he : Emits e)
    (hop : (st.words.headD "").startsWith "#" = false) : ∃ z,
      e'.program.code[e.program.code.size]? = some z ∧
      ∀ (j : Nat) (word : String), st.words[j + 2]? = some word → ∃ p y q,
        operand p word = .ok (y, q) ∧ z.operands[j]? = some y ∧ e.program.Extends p ∧
          q.Extends e'.program := by
  obtain ⟨z, q, hz, hext, hcode⟩ := emitted_operation he hv hop
  refine ⟨_, hcode, fun j word hword => ?_⟩
  obtain ⟨op, types, args, hwords, -, hargs⟩ := instruction_words hz
  rw [hwords] at hword
  obtain ⟨p, y, q', hy, hj, hp, hq⟩ := operand_at hargs (j := j) (by simpa using hword)
  exact ⟨p, y, q', hy, hj, hp, hq.trans hext⟩

/-! ### Labels and operands of a source -/

/-- The address of a label is the position at which the second pass emits its landing. -/
theorem label_at (hsts : statements src = .ok sts) (h : assemble src syms = .ok p)
    (hsplit : sts = before ++ st :: after) (hl : st.Labels label) : ∃ e, ComesTo syms sts before e ∧
      p.labels.addr? label = some (e.program.code.size : Int) ∧
      p.code[e.program.code.size]? =
        some { Instruction.landing Operand.absent with note := e.note } := by
  obtain ⟨e, e', hcome, hst, hext⟩ := comesTo hsts h hsplit
  have hplace := (hsplit ▸ hcome).addr?_label hl
  rw [← hext.labels_eq.trans (extends_statement hst).labels_eq] at hplace
  exact ⟨e, hcome, hplace, hext.code (emitted_label hst hl.1)⟩

/-- Wherever an operation names a label, it has the constant of the label's address as its operand,
and a statement of the source declares the label. -/
theorem targets_at (hsts : statements src = .ok sts) (h : assemble src syms = .ok p)
    (hsize : p.code.size < 2 ^ 63) (hsplit : sts = before ++ st :: after)
    (hop : (st.words.headD "").startsWith "#" = false) : ∃ e z, ComesTo syms sts before e ∧
      p.code[e.program.code.size]? = some z ∧
      ∀ (j : Nat) (word : String), st.words[j + 2]? = some word → NamesLabel word →
        ∃ y i, z.operands[j]? = some y ∧ p.labels.addr? word = some i ∧ Targets p y i ∧
          ∃ st ∈ sts, st.Labels word := by
  obtain ⟨e, e', hcome, hst, hext⟩ := comesTo hsts h hsplit
  obtain ⟨z, hz, hoperands⟩ := operation_at hst hcome.emits.1 hop
  refine ⟨e, z, hcome, hext.code hz, fun j word hword hname => ?_⟩
  obtain ⟨q, y, q', hy, hj, hq, hq'⟩ := hoperands j word hword
  have hlabels : q.labels = p.labels :=
    hq.labels_eq.trans (hext.labels_eq.trans (extends_statement hst).labels_eq).symm
  obtain ⟨i, hi, htarget⟩ := targets_of_label hsts h hsize hname hy hlabels (hq'.trans hext)
  exact ⟨y, i, hj, hi, htarget, (exists_landing hsts h hi).1⟩

end Assembler

end VectorMachine
