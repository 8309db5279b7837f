import VectorMachine.Proofs.Program.SelfContained
import VectorMachine.Proofs.Program.Words

/-!
# Legible programs

All that a listing shows of an assembled program can be read back: names and pooled texts are single
words, every operation is one of the instruction set and has a type, and every operand is absent or
an address of a partition that programs address.
-/

namespace VectorMachine
set_option autoImplicit false

open Assembler (IsLexeme Splits)

/-- An operand as a program writes it. -/
def Operand.Written (x : Operand) : Prop :=
  x = absent ∨ x.part = .globals ∨ x.part = .locals ∨ x.part = .constants ∨ x.part = .registers

/-- An instruction as a program writes it. -/
structure Instruction.Written (x : Instruction) : Prop where
  opcode : ∀ n, x.opcode ≠ .unknown n
  types : x.types ≠ []
  operands : ∀ y ∈ x.operands, y.Written
  note : x.note.Written

theorem Instruction.written_landing {note : Operand} (h : note.Written) :
    (Instruction.landing note).Written :=
  ⟨by simp [Instruction.landing], by simp [Instruction.landing], by simp [Instruction.landing], h⟩

/-- All names of a table are words. -/
def SymbolTable.Spelled (t : SymbolTable) : Prop := ∀ x ∈ t.definitions, IsLexeme x.1

namespace SymbolTable.Spelled

variable {t : SymbolTable} {n : String}

theorem define (h : t.Spelled) (hn : IsLexeme n) (a : Int) : (t.define n a).Spelled := by
  intro x hx
  rcases List.mem_cons.mp hx with rfl | hx
  · exact hn
  · exact h x hx

theorem intern (h : t.Spelled) (hn : IsLexeme n) : (t.intern n).2.Spelled := by
  unfold SymbolTable.intern
  split
  · exact h
  · exact h.define hn _

end SymbolTable.Spelled

namespace Program

variable {p q : Program}

/-- What a listing needs to be read back. -/
structure Legible (p : Program) : Prop where
  labels : p.labels.Spelled
  functions : p.functions.Spelled
  globals : p.globals.Spelled
  locals : p.locals.Spelled
  constants : p.constants.Spelled
  faithful : p.constants.Faithful
  dense : p.constants.Dense
  code : ∀ x ∈ p.code, x.Written
  result : p.result.Written

theorem Legible.use (h : p.Legible) (x : Operand) : (p.use x).Legible := by
  unfold Program.use
  split <;> exact ⟨h.labels, h.functions, h.globals, h.locals, h.constants, h.faithful, h.dense,
    h.code, h.result⟩

end Program

namespace Assembler

variable {p q : Program} {text w : String} {x : Operand} {xs : List Operand}

/-! ### Texts of constants -/

theorem isLexeme_empty : IsLexeme "" := .nil _

theorem isLexeme_append (h : ∀ d ∈ text.toList, ¬ Splits d ∧ d ≠ '"') (hw : IsLexeme w) :
    IsLexeme (text ++ w) := by
  unfold IsLexeme
  rw [String.toList_append]
  exact (Spelled.of_plain h).trans hw

theorem isLexeme_integerImmediate (i : Int) : IsLexeme (integerImmediate i) := by
  have hdigits : IsLexeme i.repr := by
    refine Spelled.of_plain fun d hd => ?_
    rcases Literal.isDigit_or_eq_of_mem_repr hd with hd | rfl
    · refine ⟨?_, ?_⟩
      · rintro (rfl | hs)
        · cases hd
        · simp only [isSeparator, decide_eq_true_eq, Bool.or_eq_true] at hs
          rcases hs with ((rfl | rfl) | rfl) | rfl <;> cases hd
      · rintro rfl
        cases hd
    · exact ⟨by simp [Splits, isSeparator], by decide⟩
  have hmark : ∀ d ∈ "~int:".toList, ¬ Splits d ∧ d ≠ '"' := forall_of_all (by decide)
  exact isLexeme_append hmark hdigits

theorem isLexeme_note (hw : IsLexeme w) : IsLexeme ("~string:" ++ w) := by
  have hmark : ∀ d ∈ "~string:".toList, ¬ Splits d ∧ d ≠ '"' := forall_of_all (by decide)
  exact isLexeme_append hmark hw

theorem isLexeme_immediate {cs : List Char} (hw : IsLexeme w) (hcs : w.toList = '#' :: cs) :
    IsLexeme (String.ofList ('~' :: cs)) := by
  unfold IsLexeme at hw ⊢
  rw [hcs] at hw
  rw [String.toList_ofList]
  cases hw with
  | plain _ hw => exact .plain (by simp [Splits, isSeparator]) hw

/-! ### Operands -/

/-- What resolving the operands `xs` keeps of a program's listing. -/
structure Spells (q : Program) (xs : List Operand) : Prop where
  legible : q.Legible
  written : ∀ x ∈ xs, x.Written

theorem Spells.single (h : q.Legible) (hx : x.Written) : Spells q [x] := ⟨h, by simpa using hx⟩

theorem spells_constant (h : p.Legible) (htext : IsLexeme text) (hne : text ≠ "") :
    Spells (constant p text).2 [(constant p text).1] := by
  have hpool : ({ p with constants := (p.constants.intern text).2 } : Program).Legible :=
    ⟨h.labels, h.functions, h.globals, h.locals, h.constants.intern htext, h.faithful.intern hne,
      h.dense.intern, h.code, h.result⟩
  have huse := hpool.use ⟨.constants, (p.constants.intern text).1⟩
  exact .single huse (.inr (.inr (.inr (.inl rfl))))

theorem integerImmediate_ne_empty (i : Int) : integerImmediate i ≠ "" := by
  intro h
  have := congrArg String.toList h
  rw [integerImmediate, String.toList_append] at this
  cases this

theorem spells_integer (h : p.Legible) (i : Int) :
    Spells (constant p (integerImmediate i)).2 [(constant p (integerImmediate i)).1] :=
  spells_constant h (isLexeme_integerImmediate i) (integerImmediate_ne_empty i)

theorem spells_immediate (h : p.Legible) (htext : IsLexeme text) (hne : text ≠ "")
    (hx : immediateOperand p text = .ok (x, q)) : Spells q [x] := by
  unfold immediateOperand at hx
  split at hx
  · obtain ⟨rfl, rfl⟩ := Prod.mk.inj (Except.ok.inj hx)
    exact spells_constant h htext hne
  · cases hx

theorem spells_named (h : p.Legible) (hx : namedOperand p w = .ok (x, q)) : Spells q [x] := by
  unfold namedOperand at hx
  split at hx
  · cases hx
    exact .single h (.inr (.inr (.inl rfl)))
  · split at hx
    · cases hx
      exact .single h (.inr (.inl rfl))
    · split at hx
      · obtain ⟨rfl, rfl⟩ := Prod.mk.inj (Except.ok.inj hx)
        exact spells_integer h _
      · cases hx

theorem spells_label (h : p.Legible) (hx : labelOperand p w = .ok (x, q)) : Spells q [x] := by
  unfold labelOperand at hx
  split at hx
  · obtain ⟨rfl, rfl⟩ := Prod.mk.inj (Except.ok.inj hx)
    exact spells_integer h _
  · cases hx

theorem spells_address {part : Partition} {digits : String} (h : p.Legible)
    (hpart : part = .registers ∨ part = .locals ∨ part = .globals)
    (hx : addressOperand p part w digits = .ok (x, q)) : Spells q [x] := by
  unfold addressOperand at hx
  split at hx
  · cases hx
  · split at hx
    · cases hx
    · cases hx
      refine .single (h.use _) ?_
      rcases hpart with rfl | rfl | rfl
      · exact .inr (.inr (.inr (.inr rfl)))
      · exact .inr (.inr (.inl rfl))
      · exact .inr (.inl rfl)

theorem spells_operand (h : p.Legible) (hw : IsLexeme w) (hx : operand p w = .ok (x, q)) :
    Spells q [x] := by
  unfold operand at hx
  split at hx
  · rename_i hcs
    refine spells_immediate h hw ?_ hx
    rintro rfl
    cases hcs
  · rename_i cs hcs
    refine spells_immediate h (isLexeme_immediate hw hcs) (fun he => ?_) hx
    rw [← String.toList_inj, String.toList_ofList] at he
    cases he
  · exact spells_named h hx
  · exact spells_label h hx
  · cases hx
    exact .single h (.inl rfl)
  · split at hx
    · rename_i part hpart
      exact spells_address h (addressedPartition?_cases hpart) hx
    · cases hx
  · cases hx

theorem spells_operands {ws : List String} (h : p.Legible) (hws : ∀ w ∈ ws, IsLexeme w)
    (hx : operands p ws = .ok (xs, q)) : Spells q xs := by
  induction ws generalizing p xs with
  | nil =>
    cases hx
    exact ⟨h, by simp⟩
  | cons w ws ih =>
    obtain ⟨⟨x, p₁⟩, h₁, hx⟩ := Store.bind_eq_ok.mp hx
    obtain ⟨⟨ys, p₂⟩, h₂, hx⟩ := Store.bind_eq_ok.mp hx
    cases hx
    have s₁ := spells_operand h (hws w (by simp)) h₁
    have s₂ := ih s₁.legible (fun v hv => hws v (by simp [hv])) h₂
    refine ⟨s₂.legible, fun y hy => ?_⟩
    rcases List.mem_cons.mp hy with rfl | hy
    · exact s₁.written y (by simp)
    · exact s₂.written y hy

theorem annotationNames_ne_nil (cs : List Char) : annotationNames cs ≠ [] := by
  unfold annotationNames
  split
  · simp
  · simp
  · split <;> simp

theorem length_mapM {α β : Type} {f : α → Except Cause β} {as : List α} {bs : List β}
    (h : as.mapM f = .ok bs) : bs.length = as.length := by
  induction as generalizing bs with
  | nil =>
    cases h
    rfl
  | cons a as ih =>
    rw [List.mapM_cons] at h
    obtain ⟨b, _, h⟩ := Store.bind_eq_ok.mp h
    obtain ⟨bs, hbs, h⟩ := Store.bind_eq_ok.mp h
    cases h
    simp [ih hbs]

theorem types_ne_nil {words : List String} {z : Instruction}
    (hz : instruction p words = .ok (z, q)) : z.types ≠ [] := by
  unfold instruction at hz
  split at hz
  · cases hz
  · split at hz
    · cases hz
    · split at hz
      · cases hz
      · rename_i types _
        obtain ⟨ts, hts, hz⟩ := Store.bind_eq_ok.mp hz
        dsimp only at hz
        split at hz
        · cases hz
        · split at hz
          · cases hz
          · obtain ⟨⟨ys, p₁⟩, _, hz⟩ := Store.bind_eq_ok.mp hz
            obtain ⟨_, _, hz⟩ := Store.bind_eq_ok.mp hz
            cases hz
            have hlen := length_mapM hts
            have hpos := List.length_pos_iff.mpr (annotationNames_ne_nil types.toList)
            exact List.length_pos_iff.mp (by simp only; omega)

/-! ### Passes -/

variable {st : Statement}

theorem isLexeme_name (hst : ∀ w ∈ st.words, IsLexeme w) : IsLexeme (st.words.tail.headD "") := by
  cases ht : st.words.tail with
  | nil => exact isLexeme_empty
  | cons w ws => exact hst w (List.mem_of_mem_tail (by simp [ht]))

theorem legible_declare {syms : Symbols} {d d' : Declared} (h : d.program.Legible)
    (hst : ∀ w ∈ st.words, IsLexeme w) (hd : declare syms d st = .ok d') : d'.program.Legible := by
  have hname := isLexeme_name hst
  cases accepts_of_declare hd with
  | operation => exact h
  | localVariable =>
    exact ⟨h.labels, h.functions, h.globals, h.locals.intern hname, h.constants, h.faithful,
      h.dense, h.code, h.result⟩
  | globalVariable =>
    exact ⟨h.labels, h.functions, h.globals.define hname _, h.locals, h.constants, h.faithful,
      h.dense, h.code, h.result⟩
  | globalFunction =>
    exact ⟨h.labels, h.functions.define hname _, h.globals, h.locals, h.constants, h.faithful,
      h.dense, h.code, h.result⟩
  | label =>
    exact ⟨h.labels.define hname _, h.functions, h.globals, h.locals, h.constants, h.faithful,
      h.dense, h.code, h.result⟩
  | localFunction =>
    exact ⟨h.labels, h.functions, h.globals, h.locals, h.constants, h.faithful, h.dense, h.code,
      h.result⟩
  | info =>
    exact ⟨h.labels, h.functions, h.globals, h.locals, h.constants, h.faithful, h.dense, h.code,
      h.result⟩
  | note => exact h
  | comment => exact h

/-- What holds while instructions are emitted. -/
structure Writes (e : Emitted) : Prop where
  legible : e.program.Legible
  note : e.note.Written

theorem Writes.emit {e : Emitted} (h : Writes e) {z : Instruction}
    (hz : ({ z with note := e.note }).Written) : Writes (emit e z) := by
  have hl := h.legible
  refine ⟨⟨hl.labels, hl.functions, hl.globals, hl.locals, hl.constants, hl.faithful, hl.dense,
    fun y hy => ?_, hl.result⟩, h.note⟩
  rcases Array.mem_push.mp hy with hy | rfl
  · exact hl.code y hy
  · exact hz

theorem Writes.landing {e : Emitted} (h : Writes e) :
    Writes (Assembler.emit e (Instruction.landing Operand.absent)) :=
  h.emit (Instruction.written_landing h.note)

theorem Writes.returning {e : Emitted} (h : Writes e) (hx : x.Written) :
    Writes { e with program.result := x } := by
  have hl := h.legible
  exact ⟨⟨hl.labels, hl.functions, hl.globals, hl.locals, hl.constants, hl.faithful, hl.dense,
    hl.code, hx⟩, h.note⟩

theorem Writes.emitInstruction {e : Emitted} (h : Writes e) {z : Instruction}
    (hz : ({ z with note := e.note }).Written) : Writes (emitInstruction e z) := by
  have hboth : Writes (if z.opcode = .call then
      Assembler.emit (Assembler.emit e z) (Instruction.landing Operand.absent)
      else Assembler.emit e z) := by
    split
    · exact (h.emit hz).landing
    · exact h.emit hz
  unfold Assembler.emitInstruction
  dsimp only
  split
  · rename_i hops
    exact hboth.returning (hz.operands _ (by simp [hops]))
  · exact hboth

theorem Writes.statement {e e' : Emitted} (h : Writes e) (hst : ∀ w ∈ st.words, IsLexeme w)
    (he : assembleStatement e st = .ok e') : Writes e' := by
  cases assembles_of_statement he with
  | note =>
    have hne : "~string:" ++ st.words.tail.headD "" ≠ "" := by
      intro hempty
      have := congrArg String.toList hempty
      rw [String.toList_append] at this
      cases this
    have hs := spells_constant h.legible (isLexeme_note (isLexeme_name hst)) hne
    exact ⟨hs.legible, hs.written _ (by simp)⟩
  | label => exact h.landing
  | directive => exact h
  | @operation z q _ hz =>
    obtain ⟨word, types, args, hwords, hop, hargs⟩ := instruction_words hz
    have hs := spells_operands h.legible (fun w hw => hst w (by simp [hwords, hw])) hargs
    have hnext : Writes { e with program := q } := ⟨hs.legible, h.note⟩
    have htypes := types_ne_nil hz
    exact hnext.emitInstruction ⟨Opcode.known_of_name hop, htypes, hs.written, h.note⟩

theorem legible_assemble {src : String} {syms : Symbols} (h : assemble src syms = .ok p) :
    p.Legible := by
  unfold assemble at h
  split at h
  · cases h
  · rename_i sts hsts
    obtain ⟨d, hd, h⟩ := Store.bind_eq_ok.mp h
    obtain ⟨e, he, h⟩ := Store.bind_eq_ok.mp h
    cases h
    have hwords := isLexeme_of_statements hsts
    have hempty : ({} : Program).Legible := by
      refine ⟨by simp [SymbolTable.Spelled], by simp [SymbolTable.Spelled],
        by simp [SymbolTable.Spelled], by simp [SymbolTable.Spelled], by simp [SymbolTable.Spelled],
        SymbolTable.faithful_empty, SymbolTable.dense_empty, by simp, .inl rfl⟩
    have hdeclared := pass_keeps_mem (P := fun d => d.program.Legible)
      (fun _ _ st hst h hy => legible_declare h (hwords st hst) hy) hempty hd
    have hstart : Writes { program := d.program } := ⟨hdeclared, .inl rfl⟩
    exact (pass_keeps_mem (P := Writes)
      (fun _ _ st hst h hy => h.statement (hwords st hst) hy) hstart he).legible

end Assembler

end VectorMachine
