import VectorMachine.Program.Listing
import VectorMachine.Proofs.Program.Legible
import VectorMachine.Proofs.Text.Quoting

/-!
# Lines of a listing

A line of a listing is read field by field.  Numbers, operations, types and operands end at the next
blank, a quoted text holds no line feed, and a name ends at the first line feed outside of quotes.
So a line together with all text that follows it tells what the line is about.
-/

namespace VectorMachine.Listing
set_option autoImplicit false

open Assembler (IsLexeme forall_of_all)

variable {u v x y : List Char}

/-! ### Fields -/

/-- A text does not go on with a character of the kind `P`. -/
def Stops (P : Char → Prop) (x : List Char) : Prop := ∀ d ∈ x.head?, ¬ P d

theorem stops_cons {P : Char → Prop} {d : Char} (hd : ¬ P d) : Stops P (d :: x) := by
  simpa [Stops] using hd

theorem stops_nil {P : Char → Prop} : Stops P [] := by simp [Stops]

/-- A run of characters of one kind ends where the kind ends. -/
theorem run_cancel {P : Char → Prop} (hu : ∀ d ∈ u, P d) (hv : ∀ d ∈ v, P d) (hx : Stops P x)
    (hy : Stops P y) (h : u ++ x = v ++ y) : u = v ∧ x = y := by
  induction u generalizing v with
  | nil =>
    cases v with
    | nil => exact ⟨rfl, h⟩
    | cons d v =>
      obtain rfl : x = d :: (v ++ y) := h
      exact absurd (hv d (by simp)) (hx d (by simp))
  | cons c u ih =>
    cases v with
    | nil =>
      obtain rfl : c :: (u ++ x) = y := h
      exact absurd (hu c (by simp)) (hy c (by simp))
    | cons d v =>
      obtain ⟨rfl, ht⟩ := List.cons.inj h
      obtain ⟨rfl, hxy⟩ := ih (fun e he => hu e (by simp [he])) (fun e he => hv e (by simp [he])) ht
      exact ⟨rfl, hxy⟩

/-- The characters of a field, which is followed by a blank or by the end of the line. -/
def IsField (d : Char) : Prop := d ≠ ' ' ∧ d ≠ '\n'

instance (d : Char) : Decidable (IsField d) := inferInstanceAs (Decidable (_ ∧ _))

theorem integer_cancel {i j : Int} (hx : Stops IsField x) (hy : Stops IsField y)
    (h : (toString i).toList ++ x = (toString j).toList ++ y) : i = j ∧ x = y := by
  have hfield : ∀ (k : Int), ∀ d ∈ (toString k).toList, IsField d := by
    intro k d hd
    rcases Literal.isDigit_or_eq_of_mem_repr hd with hd | rfl
    · constructor <;> rintro rfl <;> cases hd
    · decide
  obtain ⟨hij, hxy⟩ := run_cancel (hfield i) (hfield j) hx hy h
  exact ⟨Literal.repr_injective (String.toList_inj.mp hij), hxy⟩

/-! ### Operands -/

theorem field_operand {o : Operand} (h : o.Written) : ∀ d ∈ o.text.toList, IsField d := by
  have hletter : ∀ (c : Char) (k : Int), IsField c →
      ∀ d ∈ (c.toString ++ toString k).toList, IsField d := by
    intro c k hc d hd
    rw [String.toList_append] at hd
    rcases List.mem_append.mp hd with hd | hd
    · obtain rfl : d = c := by simpa using hd
      exact hc
    · rcases Literal.isDigit_or_eq_of_mem_repr hd with hd | rfl
      · constructor <;> rintro rfl <;> cases hd
      · decide
  obtain ⟨part, addr⟩ := o
  rcases h with h | rfl | rfl | rfl | rfl
  · rw [h]
    exact forall_of_all (by decide)
  · exact hletter 'G' addr (by decide)
  · exact hletter 'L' addr (by decide)
  · exact hletter 'C' addr (by decide)
  · exact hletter 'R' addr (by decide)

/-- An operand's text begins with the letter of its partition. -/
theorem text_operand {o : Operand} (h : o.Written) :
    (o = Operand.absent ∧ o.text.toList = ['-']) ∨
      ∃ l, o.part.letter = l ∧ l ∈ ['G', 'L', 'C', 'R'] ∧
        o.text.toList = l :: (toString o.addr).toList := by
  obtain ⟨part, addr⟩ := o
  rcases h with h | rfl | rfl | rfl | rfl
  · exact .inl ⟨h, by rw [h]; rfl⟩
  all_goals
    refine .inr ⟨_, rfl, by simp [Partition.letter], ?_⟩
    simp [Operand.text, Operand.isAbsent, Partition.letter]

theorem part_eq_of_letter {o o' : Operand} (h : o.Written) (h' : o'.Written)
    (hl : o.part.letter = o'.part.letter) : o.part = o'.part := by
  rcases h with h | h | h | h | h <;> rcases h' with h' | h' | h' | h' | h' <;>
    rw [h, h'] at hl ⊢ <;> cases hl

theorem operand_text_injective {o o' : Operand} (h : o.Written) (h' : o'.Written)
    (ht : o.text = o'.text) : o = o' := by
  have ht := congrArg String.toList ht
  rcases text_operand h with ⟨ho, htext⟩ | ⟨l, hl, hmem, htext⟩ <;>
    rcases text_operand h' with ⟨ho', htext'⟩ | ⟨l', hl', hmem', htext'⟩ <;>
    rw [htext, htext'] at ht
  · rw [ho, ho']
  · obtain ⟨rfl, -⟩ := List.cons.inj ht
    simp at hmem'
  · obtain ⟨rfl, -⟩ := List.cons.inj ht
    simp at hmem
  · obtain ⟨rfl, haddr⟩ := List.cons.inj ht
    have hpart := part_eq_of_letter h h' (hl.trans hl'.symm)
    have haddr := Literal.repr_injective (String.toList_inj.mp haddr)
    cases o
    cases o'
    cases hpart
    cases haddr
    rfl

theorem operand_cancel {o o' : Operand} (h : o.Written) (h' : o'.Written) (hx : Stops IsField x)
    (hy : Stops IsField y) (ht : o.text.toList ++ x = o'.text.toList ++ y) : o = o' ∧ x = y := by
  obtain ⟨htext, hxy⟩ := run_cancel (field_operand h) (field_operand h') hx hy ht
  exact ⟨operand_text_injective h h' (String.toList_inj.mp htext), hxy⟩

/-- What follows operands: the end of the line, or a note behind two blanks. -/
def Closes (x : List Char) : Prop := (∃ r, x = '\n' :: r) ∨ ∃ r, x = ' ' :: ' ' :: r

theorem Closes.stops (h : Closes x) : Stops IsField x := by
  rcases h with ⟨r, rfl⟩ | ⟨r, rfl⟩
  · exact stops_cons (by decide)
  · exact stops_cons (by decide)

/-- Operands as an instruction writes them. -/
def operandsText (os : List Operand) : List Char := os.flatMap fun o => ' ' :: o.text.toList

theorem Closes.stops_operandsText (h : Closes x) (os : List Operand) :
    Stops IsField (operandsText os ++ x) := by
  cases os with
  | nil => exact h.stops
  | cons o os => exact stops_cons (by decide)

theorem Closes.ne_operandsText {o : Operand} (h : Closes x) (ho : o.Written) (os : List Operand) :
    x ≠ operandsText (o :: os) ++ y := by
  have hne : ∀ r, o.text.toList ++ (operandsText os ++ y) ≠ ' ' :: r := by
    intro r hr
    have hfield := field_operand ho
    rcases text_operand ho with ⟨-, htext⟩ | ⟨l, -, -, htext⟩ <;> rw [htext] at hr hfield
    · cases hr
    · obtain ⟨rfl, -⟩ := List.cons.inj hr
      exact (hfield ' ' (by simp)).1 rfl
  intro heq
  rw [operandsText, List.flatMap_cons, List.append_assoc] at heq
  rcases h with ⟨r, rfl⟩ | ⟨r, rfl⟩
  · cases (List.cons.inj heq).1
  · exact hne r (List.cons.inj heq).2.symm

theorem operands_cancel {os os' : List Operand} (h : ∀ o ∈ os, o.Written)
    (h' : ∀ o ∈ os', o.Written) (hx : Closes x) (hy : Closes y)
    (ht : operandsText os ++ x = operandsText os' ++ y) : os = os' ∧ x = y := by
  induction os generalizing os' with
  | nil =>
    cases os' with
    | nil => exact ⟨rfl, ht⟩
    | cons o' os' => exact absurd ht (hx.ne_operandsText (h' o' (by simp)) os')
  | cons o os ih =>
    cases os' with
    | nil => exact absurd ht.symm (hy.ne_operandsText (h o (by simp)) os)
    | cons o' os' =>
      rw [operandsText, operandsText, List.flatMap_cons, List.flatMap_cons, List.append_assoc,
        List.append_assoc] at ht
      obtain ⟨rfl, htail⟩ := operand_cancel (h o (by simp)) (h' o' (by simp))
        (hx.stops_operandsText os) (hy.stops_operandsText os') (List.cons.inj ht).2
      obtain ⟨rfl, hxy⟩ :=
        ih (fun z hz => h z (by simp [hz])) (fun z hz => h' z (by simp [hz])) htail
      exact ⟨rfl, hxy⟩

/-! ### Operations and types -/

theorem mem_all_of_known {op : Opcode} (h : ∀ n, op ≠ .unknown n) : op ∈ Opcode.all := by
  cases op with
  | arithmetic op => cases op <;> decide
  | compare op => cases op <;> decide
  | connect op => cases op <;> decide
  | jump on => cases on <;> decide
  | unknown n => exact absurd rfl (h n)
  | _ => decide

theorem opcode_cancel {op op' : Opcode} (h : ∀ n, op ≠ .unknown n) (h' : ∀ n, op' ≠ .unknown n)
    (hx : Stops IsField x) (hy : Stops IsField y)
    (ht : op.name.toList ++ x = op'.name.toList ++ y) : op = op' ∧ x = y := by
  have hfield : ∀ op ∈ Opcode.all, (op.name.toList.all fun d => decide (IsField d)) = true := by
    decide +kernel
  have hinj : ∀ op ∈ Opcode.all, Opcode.ofName? op.name = some op := by decide +kernel
  have hop := mem_all_of_known h
  have hop' := mem_all_of_known h'
  obtain ⟨hname, hxy⟩ := run_cancel (forall_of_all (hfield op hop))
    (forall_of_all (hfield op' hop')) hx hy ht
  have heq := hinj op hop
  rw [String.toList_inj.mp hname, hinj op' hop'] at heq
  exact ⟨(Option.some.inj heq).symm, hxy⟩

/-- Types as an instruction writes them. -/
def typesText (ts : List DataType) : List Char := (":".intercalate (ts.map DataType.name)).toList

theorem typesText_singleton (t : DataType) : typesText [t] = t.name.toList := by
  simp [typesText]

theorem typesText_cons_cons (t t' : DataType) (ts : List DataType) :
    typesText (t :: t' :: ts) = t.name.toList ++ ':' :: typesText (t' :: ts) := by
  simp [typesText, String.toList_intercalate]

theorem field_types (ts : List DataType) : ∀ d ∈ typesText ts, IsField d := by
  have hname : ∀ t : DataType, ∀ d ∈ t.name.toList, IsField d := by
    intro t
    cases t <;> exact forall_of_all (by decide)
  induction ts with
  | nil => simp [typesText]
  | cons t ts ih =>
    cases ts with
    | nil =>
      rw [typesText_singleton]
      exact hname t
    | cons t' ts =>
      intro d hd
      rw [typesText_cons_cons] at hd
      rcases List.mem_append.mp hd with hd | hd
      · exact hname t d hd
      · rcases List.mem_cons.mp hd with rfl | hd
        · decide
        · exact ih d hd

theorem typesText_injective {ts ts' : List DataType} (h : ts ≠ []) (h' : ts' ≠ [])
    (ht : typesText ts = typesText ts') : ts = ts' := by
  have hname : ∀ t : DataType, ∀ d ∈ t.name.toList, d ≠ ':' := by
    intro t
    cases t <;> exact forall_of_all (by decide)
  have hcolon : ∀ z, Stops (· ≠ ':') (':' :: z) := fun z => stops_cons (by simp)
  induction ts generalizing ts' with
  | nil => exact absurd rfl h
  | cons t ts ih =>
    obtain _ | ⟨t', ts'⟩ := ts'
    · exact absurd rfl h'
    obtain _ | ⟨s, ts⟩ := ts <;> obtain _ | ⟨s', ts'⟩ := ts'
    · rw [typesText_singleton, typesText_singleton] at ht
      rw [DataType.name_injective (String.toList_inj.mp ht)]
    · rw [typesText_singleton, typesText_cons_cons, ← List.append_nil t.name.toList] at ht
      cases (run_cancel (hname t) (hname t') stops_nil (hcolon _) ht).2
    · rw [typesText_singleton, typesText_cons_cons, ← List.append_nil t'.name.toList] at ht
      cases (run_cancel (hname t) (hname t') (hcolon _) stops_nil ht).2
    · rw [typesText_cons_cons, typesText_cons_cons] at ht
      obtain ⟨hhead, htail⟩ := run_cancel (hname t) (hname t') (hcolon _) (hcolon _) ht
      rw [DataType.name_injective (String.toList_inj.mp hhead),
        ih (by simp) (by simp) (List.cons.inj htail).2]

/-! ### Lines -/

theorem toList_blank : " ".toList = [' '] := rfl

theorem toList_lineFeed : "\n".toList = ['\n'] := rfl

/-- Lines are indented. -/
def Indented {α : Type} (f : α → List Char) : Prop := ∀ a, ∃ r, f a = ' ' :: r

/-- Lines `f a` and `g b`, each with what follows it, tell `a` and `b` apart if `P` holds of them. -/
def Separates {α : Type} (P : α → Prop) (f g : α → List Char) : Prop :=
  ∀ (a b : α) (x y : List Char), P a → P b → f a ++ x = g b ++ y → a = b ∧ x = y

/-- A sequence of lines ends where the text is not indented. -/
theorem lines_cancel {α : Type} {P : α → Prop} {f g : α → List Char} (h : Separates P f g)
    (hf : Indented f) (hg : Indented g) {as bs : List α} (has : ∀ a ∈ as, P a) (hbs : ∀ b ∈ bs, P b)
    (hx : Stops (· = ' ') x) (hy : Stops (· = ' ') y)
    (heq : as.flatMap f ++ x = bs.flatMap g ++ y) : as = bs ∧ x = y := by
  induction as generalizing bs with
  | nil =>
    cases bs with
    | nil => exact ⟨rfl, heq⟩
    | cons b bs =>
      obtain ⟨r, hr⟩ := hg b
      rw [List.flatMap_cons, hr] at heq
      obtain rfl : x = ' ' :: (r ++ bs.flatMap g ++ y) := heq
      exact absurd rfl (hx ' ' rfl)
  | cons a as ih =>
    cases bs with
    | nil =>
      obtain ⟨r, hr⟩ := hf a
      rw [List.flatMap_cons, hr] at heq
      obtain rfl : ' ' :: (r ++ as.flatMap f ++ x) = y := heq
      exact absurd rfl (hy ' ' rfl)
    | cons b bs =>
      rw [List.flatMap_cons, List.flatMap_cons, List.append_assoc, List.append_assoc] at heq
      obtain ⟨rfl, htail⟩ := h a b _ _ (has a (by simp)) (hbs b (by simp)) heq
      obtain ⟨rfl, hxy⟩ :=
        ih (fun z hz => has z (by simp [hz])) (fun z hz => hbs z (by simp [hz])) htail
      exact ⟨rfl, hxy⟩

/-- A line of a table. -/
def entryLine (mark : String) (e : String × Int) : List Char :=
  ("  " ++ mark ++ toString e.2 ++ " " ++ e.1 ++ "\n").toList

theorem indented_entryLine (mark : String) : Indented (entryLine mark) := by
  intro e
  simp only [entryLine, String.toList_append, List.append_assoc]
  exact ⟨_, rfl⟩

theorem separates_entryLine (mark : String) :
    Separates (fun e => IsLexeme e.1) (entryLine mark) (entryLine mark) := by
  intro a b x y ha hb heq
  simp only [entryLine, String.toList_append, List.append_assoc, toList_blank,
    toList_lineFeed, List.cons_append, List.nil_append] at heq
  have heq := List.append_cancel_left (List.append_cancel_left heq)
  obtain ⟨haddr, heq⟩ := integer_cancel (stops_cons (by decide)) (stops_cons (by decide)) heq
  obtain ⟨hname, hxy⟩ := ha.cancel hb (List.cons.inj heq).2
  exact ⟨Prod.ext (String.toList_inj.mp hname) haddr, hxy⟩

/-- A line of what a program says of its languages. -/
def infoLine (e : InfoKey × String) : List Char :=
  ("  " ++ e.1.directive ++ " " ++ Text.quote e.2 ++ "\n").toList

theorem indented_infoLine : Indented infoLine := by
  intro e
  simp only [infoLine, String.toList_append, List.append_assoc]
  exact ⟨_, rfl⟩

theorem separates_infoLine : Separates (fun _ => True) infoLine infoLine := by
  have hfield : ∀ k : InfoKey, ∀ d ∈ k.directive.toList, IsField d := by
    intro k
    cases k <;> exact forall_of_all (by decide)
  have hinj : ∀ k k' : InfoKey, k.directive = k'.directive → k = k' := by
    intro k k' hk
    cases k <;> cases k' <;> first | rfl | exact absurd hk (by decide)
  have hquote : ∀ s : String, ∀ d ∈ (Text.quote s).toList, d ≠ '\n' := by
    rintro s d hd rfl
    exact Text.lineFeed_notMem_quote s hd
  intro a b x y _ _ heq
  simp only [infoLine, String.toList_append, List.append_assoc, toList_blank,
    toList_lineFeed, List.cons_append, List.nil_append] at heq
  have heq := List.append_cancel_left heq
  obtain ⟨hkey, heq⟩ := run_cancel (hfield _) (hfield _) (stops_cons (by decide))
    (stops_cons (by decide)) heq
  obtain ⟨hvalue, heq⟩ := run_cancel (hquote _) (hquote _) (stops_cons (by simp))
    (stops_cons (by simp)) (List.cons.inj heq).2
  refine ⟨Prod.ext (hinj _ _ (String.toList_inj.mp hkey)) ?_, (List.cons.inj heq).2⟩
  exact Text.quote_injective (String.toList_inj.mp hvalue)

/-- The line of a text. -/
def plainLine (s : String) : List Char := ("  " ++ s ++ "\n").toList

theorem plainLine_cancel {s s' : String} (h : ∀ d ∈ s.toList, d ≠ '\n')
    (h' : ∀ d ∈ s'.toList, d ≠ '\n') (heq : plainLine s ++ x = plainLine s' ++ y) :
    s = s' ∧ x = y := by
  simp only [plainLine, String.toList_append, List.append_assoc, toList_lineFeed,
    List.cons_append, List.nil_append] at heq
  have heq := List.append_cancel_left heq
  obtain ⟨htext, heq⟩ := run_cancel h h' (stops_cons (by simp)) (stops_cons (by simp)) heq
  exact ⟨String.toList_inj.mp htext, (List.cons.inj heq).2⟩

/-- A text without line feeds: addresses of registers behind one another. -/
theorem ne_lineFeed_registers (rs : List Int) :
    ∀ d ∈ (" ".intercalate (rs.map fun r => "R" ++ toString r)).toList, d ≠ '\n' := by
  have hone : ∀ (r : Int), ∀ d ∈ ("R" ++ toString r).toList, d ≠ '\n' := fun r d hd =>
    (field_operand (o := ⟨.registers, r⟩) (.inr (.inr (.inr (.inr rfl)))) d hd).2
  induction rs with
  | nil => simp
  | cons r rs ih =>
    cases rs with
    | nil => simpa using hone r
    | cons r' rs =>
      intro d hd
      simp only [List.map_cons, String.toList_intercalate, List.intercalate_cons_cons] at hd ih
      rcases List.mem_append.mp hd with hd | hd
      · rcases List.mem_append.mp hd with hd | hd
        · exact hone r d hd
        · obtain rfl : d = ' ' := by simpa using hd
          decide
      · exact ih d hd

/-! ### Instructions -/

/-- The note behind an instruction. -/
def noteText (o : Operand) : List Char := (if o.isAbsent then "" else "  # " ++ o.text).toList

theorem eq_absent {o : Operand} (h : o.Written) (ho : o.isAbsent = true) : o = Operand.absent := by
  have hpart : o.part = .absent := by simpa [Operand.isAbsent] using ho
  rcases h with h | h | h | h | h
  · exact h
  all_goals
    rw [h] at hpart
    cases hpart

theorem noteText_of_present {o : Operand} (h : o.isAbsent = false) :
    noteText o = ' ' :: ' ' :: '#' :: ' ' :: o.text.toList := by
  rw [noteText, h, if_neg Bool.false_ne_true, String.toList_append]
  rfl

theorem noteText_absent : noteText Operand.absent = [] := rfl

theorem closes_note {o : Operand} (h : o.Written) (x : List Char) :
    Closes (noteText o ++ '\n' :: x) := by
  cases ho : o.isAbsent with
  | true =>
    rw [eq_absent h ho]
    exact .inl ⟨x, rfl⟩
  | false =>
    rw [noteText_of_present ho]
    exact .inr ⟨_, rfl⟩

theorem note_cancel {o o' : Operand} (h : o.Written) (h' : o'.Written)
    (ht : noteText o ++ '\n' :: x = noteText o' ++ '\n' :: y) : o = o' ∧ x = y := by
  cases ho : o.isAbsent <;> cases ho' : o'.isAbsent
  · rw [noteText_of_present ho, noteText_of_present ho'] at ht
    simp only [List.cons_append, List.cons.injEq, true_and] at ht
    obtain ⟨heq, ht⟩ := operand_cancel h h' (stops_cons (by decide)) (stops_cons (by decide)) ht
    exact ⟨heq, (List.cons.inj ht).2⟩
  · rw [noteText_of_present ho, eq_absent h' ho', noteText_absent] at ht
    cases (List.cons.inj ht).1
  · rw [noteText_of_present ho', eq_absent h ho, noteText_absent] at ht
    cases (List.cons.inj ht).1
  · rw [eq_absent h ho, eq_absent h' ho', noteText_absent] at ht
    exact ⟨(eq_absent h ho).trans (eq_absent h' ho').symm, (List.cons.inj ht).2⟩

theorem toList_text {z : Instruction} (h : z.types ≠ []) :
    z.text.toList =
      z.opcode.name.toList ++ ' ' :: (typesText z.types ++ operandsText z.operands) := by
  have hne : z.types.isEmpty = false := by simpa using h
  simp only [Instruction.text, Instruction.heading, hne, Bool.false_eq_true, if_false,
    String.toList_append, String.toList_join, List.flatMap_map, List.append_assoc]
  rfl

theorem instruction_cancel {z z' : Instruction} (h : z.Written) (h' : z'.Written)
    (ht : z.text.toList ++ (noteText z.note ++ '\n' :: x) =
      z'.text.toList ++ (noteText z'.note ++ '\n' :: y)) : z = z' ∧ x = y := by
  have hx := closes_note h.note x
  have hy := closes_note h'.note y
  rw [toList_text h.types, toList_text h'.types] at ht
  simp only [List.append_assoc, List.cons_append] at ht
  obtain ⟨hop, ht⟩ := opcode_cancel h.opcode h'.opcode (stops_cons (by decide))
    (stops_cons (by decide)) ht
  obtain ⟨htypes, ht⟩ := run_cancel (field_types _) (field_types _) (hx.stops_operandsText _)
    (hy.stops_operandsText _) (List.cons.inj ht).2
  obtain ⟨hops, ht⟩ := operands_cancel h.operands h'.operands hx hy ht
  obtain ⟨hnote, hxy⟩ := note_cancel h.note h'.note ht
  have htypes := typesText_injective h.types h'.types htypes
  cases z
  cases z'
  cases hop
  cases htypes
  cases hops
  cases hnote
  exact ⟨rfl, hxy⟩

/-- The line of an instruction at an address. -/
def codeLine (width : Nat) (e : Instruction × Nat) : List Char :=
  (Program.instructionLine width e.2 e.1).toList

theorem codeLine_append (width : Nat) (e : Instruction × Nat) (x : List Char) :
    codeLine width e ++ x = "  @".toList ++ ((toString (e.2 : Int)).toList ++
      (List.replicate (width - (toString e.2).length + 1) ' ' ++
        (e.1.text.toList ++ (noteText e.1.note ++ '\n' :: x)))) := by
  simp only [codeLine, Program.instructionLine, Program.padRight, String.toList_append,
    String.toList_ofList, List.append_assoc, noteText, List.replicate_succ']
  rfl

theorem indented_codeLine (width : Nat) : Indented (codeLine width) := by
  intro e
  rw [← List.append_nil (codeLine width e), codeLine_append]
  exact ⟨_, rfl⟩

theorem stops_text {z : Instruction} (h : z.Written) (x : List Char) :
    Stops (· = ' ') (z.text.toList ++ x) := by
  have hfirst : ∀ op ∈ Opcode.all, ∃ c cs, op.name.toList = c :: cs ∧ c ≠ ' ' := by
    intro op hop
    have hhead : ∀ op ∈ Opcode.all, op.name.toList.head?.any (· ≠ ' ') = true := by decide +kernel
    have hop := hhead op hop
    cases hname : op.name.toList with
    | nil =>
      rw [hname] at hop
      cases hop
    | cons c cs => exact ⟨c, cs, rfl, by simpa [hname] using hop⟩
  obtain ⟨c, cs, hname, hc⟩ := hfirst _ (mem_all_of_known h.opcode)
  rw [toList_text h.types, hname]
  exact stops_cons hc

/-- Lines of any two widths separate as well. -/
theorem separates_codeLine (width width' : Nat) :
    Separates (fun e => e.1.Written) (codeLine width) (codeLine width') := by
  have hblank : ∀ (k : Nat), ∀ d ∈ List.replicate k ' ', d = ' ' := fun k d hd =>
    (List.mem_replicate.mp hd).2
  have hstops : ∀ (k : Nat) (x : List Char),
      Stops IsField (List.replicate (k + 1) ' ' ++ x) := fun k x => stops_cons (by decide)
  intro a b x y ha hb heq
  rw [codeLine_append, codeLine_append] at heq
  obtain ⟨haddr, heq⟩ := integer_cancel (hstops _ _) (hstops _ _) (List.append_cancel_left heq)
  obtain ⟨-, heq⟩ := run_cancel (hblank _) (hblank _) (stops_text ha _) (stops_text hb _) heq
  obtain ⟨hz, hxy⟩ := instruction_cancel ha hb heq
  exact ⟨Prod.ext hz (Int.ofNat_inj.mp haddr), hxy⟩

end VectorMachine.Listing
