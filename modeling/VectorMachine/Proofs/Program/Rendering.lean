import VectorMachine.Program.Listing
import VectorMachine.Proofs.Program.Words

/-!
# Renderings of statements

A list of statements has many texts: the blanks between two words may be any but none, the blanks
around a statement and the number of empty statements may be any, and the last semicolon may be
missing.  Reading takes each of them back to the words of the statements.  What assembly makes of
statements does not depend on their lines and texts, so all texts of one list of statements assemble
alike.
-/

namespace VectorMachine.Assembler
set_option autoImplicit false

/-- A word that can stand in a statement. -/
structure IsToken (w : String) : Prop where
  nonempty : w ≠ ""
  lexeme : IsLexeme w

def IsStatement (ws : List String) : Prop := ws ≠ [] ∧ ∀ w ∈ ws, IsToken w

/-- Without separators, quotes and semicolons a text is a word. -/
theorem isToken_of_all {w : String} (hw : w ≠ "")
    (h : w.toList.all (fun d => ¬ Splits d ∧ d ≠ '"') = true) : IsToken w :=
  ⟨hw, .of_plain fun d hd => of_decide_eq_true (List.all_eq_true.mp h d hd)⟩

/-- A text of separators only. -/
def IsGap (g : List Char) : Prop := ∀ d ∈ g, isSeparator d = true

/-- `Spaced ws t`: the text `t` has the words `ws`, a separator or more between any two of them, and
any number of separators around them. -/
inductive Spaced : List String → List Char → Prop
  | blank {g : List Char} (hg : IsGap g) : Spaced [] g
  | last {g g' : List Char} {w : String} (hg : IsGap g) (hg' : IsGap g') :
      Spaced [w] (g ++ w.toList ++ g')
  | next {g t : List Char} {w w' : String} {ws : List String} {d : Char} (hg : IsGap g)
      (hd : isSeparator d = true) (ht : Spaced (w' :: ws) t) :
      Spaced (w :: w' :: ws) (g ++ w.toList ++ d :: t)

/-- `Rendered sts t`: the text `t` has the statements `sts`, each followed by a semicolon, which may
be missing behind the last one, and any number of empty statements among them. -/
inductive Rendered : List (List String) → List Char → Prop
  | blank {g : List Char} (hg : IsGap g) : Rendered [] g
  | last {ws : List String} {u : List Char} (hu : Spaced ws u) : Rendered [ws] u
  | empty {g t : List Char} {sts : List (List String)} (hg : IsGap g) (ht : Rendered sts t) :
      Rendered sts (g ++ ';' :: t)
  | next {ws : List String} {u t : List Char} {sts : List (List String)} (hu : Spaced ws u)
      (ht : Rendered sts t) : Rendered (ws :: sts) (u ++ ';' :: t)

variable {r : Reader} {sts : List (List String)} {ws : List String} {u v t g : List Char}
  {a b : Bool} {d : Char}

/-! ### What has been read -/

namespace Reader

/-- The words of the statements that have been read. -/
def doneWords (r : Reader) : List (List String) := (r.done.map (·.words)).reverse

/-- The reader has the statements `sts`, the words `ws` of the current statement and the characters
`u` of the current word, and stands between double quotes if `b`. -/
structure Shows (r : Reader) (sts : List (List String)) (ws : List String) (u : List Char)
    (b : Bool) : Prop where
  done : r.doneWords = sts
  words : r.words.reverse = ws
  word : r.word.reverse = u
  quoted : r.quoted = b

/-- The same after the current word has been ended, if there is one. -/
def Stands (r : Reader) (sts : List (List String)) (ws : List String) : Prop :=
  r.endWord.Shows sts ws [] false

namespace Shows

theorem countLine (h : r.Shows sts ws u b) (d : Char) : (r.countLine d).Shows sts ws u b := by
  unfold Reader.countLine
  split
  · exact ⟨h.done, h.words, h.word, h.quoted⟩
  · exact h

theorem keep (h : r.Shows sts ws u b) (d : Char) : (r.keep d).Shows sts ws u b :=
  ⟨h.done, h.words, h.word, h.quoted⟩

theorem mark (h : r.Shows sts ws u b) : r.mark.Shows sts ws u b := by
  unfold Reader.mark
  split
  · exact ⟨h.done, h.words, h.word, h.quoted⟩
  · exact h

theorem extend (h : r.Shows sts ws u b) (d : Char) : (r.extend d).Shows sts ws (u ++ [d]) b :=
  ⟨h.done, h.words, by simp [Reader.extend, Reader.keep, h.word], h.quoted⟩

theorem setQuoted (h : r.Shows sts ws u a) (b : Bool) :
    { r with quoted := b }.Shows sts ws u b :=
  ⟨h.done, h.words, h.word, rfl⟩

theorem endWord_nil (h : r.Shows sts ws [] b) : r.endWord.Shows sts ws [] b := by
  have hword : r.word = [] := by simpa using h.word
  simpa [Reader.endWord, hword] using h

theorem endWord_cons {w : String} (h : r.Shows sts ws w.toList b) (hw : w ≠ "") :
    r.endWord.Shows sts (ws ++ [w]) [] b := by
  have hne : r.word ≠ [] := by
    rintro hword
    have hnil := h.word
    rw [hword] at hnil
    exact hw (String.toList_eq_nil_iff.mp hnil.symm)
  have hw' : String.ofList r.word.reverse = w := by rw [h.word, String.ofList_toList]
  simp only [Reader.endWord, List.isEmpty_iff, hne, if_false]
  exact ⟨h.done, by simp [hw', h.words], rfl, h.quoted⟩

theorem stands (h : r.Shows sts ws [] false) : r.Stands sts ws := h.endWord_nil

theorem stands_word {w : String} (h : r.Shows sts ws w.toList false) (hw : w ≠ "") :
    r.Stands sts (ws ++ [w]) :=
  h.endWord_cons hw

end Shows

theorem Stands.quoted_eq (h : r.Stands sts ws) : r.quoted = false :=
  Words.quoted_endWord.symm.trans h.quoted

/-- A statement is ended; it counts if it has words. -/
theorem Stands.endStatement (h : r.Stands sts ws) :
    r.endStatement.Shows (sts ++ if ws = [] then [] else [ws]) [] [] false := by
  refine ⟨?_, rfl, rfl, h.quoted⟩
  have hdone := h.done
  simp only [doneWords] at hdone
  simp only [doneWords, Reader.endStatement, List.isEmpty_iff]
  rw [← h.words, ← hdone]
  by_cases hnil : r.endWord.words = [] <;> simp [hnil]

end Reader

/-! ### Reading on -/

theorem isSeparator_ne (hd : isSeparator d = true) : d ≠ ';' ∧ d ≠ '\\' := by
  constructor <;>
  · rintro rfl
    cases hd

/-- Outside of double quotes every character is taken alone. -/
theorem readFrom_unquoted (hr : r.quoted = false) (d : Char) (t : List Char) :
    readFrom r (d :: t) = readFrom (readPlain (r.countLine d) d) t := by
  have hline : (r.countLine d).quoted = false := by
    unfold Reader.countLine
    split <;> exact hr
  by_cases hd : d = '\\'
  · subst hd
    have hsame : r.countLine '\\' = r := by simp [Reader.countLine]
    rw [hsame]
    cases t with
    | nil => simp [readFrom, hsame, hr]
    | cons e t => rw [readFrom, if_neg (by simp [hr])]
  · rw [readFrom.eq_3 _ _ _ (fun e t he _ => hd he)]
    simp [hline]

/-- The current word grows by what is spelled behind it. -/
theorem readFrom_spelled (hv : Spelled a v b) (h : r.Shows sts ws u a) :
    ∃ r', readFrom r (v ++ t) = readFrom r' t ∧ r'.Shows sts ws (u ++ v) b := by
  induction hv generalizing r u with
  | nil => exact ⟨r, rfl, by simpa using h⟩
  | @plain d w b hd _ ih =>
    have hsemi : d ≠ ';' := fun he => hd (.inl he)
    have hsep : isSeparator d ≠ true := fun he => hd (.inr he)
    obtain ⟨r', hread, hr'⟩ := ih (((h.countLine d).mark.extend d).setQuoted (d = '"'))
    refine ⟨r', ?_, by simpa using hr'⟩
    rw [List.cons_append, readFrom_unquoted h.quoted, readPlain, if_neg hsemi, if_neg hsep]
    exact hread
  | @escaped d w b _ ih =>
    obtain ⟨r', hread, hr'⟩ := ih ((h.extend '\\').extend d)
    refine ⟨r', ?_, by simpa using hr'⟩
    rw [List.cons_append, List.cons_append, readFrom, if_pos h.quoted]
    exact hread
  | @quoted d w b hd _ ih =>
    obtain ⟨r', hread, hr'⟩ := ih (((h.countLine d).extend d).setQuoted (d ≠ '"'))
    refine ⟨r', ?_, by simpa using hr'⟩
    rw [List.cons_append, readFrom.eq_3 _ _ _ (fun e t he _ => hd he)]
    simp only [(h.countLine d).quoted, if_true]
    exact hread

theorem readFrom_separator (hd : isSeparator d = true) (h : r.Stands sts ws) :
    ∃ r', readFrom r (d :: t) = readFrom r' t ∧ r'.Shows sts ws [] false := by
  refine ⟨(r.countLine d).endWord.keep d, ?_, ?_⟩
  · rw [readFrom_unquoted h.quoted_eq, readPlain, if_neg (isSeparator_ne hd).1, if_pos hd]
  · have hline : (r.countLine d).endWord = r.endWord.countLine d := by
      unfold Reader.countLine Reader.endWord
      split <;> split <;> rfl
    rw [hline]
    exact (Reader.Shows.countLine h d).keep d

/-- Between two words separators are read without a trace. -/
theorem readFrom_gap_nil (hg : IsGap g) (h : r.Shows sts ws [] false) :
    ∃ r', readFrom r (g ++ t) = readFrom r' t ∧ r'.Shows sts ws [] false := by
  induction g generalizing r with
  | nil => exact ⟨r, rfl, h⟩
  | cons d g ih =>
    obtain ⟨s, hread, hs⟩ := readFrom_separator (t := g ++ t) (hg d (by simp)) h.stands
    obtain ⟨r', hread', hr'⟩ := ih (fun e he => hg e (by simp [he])) hs
    exact ⟨r', hread.trans hread', hr'⟩

/-- Separators change neither the words nor the statements. -/
theorem readFrom_gap (hg : IsGap g) (h : r.Stands sts ws) :
    ∃ r', readFrom r (g ++ t) = readFrom r' t ∧ r'.Stands sts ws := by
  cases g with
  | nil => exact ⟨r, rfl, h⟩
  | cons d g =>
    obtain ⟨s, hread, hs⟩ := readFrom_separator (t := g ++ t) (hg d (by simp)) h
    have hg' : IsGap g := fun e he => hg e (by simp [he])
    obtain ⟨r', hread', hr'⟩ := readFrom_gap_nil (t := t) hg' hs
    exact ⟨r', hread.trans hread', hr'.stands⟩

theorem readFrom_semicolon (h : r.Stands sts ws) :
    ∃ r', readFrom r (';' :: t) = readFrom r' t ∧
      r'.Shows (sts ++ if ws = [] then [] else [ws]) [] [] false := by
  refine ⟨r.endStatement, ?_, h.endStatement⟩
  rw [readFrom_unquoted h.quoted_eq, readPlain, if_pos rfl]
  simp [Reader.countLine]

theorem readFrom_word {w : String} (hg : IsGap g) (hw : IsToken w) (h : r.Shows sts ws [] false) :
    ∃ r', readFrom r (g ++ w.toList ++ t) = readFrom r' t ∧ r'.Stands sts (ws ++ [w]) := by
  obtain ⟨s, hread, hs⟩ := readFrom_gap_nil (t := w.toList ++ t) hg h
  obtain ⟨r', hread', hr'⟩ := readFrom_spelled (t := t) hw.lexeme hs
  rw [List.append_assoc]
  exact ⟨r', hread.trans hread', hr'.stands_word hw.nonempty⟩

/-- The words of a text are read in order. -/
theorem Spaced.readFrom {vs : List String} (hu : Spaced vs u) (hvs : ∀ w ∈ vs, IsToken w)
    (h : r.Shows sts ws [] false) :
    ∃ r', Assembler.readFrom r (u ++ t) = Assembler.readFrom r' t ∧ r'.Stands sts (ws ++ vs) := by
  induction hu generalizing r ws with
  | blank hg => simpa using readFrom_gap hg h.stands
  | @last g g' w hg hg' =>
    obtain ⟨s, hread, hs⟩ := readFrom_word (t := g' ++ t) hg (hvs w (by simp)) h
    obtain ⟨r', hread', hr'⟩ := readFrom_gap (t := t) hg' hs
    exact ⟨r', by simpa using hread.trans hread', hr'⟩
  | @next g u w w' vs d hg hd _ ih =>
    obtain ⟨s, hread, hs⟩ := readFrom_word (t := d :: u ++ t) hg (hvs w (by simp)) h
    obtain ⟨s', hread', hs'⟩ := readFrom_separator (t := u ++ t) hd hs
    obtain ⟨r', hread'', hr'⟩ := ih (fun x hx => hvs x (List.mem_cons_of_mem _ hx)) hs'
    exact ⟨r', by simpa using (hread.trans hread').trans hread'', by simpa using hr'⟩

/-- The statements of a text are read in order; the last one need not be ended. -/
theorem Rendered.readFrom {news : List (List String)} (ht : Rendered news t)
    (hnews : ∀ vs ∈ news, IsStatement vs) (h : r.Shows sts [] [] false) :
    ∃ olds ws, (Assembler.readFrom r t).Stands olds ws ∧
      olds ++ (if ws = [] then [] else [ws]) = sts ++ news := by
  induction ht generalizing r sts with
  | @blank g hg =>
    obtain ⟨r', hread, hr'⟩ := readFrom_gap (t := []) hg h.stands
    rw [List.append_nil] at hread
    exact ⟨sts, [], hread ▸ hr', rfl⟩
  | @last ws u hu =>
    obtain ⟨hne, hws⟩ := hnews ws (by simp)
    obtain ⟨r', hread, hr'⟩ := hu.readFrom (t := []) hws h
    rw [List.append_nil] at hread
    exact ⟨sts, ws, hread ▸ hr', by rw [if_neg hne]⟩
  | @empty g t news hg _ ih =>
    obtain ⟨s, hread, hs⟩ := readFrom_gap (t := ';' :: t) hg h.stands
    obtain ⟨s', hread', hs'⟩ := readFrom_semicolon (t := t) hs
    rw [hread, hread']
    exact ih hnews (by simpa using hs')
  | @next ws u t news hu _ ih =>
    obtain ⟨hne, hws⟩ := hnews ws (by simp)
    obtain ⟨s, hread, hs⟩ := hu.readFrom (t := ';' :: t) hws h
    obtain ⟨s', hread', hs'⟩ := readFrom_semicolon (t := t) hs
    rw [hread, hread']
    rw [List.nil_append, if_neg hne] at hs'
    obtain ⟨olds, vs, hstands, heq⟩ := ih (fun x hx => hnews x (by simp [hx])) hs'
    exact ⟨olds, vs, hstands, by simpa using heq⟩

/-- A rendering is read as the statements that it renders. -/
theorem Rendered.statements {source : String} (h : Rendered sts source.toList)
    (hsts : ∀ ws ∈ sts, IsStatement ws) :
    ∃ read, Assembler.statements source = .ok read ∧ read.map (·.words) = sts := by
  have hstart : ({} : Reader).Shows [] [] [] false := ⟨rfl, rfl, rfl, rfl⟩
  obtain ⟨olds, ws, hstands, heq⟩ := h.readFrom hsts hstart
  refine ⟨(Assembler.readFrom {} source.toList).endStatement.done.reverse, ?_, ?_⟩
  · simp [Assembler.statements, hstands.quoted_eq]
  · rw [List.map_reverse]
    exact hstands.endStatement.done.trans heq

/-! ### Statements with the same words -/

/-- Equal results, and errors with the same cause. -/
def SameOutcome {α : Type} (x y : Except Error α) : Prop :=
  x.mapError (·.cause) = y.mapError (·.cause)

theorem SameOutcome.cases {α : Type} {x y : Except Error α} (h : SameOutcome x y) :
    (∃ z, x = .ok z ∧ y = .ok z) ∨ ∃ e e', x = .error e ∧ y = .error e' ∧ e.cause = e'.cause := by
  cases x with
  | ok z =>
    cases y with
    | ok z' =>
      obtain rfl : z = z' := Except.ok.inj h
      exact .inl ⟨z, rfl, rfl⟩
    | error e' => cases h
  | error e =>
    cases y with
    | ok z' => cases h
    | error e' => exact .inr ⟨e, e', rfl, rfl, Except.error.inj h⟩

theorem pass_congr {σ : Type} {step : σ → Statement → Except Cause σ}
    (hstep : ∀ x st st', st.words = st'.words → step x st = step x st') {read read' : List Statement}
    (h : read.map (·.words) = read'.map (·.words)) (x : σ) :
    SameOutcome (pass step x read) (pass step x read') := by
  induction read generalizing read' x with
  | nil =>
    obtain rfl : read' = [] := by simpa using h.symm
    rfl
  | cons st read ih =>
    obtain _ | ⟨st', read'⟩ := read'
    · cases h
    · obtain ⟨hst, hread⟩ := List.cons.inj h
      simp only [pass, hstep x st st' hst]
      cases step x st' with
      | ok y => exact ih hread y
      | error c => rfl

theorem assembleStatements_congr {read read' : List Statement}
    (h : read.map (·.words) = read'.map (·.words)) (syms : Symbols) :
    SameOutcome (assembleStatements syms read) (assembleStatements syms read') := by
  have hdeclare : ∀ d st st', st.words = st'.words → declare syms d st = declare syms d st' := by
    intro d st st' hst
    simp only [declare, hst]
  have hassemble : ∀ e st st', st.words = st'.words →
      assembleStatement e st = assembleStatement e st' := by
    intro e st st' hst
    simp only [assembleStatement, hst]
  unfold assembleStatements
  rcases (pass_congr hdeclare h {}).cases with ⟨d, hd, hd'⟩ | ⟨e, e', he, he', hc⟩
  · rw [hd, hd']
    rcases (pass_congr hassemble h { program := d.program }).cases with
      ⟨e, he, he'⟩ | ⟨e, e', he, he', hc⟩
    · simp only [he, he', bind, Except.bind]
      rfl
    · simp only [he, he', bind, Except.bind]
      exact congrArg Except.error hc
  · simp only [he, he', bind, Except.bind]
    exact congrArg Except.error hc

/-- A rendering of statements is read as their words in order, and two renderings of the same
statements assemble to the same program or fail with the same cause. -/
theorem renderings_agree {source source' : String} (hsts : ∀ ws ∈ sts, IsStatement ws)
    (h : Rendered sts source.toList) (h' : Rendered sts source'.toList) (syms : Symbols) :
    (∃ read, statements source = .ok read ∧ read.map (·.words) = sts) ∧
      ((∃ p p', assemble source syms = .ok p ∧ assemble source' syms = .ok p' ∧ p = p' ∧
          p.hash = p'.hash) ∨
        ∃ e e', assemble source syms = .error e ∧ assemble source' syms = .error e' ∧
          e.cause = e'.cause) := by
  obtain ⟨read, hread, hwords⟩ := h.statements hsts
  obtain ⟨read', hread', hwords'⟩ := h'.statements hsts
  refine ⟨⟨read, hread, hwords⟩, ?_⟩
  simp only [assemble, hread, hread']
  rcases (assembleStatements_congr (hwords.trans hwords'.symm) syms).cases with
    ⟨p, hp, hp'⟩ | herror
  · exact .inl ⟨p, p, hp, hp', rfl, rfl⟩
  · exact .inr herror

/-- A note with a semicolon and a quote in it, and then the end. -/
def noted : List (List String) := [["#META", "\"a;\\\" \""], ["END", "void"]]

/-- The note keeps its semicolon, and the empty statements around it do not count. -/
theorem renderings_agree_noted :
    (∃ read, statements "#META \"a;\\\" \";END void;" = .ok read ∧ read.map (·.words) = noted) ∧
      ((∃ p p', assemble "#META \"a;\\\" \";END void;" {} = .ok p ∧
          assemble ";\n;#META\t\"a;\\\" \" ;END  void" {} = .ok p' ∧ p = p' ∧ p.hash = p'.hash) ∨
        ∃ e e', assemble "#META \"a;\\\" \";END void;" {} = .error e ∧
          assemble ";\n;#META\t\"a;\\\" \" ;END  void" {} = .error e' ∧ e.cause = e'.cause) := by
  have hgap : ∀ g : List Char, g.all isSeparator = true → IsGap g := by simp [IsGap]
  have hquoted : IsLexeme "\"a;\\\" \"" :=
    .plain (by decide) (.quoted (by decide) (.quoted (by decide) (.escaped
      (.quoted (by decide) (.quoted (by decide) (.nil _))))))
  have hnoted : ∀ ws ∈ noted, IsStatement ws := by
    simp only [noted, forall_eq, IsStatement, List.mem_cons, List.not_mem_nil, or_false,
      forall_eq_or_imp]
    exact ⟨⟨by decide, isToken_of_all (by decide) rfl, ⟨by decide, hquoted⟩⟩,
      by decide, isToken_of_all (by decide) rfl, isToken_of_all (by decide) rfl⟩
  have hended : Rendered noted "#META \"a;\\\" \";END void;".toList :=
    .next (.next (g := []) (d := ' ') (hgap _ rfl) rfl (.last (g := []) (hgap _ rfl) (hgap [] rfl)))
      (.next (.next (g := []) (d := ' ') (hgap _ rfl) rfl
        (.last (g := []) (hgap _ rfl) (hgap [] rfl))) (.blank (hgap [] rfl)))
  have hspread : Rendered noted ";\n;#META\t\"a;\\\" \" ;END  void".toList :=
    .empty (g := []) (hgap _ rfl) (.empty (g := ['\n']) (hgap _ rfl)
      (.next (.next (g := []) (d := '\t') (hgap _ rfl) rfl
          (.last (g := []) (hgap _ rfl) (hgap [' '] rfl)))
        (.last (.next (g := []) (d := ' ') (hgap _ rfl) rfl
          (.last (g := [' ']) (hgap _ rfl) (hgap [] rfl))))))
  exact renderings_agree hnoted hended hspread {}

end VectorMachine.Assembler
