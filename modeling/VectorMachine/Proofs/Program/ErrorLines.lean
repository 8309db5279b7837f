import Mathlib.Control.Monad.Basic
import VectorMachine.Proofs.Program.Rendering

/-!
# Lines of errors

An assembly error names the line of the statement that it is about.  This is the line on which the
first word of the statement begins, except that the reader does not count a line feed which a
backslash between double quotes takes with it.  So the line falls short by the number of such line
feeds before the statement, and by nothing else: neither by blanks and empty statements nor by line
feeds between quotes which no backslash precedes.
-/

namespace VectorMachine.Assembler
set_option autoImplicit false

variable {r y : Reader} {t u v before : List Char} {d : Char} {b : Bool} {line : Nat} {w : String}
  {sts : List (List String)} {ws : List String} {syms : Symbols} {read : List Statement}

/-- `takenFeeds b t`: the number of line feeds in `t` that a backslash between double quotes takes
with it; `t` begins between quotes if `b`. -/
def takenFeeds : Bool → List Char → Nat
  | _, [] => 0
  | false, d :: t => takenFeeds (d = '"') t
  | true, '\\' :: d :: t => (if d = '\n' then 1 else 0) + takenFeeds true t
  | true, d :: t => takenFeeds (d ≠ '"') t

/-- `Written sts ws t`: the text `t` has the statements `sts`, each ended by a semicolon, and behind
them the words `ws` of a statement that is not ended.  Statements without words do not count. -/
inductive Written : List (List String) → List String → List Char → Prop
  | start : Written [] [] []
  | blank {sts : List (List String)} {ws : List String} {t : List Char} {d : Char}
      (h : Written sts ws t) (hd : isSeparator d = true) : Written sts ws (t ++ [d])
  | word {sts : List (List String)} {ws : List String} {t : List Char} {w : String}
      (h : Written sts ws t) (ht : ∀ d ∈ t.getLast?, Splits d) (hw : IsToken w) :
      Written sts (ws ++ [w]) (t ++ w.toList)
  | finish {sts : List (List String)} {ws : List String} {t : List Char} (h : Written sts ws t) :
      Written (sts ++ if ws = [] then [] else [ws]) [] (t ++ [';'])

/-- `Located t sts w line`: in the text `t` the word `w` begins a statement behind the statements
`sts`, and `line` is its line up to line feeds that are taken. -/
def Located (t : List Char) (sts : List (List String)) (w : String) (line : Nat) : Prop :=
  IsToken w ∧ ∃ before d after, t = before ++ w.toList ++ d :: after ∧ Splits d ∧
    Written sts [] before ∧ line + takenFeeds false before = 1 + before.count '\n'

theorem Located.append (h : Located t sts w line) (u : List Char) :
    Located (t ++ u) sts w line := by
  obtain ⟨hw, before, d, after, rfl, hd, hbefore, hline⟩ := h
  exact ⟨hw, before, d, after ++ u, by simp, hd, hbefore, hline⟩

theorem takenFeeds_escaped (d : Char) (u : List Char) :
    takenFeeds true ('\\' :: d :: u) = (if d = '\n' then 1 else 0) + takenFeeds true u := rfl

theorem takenFeeds_quoted (hd : d ≠ '\\') (u : List Char) :
    takenFeeds true (d :: u) = takenFeeds (d ≠ '"') u := by
  rw [takenFeeds]
  rintro e t he -
  exact hd he

/-! ### What the reader keeps -/

/-- The current line is the line behind the text that has been read, and how line feeds behind it
are counted is up to whether the reader stands between quotes. -/
structure Reader.Counts (r : Reader) (t : List Char) : Prop where
  line : r.line + takenFeeds false t = 1 + t.count '\n'
  line_ne : r.line ≠ 0
  taken : ∀ u, takenFeeds false (t ++ u) = takenFeeds false t + takenFeeds r.quoted u

theorem Reader.Counts.append (h : r.Counts t)
    (hline : y.line + takenFeeds r.quoted v = r.line + v.count '\n') (hle : r.line ≤ y.line)
    (htaken : ∀ u, takenFeeds r.quoted (v ++ u) =
      takenFeeds r.quoted v + takenFeeds y.quoted u) : y.Counts (t ++ v) := by
  have hold := h.line
  have hne := h.line_ne
  refine ⟨?_, by omega, fun u => ?_⟩
  · rw [h.taken, List.count_append]
    omega
  · rw [List.append_assoc, h.taken, htaken, h.taken]
    omega

/-- The text that has been read is made up of the statements and words that have been found and the
current word, and their lines are right. -/
structure Reader.Follows (r : Reader) (t : List Char) : Prop where
  word : ∃ before, t = before ++ r.word.reverse ∧ Written r.doneWords r.words.reverse before ∧
    (∀ d ∈ before.getLast?, Splits d) ∧ (r.words = [] → r.word ≠ [] →
      r.start + takenFeeds false before = 1 + before.count '\n')
  spelled : Spelled false r.word.reverse r.quoted
  start : r.start = 0 ↔ r.words = [] ∧ r.word = []
  first : ∀ w ws, r.words.reverse = w :: ws → Located t r.doneWords w r.start
  done : ∀ earlier st later, r.done.reverse = earlier ++ st :: later →
    ∃ w ws, st.words = w :: ws ∧ Located t (earlier.map (·.words)) w st.line

theorem Reader.countLine_quoted : (r.countLine d).quoted = r.quoted := by
  unfold Reader.countLine
  split <;> rfl

theorem Reader.countLine_line : (r.countLine d).line = r.line + [d].count '\n' := by
  unfold Reader.countLine
  split
  · rename_i hd
    simp [hd]
  · rename_i hd
    simp [hd]

namespace Reader.Follows

theorem quoted_eq_false (h : r.Follows t) (hword : r.word = []) : r.quoted = false := by
  have hspelled := h.spelled
  rw [hword, List.reverse_nil] at hspelled
  generalize r.quoted = b at hspelled ⊢
  cases hspelled
  rfl

/-- The current word grows, or a word begins. -/
theorem grow (h : r.Follows t) (hv : Spelled r.quoted v y.quoted) (hne : v ≠ [])
    (hword : y.word.reverse = r.word.reverse ++ v) (hwords : y.words = r.words)
    (hdone : y.done = r.done) (hstart : y.start ≠ 0)
    (hkeep : r.start ≠ 0 → y.start = r.start)
    (hnew : r.start = 0 → y.start + takenFeeds false t = 1 + t.count '\n') :
    y.Follows (t ++ v) := by
  obtain ⟨before, ht, hbefore, hsplits, hfirst⟩ := h.word
  have hword' : y.word ≠ [] := by
    intro hnil
    rw [hnil, List.reverse_nil] at hword
    exact hne (List.append_eq_nil_iff.mp hword.symm).2
  refine ⟨⟨before, ?_, ?_, hsplits, fun hnil _ => ?_⟩, ?_, ?_, fun w ws hw => ?_,
    fun earlier st later hst => ?_⟩
  · rw [hword, ht, List.append_assoc]
  · rw [Reader.doneWords, hdone, hwords]
    exact hbefore
  · rw [hwords] at hnil
    by_cases hw : r.word = []
    · have hzero := h.start.mpr ⟨hnil, hw⟩
      have hline := hnew hzero
      rw [hw, List.reverse_nil, List.append_nil] at ht
      rwa [ht] at hline
    · have hzero : r.start ≠ 0 := fun hz => hw (h.start.mp hz).2
      rw [hkeep hzero]
      exact hfirst hnil hw
  · rw [hword]
    exact h.spelled.trans hv
  · exact ⟨fun hz => absurd hz hstart, fun hz => absurd hz.2 hword'⟩
  · rw [hwords] at hw
    have hzero : r.start ≠ 0 := by
      intro hz
      rw [(h.start.mp hz).1] at hw
      cases hw
    rw [hkeep hzero, Reader.doneWords, hdone]
    exact (h.first w ws hw).append v
  · rw [hdone] at hst
    obtain ⟨w, ws, hwords, hloc⟩ := h.done earlier st later hst
    exact ⟨w, ws, hwords, hloc.append v⟩

/-- Between quotes there is a current word, which takes every character. -/
theorem grow_quoted (h : r.Follows t) (hq : r.quoted = true)
    (hv : Spelled true v y.quoted) (hne : v ≠ [])
    (hword : y.word.reverse = r.word.reverse ++ v) (hwords : y.words = r.words)
    (hdone : y.done = r.done) (hstart : y.start = r.start) : y.Follows (t ++ v) := by
  have hzero : r.start ≠ 0 := by
    intro hz
    rw [h.quoted_eq_false (h.start.mp hz).2] at hq
    cases hq
  exact h.grow (hq ▸ hv) hne hword hwords hdone (hstart ▸ hzero) (fun _ => hstart)
    fun hz => absurd hz hzero

/-- A splitter behind the current word, if there is one, ends it. -/
theorem endWord (h : r.Follows t) (hq : r.quoted = false) (hd : Splits d) :
    Written r.doneWords r.endWord.words.reverse t ∧ (r.start = 0 ↔ r.endWord.words = []) ∧
      ∀ w ws, r.endWord.words.reverse = w :: ws → Located (t ++ [d]) r.doneWords w r.start := by
  obtain ⟨before, ht, hbefore, hsplits, hfirst⟩ := h.word
  by_cases hword : r.word = []
  · have hend : r.endWord = r := by simp [Reader.endWord, hword]
    rw [hword, List.reverse_nil, List.append_nil] at ht
    rw [hend, ht]
    refine ⟨hbefore, by simp [h.start, hword], fun w ws hw => ?_⟩
    exact (ht ▸ h.first w ws hw).append [d]
  · have hend : r.endWord.words = String.ofList r.word.reverse :: r.words := by
      simp [Reader.endWord, hword]
    have htoken : IsToken (String.ofList r.word.reverse) := by
      refine ⟨fun hnil => hword ?_, ?_⟩
      · have hlist := congrArg String.toList hnil
        simpa using hlist
      · have hspelled := h.spelled
        rw [hq] at hspelled
        rwa [IsLexeme, String.toList_ofList]
    have hwritten := hbefore.word hsplits htoken
    rw [String.toList_ofList, ← ht] at hwritten
    refine ⟨by simpa [hend] using hwritten, by simp [h.start, hword, hend], fun w ws hw => ?_⟩
    rw [hend, List.reverse_cons] at hw
    cases hwords : r.words.reverse with
    | nil =>
      rw [hwords] at hw
      obtain ⟨rfl, -⟩ := List.cons.inj hw
      have hnil : r.words = [] := by simpa using hwords
      rw [hwords] at hbefore
      refine ⟨htoken, before, d, [], ?_, hd, hbefore, hfirst hnil hword⟩
      rw [String.toList_ofList, ht]
    | cons w' ws' =>
      rw [hwords, List.cons_append] at hw
      obtain ⟨rfl, -⟩ := List.cons.inj hw
      exact (h.first _ ws' hwords).append [d]

theorem separate (h : r.Follows t) (hq : r.quoted = false) (hd : isSeparator d = true) :
    (r.endWord.keep d).Follows (t ++ [d]) := by
  obtain ⟨hwritten, hstart, hfirst⟩ := h.endWord hq (.inr hd)
  have hkeep : r.endWord.done = r.done ∧ r.endWord.start = r.start ∧ r.endWord.word = [] := by
    unfold Reader.endWord
    split
    · rename_i hword
      exact ⟨rfl, rfl, by simpa using hword⟩
    · exact ⟨rfl, rfl, rfl⟩
  obtain ⟨hdone, hsame, hword⟩ := hkeep
  refine ⟨⟨t ++ [d], by simp [Reader.keep, hword], ?_, ?_, fun _ hne => ?_⟩, ?_, ?_, ?_, ?_⟩
  · simpa only [Reader.doneWords, Reader.keep, hdone] using hwritten.blank hd
  · simp only [List.getLast?_append, List.getLast?_singleton, Option.some_or, Option.mem_some_iff]
    rintro _ rfl
    exact .inr hd
  · exact absurd hword hne
  · simpa only [Reader.keep, hword, Words.quoted_endWord, hq, List.reverse_nil] using
      Spelled.nil false
  · simpa only [Reader.keep, hsame, hword, and_true] using hstart
  · simpa only [Reader.doneWords, Reader.keep, hdone, hsame] using hfirst
  · intro earlier st later hst
    simp only [Reader.keep, hdone] at hst
    obtain ⟨w, ws, hwords, hloc⟩ := h.done earlier st later hst
    exact ⟨w, ws, hwords, hloc.append [d]⟩

theorem finish (h : r.Follows t) (hq : r.quoted = false) : r.endStatement.Follows (t ++ [';']) := by
  obtain ⟨hwritten, hstart, hfirst⟩ := h.endWord hq (.inl rfl)
  have hkeep : r.endWord.done = r.done ∧ r.endWord.start = r.start := by
    unfold Reader.endWord
    split <;> exact ⟨rfl, rfl⟩
  obtain ⟨hdone, hsame⟩ := hkeep
  have hdoneWords : r.endStatement.doneWords = r.doneWords ++
      if r.endWord.words.reverse = [] then [] else [r.endWord.words.reverse] := by
    simp only [Reader.doneWords, Reader.endStatement, List.isEmpty_iff, hdone,
      List.reverse_eq_nil_iff]
    split <;> simp
  refine ⟨⟨t ++ [';'], by simp [Reader.endStatement], ?_, ?_, fun _ hne => absurd rfl hne⟩, ?_, ?_,
    fun w ws hw => ?_, fun earlier st later hst => ?_⟩
  · rw [hdoneWords]
    exact hwritten.finish
  · simp only [List.getLast?_append, List.getLast?_singleton, Option.some_or, Option.mem_some_iff]
    rintro _ rfl
    exact .inl rfl
  · simpa only [Reader.endStatement, Words.quoted_endWord, hq, List.reverse_nil] using
      Spelled.nil false
  · simp [Reader.endStatement]
  · cases hw
  · simp only [Reader.endStatement, List.isEmpty_iff, hdone, hsame] at hst
    split at hst
    · obtain ⟨w, ws, hwords, hloc⟩ := h.done earlier st later hst
      exact ⟨w, ws, hwords, hloc.append [';']⟩
    · rename_i hwords
      rw [List.reverse_cons] at hst
      obtain rfl | ⟨later, last, rfl⟩ := List.eq_nil_or_concat later
      · obtain ⟨hearlier, hlast⟩ := List.append_inj' hst rfl
        obtain rfl := (List.cons.inj hlast).1
        cases hcurrent : r.endWord.words.reverse with
        | nil => exact absurd (by simpa using hcurrent) hwords
        | cons w ws =>
          refine ⟨w, ws, rfl, ?_⟩
          rw [← hearlier, List.map_reverse]
          exact hfirst w ws hcurrent
      · rw [List.concat_eq_append, ← List.cons_append, ← List.append_assoc] at hst
        obtain ⟨hst, -⟩ := List.append_inj' hst rfl
        obtain ⟨w, ws, hwords, hloc⟩ := h.done earlier st later hst
        exact ⟨w, ws, hwords, hloc.append [';']⟩

theorem countLine (h : r.Follows t) (d : Char) : (r.countLine d).Follows t := by
  unfold Reader.countLine
  split
  · exact ⟨h.word, h.spelled, h.start, h.first, h.done⟩
  · exact h

theorem readPlain (h : r.Follows t) (hc : r.Counts t) (hq : r.quoted = false) (d : Char) :
    (readPlain (r.countLine d) d).Follows (t ++ [d]) := by
  have hquoted : (r.countLine d).quoted = false := countLine_quoted.trans hq
  unfold Assembler.readPlain
  split
  · rename_i hd
    subst hd
    exact (h.countLine ';').finish hquoted
  · rename_i hsemi
    split
    · rename_i hd
      exact (h.countLine d).separate hquoted hd
    · rename_i hsep
      have hsplits : ¬ Splits d := fun hd => hd.elim hsemi hsep
      have hsame : r.countLine d = r := by
        have hd : d ≠ '\n' := fun hd => hsep (hd ▸ rfl)
        simp [Reader.countLine, hd]
      rw [hsame]
      have hmark : r.mark.word = r.word ∧ r.mark.words = r.words ∧ r.mark.done = r.done := by
        unfold Reader.mark
        split <;> exact ⟨rfl, rfl, rfl⟩
      obtain ⟨hword, hwords, hdone⟩ := hmark
      refine h.grow (v := [d]) (hq ▸ .plain hsplits (.nil _)) (by simp) ?_ hwords hdone ?_ ?_ ?_
      · simp [Reader.extend, Reader.keep, hword]
      · simp only [Reader.extend, Reader.keep, Reader.mark]
        split
        · exact hc.line_ne
        · assumption
      · intro hz
        simp [Reader.extend, Reader.keep, Reader.mark, hz]
      · intro hz
        simpa [Reader.extend, Reader.keep, Reader.mark, hz] using hc.line

end Reader.Follows

namespace Reader.Counts

theorem readPlain (h : r.Counts t) (hq : r.quoted = false) (d : Char) :
    (readPlain (r.countLine d) d).Counts (t ++ [d]) := by
  have hend : ∀ s : Reader, s.endWord.line = s.line ∧ s.mark.line = s.line ∧
      s.endWord.quoted = s.quoted := by
    intro s
    unfold Reader.endWord Reader.mark
    refine ⟨?_, ?_, ?_⟩ <;> split <;> rfl
  have hquoted : (r.countLine d).quoted = false := countLine_quoted.trans hq
  have hplain : (Assembler.readPlain (r.countLine d) d).line = (r.countLine d).line ∧
      (Assembler.readPlain (r.countLine d) d).quoted = decide (d = '"') := by
    unfold Assembler.readPlain
    split
    · rename_i hd
      subst hd
      exact ⟨(hend _).1, (hend _).2.2.trans hquoted⟩
    · split
      · rename_i hd
        have hne : d ≠ '"' := fun he => absurd (he ▸ hd) (by decide)
        rw [decide_eq_false hne]
        exact ⟨(hend _).1, (hend _).2.2.trans hquoted⟩
      · exact ⟨(hend _).2.1, rfl⟩
  have hline := countLine_line (r := r) (d := d)
  refine h.append (y := Assembler.readPlain (r.countLine d) d) ?_ (by omega) fun u => ?_
  · rw [hq, hplain.1, hline]
    rfl
  · rw [hq, hplain.2]
    simp [takenFeeds]

/-- Between quotes all line feeds count that are not taken. -/
theorem extend (h : r.Counts t) (hq : r.quoted = true) (hd : d ≠ '\\') :
    { (r.countLine d).extend d with quoted := d ≠ '"' }.Counts (t ++ [d]) := by
  have hline := countLine_line (r := r) (d := d)
  refine h.append (y := { (r.countLine d).extend d with quoted := d ≠ '"' }) ?_ ?_ fun u => ?_
  · rw [hq, takenFeeds_quoted hd]
    simpa [Reader.extend, Reader.keep, takenFeeds] using hline
  · simp only [Reader.extend, Reader.keep]
    omega
  · rw [hq, List.singleton_append, takenFeeds_quoted hd, takenFeeds_quoted hd]
    simp [takenFeeds]

end Reader.Counts

/-- A text that ends outside of quotes is made up of what has been found in it. -/
theorem Reader.Follows.readFrom (r : Reader) (u : List Char)
    (hend : (readFrom r u).quoted = false) :
    ∀ {t}, r.Follows t → r.Counts t →
      (Assembler.readFrom r u).Follows (t ++ u) ∧ (Assembler.readFrom r u).Counts (t ++ u) := by
  induction r, u using readFrom.induct with
  | case1 r => exact fun h hc => by simpa using ⟨h, hc⟩
  | case2 r d cs hq ih =>
    intro t h hc
    rw [Assembler.readFrom, if_pos hq] at hend ⊢
    have hgrow : ((r.extend '\\').extend d).Follows (t ++ ['\\', d]) :=
      h.grow_quoted hq (hq ▸ .escaped (.nil _)) (by simp) (by simp [Reader.extend, Reader.keep]) rfl
        rfl rfl
    have hcount : ((r.extend '\\').extend d).Counts (t ++ ['\\', d]) := by
      refine hc.append (y := (r.extend '\\').extend d) ?_ (Nat.le_refl _) fun u => ?_
      · rw [hq, takenFeeds_escaped]
        simp [Reader.extend, Reader.keep, takenFeeds, List.count_cons]
      · simp [Reader.extend, Reader.keep, hq, takenFeeds]
    simpa using ih hend hgrow hcount
  | case3 r d cs hq ih =>
    intro t h hc
    rw [Assembler.readFrom, if_neg hq] at hend ⊢
    have hq : r.quoted = false := by simpa using hq
    have hsame : r.countLine '\\' = r := by simp [Reader.countLine]
    have hgrow := h.readPlain hc hq '\\'
    have hcount := hc.readPlain hq '\\'
    rw [hsame] at hgrow hcount
    simpa using ih hend hgrow hcount
  | case4 r d cs hne s hq ih =>
    intro t h hc
    rw [Assembler.readFrom.eq_3 _ _ _ hne, if_pos hq] at hend ⊢
    by_cases hd : d = '\\'
    · obtain _ | ⟨e, cs⟩ := cs
      · subst hd
        cases hend
      · exact absurd rfl (hne e cs hd)
    · have hv : Spelled true [d] (decide (d ≠ '"')) := .quoted hd (.nil _)
      have hgrow := (h.countLine d).grow_quoted (y := { s.extend d with quoted := d ≠ '"' }) hq hv
        (by simp) (by simp [s, Reader.extend, Reader.keep]) rfl rfl rfl
      have hcount := hc.extend (Reader.countLine_quoted.symm.trans hq) hd
      simpa using ih hend hgrow hcount
  | case5 r d cs hne s hq ih =>
    intro t h hc
    rw [Assembler.readFrom.eq_3 _ _ _ hne, if_neg hq] at hend ⊢
    have hq : r.quoted = false := Reader.countLine_quoted.symm.trans (by simpa using hq)
    simpa using ih hend (h.readPlain hc hq d) (hc.readPlain hq d)

/-- Each statement of a text begins with its first word, behind the statements before it. -/
theorem located_of_statements {source : String} {earlier later : List Statement} {st : Statement}
    (h : statements source = .ok (earlier ++ st :: later)) :
    ∃ w ws, st.words = w :: ws ∧
      Located (source.toList ++ [';']) (earlier.map (·.words)) w st.line := by
  unfold statements at h
  dsimp only at h
  split at h
  · cases h
  · rename_i hq
    have hq : (readFrom {} source.toList).quoted = false := by simpa using hq
    have hstart : ({} : Reader).Follows [] :=
      ⟨⟨[], rfl, .start, by simp, fun _ hne => absurd rfl hne⟩, .nil _, by simp, by simp, by simp⟩
    have hcount : ({} : Reader).Counts [] := ⟨rfl, by simp, fun u => by simp [takenFeeds]⟩
    obtain ⟨hend, -⟩ := Reader.Follows.readFrom {} source.toList hq hstart hcount
    exact (hend.finish hq).done earlier st later (Except.ok.inj h)

/-! ### Failures -/

/-- A pass fails in the first statement that its step refuses. -/
theorem pass_eq_error {σ : Type} {step : σ → Statement → Except Cause σ} {x : σ} {e : Error}
    (h : pass step x read = .error e) : ∃ earlier st later y, read = earlier ++ st :: later ∧
      pass step x earlier = .ok y ∧ step y st = .error e.cause ∧ e.line = st.line ∧
        e.text = st.text := by
  induction read generalizing x with
  | nil => cases h
  | cons st read ih =>
    simp only [pass] at h
    split at h
    · rename_i y hy
      obtain ⟨earlier, st', later, z, rfl, hpass, hrest⟩ := ih h
      exact ⟨st :: earlier, st', later, z, rfl, by simpa only [pass, hy] using hpass, hrest⟩
    · rename_i c hc
      cases h
      exact ⟨[], st, read, x, rfl, rfl, hc, rfl, rfl⟩

/-- `Fails syms earlier st later c`: assembling the statements `earlier`, `st` and `later` fails in
`st`, in the first pass or in the second one. -/
inductive Fails (syms : Symbols) (earlier : List Statement) (st : Statement)
    (later : List Statement) (c : Cause) : Prop
  | first {d : Declared} (hd : pass (declare syms) {} earlier = .ok d)
      (hst : declare syms d st = .error c)
  | second {d : Declared} {e : Emitted}
      (hd : pass (declare syms) {} (earlier ++ st :: later) = .ok d)
      (he : pass assembleStatement { program := d.program } earlier = .ok e)
      (hst : assembleStatement e st = .error c)

theorem fails_of_error {e : Error} (h : assembleStatements syms read = .error e) :
    ∃ earlier st later, read = earlier ++ st :: later ∧ Fails syms earlier st later e.cause ∧
      e.line = st.line ∧ e.text = st.text := by
  unfold assembleStatements at h
  cases hd : pass (declare syms) {} read with
  | error e' =>
    rw [hd] at h
    cases h
    obtain ⟨earlier, st, later, d, rfl, hpass, hst, hplace⟩ := pass_eq_error hd
    exact ⟨earlier, st, later, rfl, .first hpass hst, hplace⟩
  | ok d =>
    rw [hd] at h
    simp only [bind, Except.bind] at h
    split at h
    · rename_i e' he
      cases h
      obtain ⟨earlier, st, later, z, rfl, hpass, hst, hplace⟩ := pass_eq_error he
      exact ⟨earlier, st, later, rfl, .second hd hpass hst, hplace⟩
    · cases h

/-- An assembly error names a statement that fails, and its line is the one on which the first word
of this statement begins, less the line feeds before it that a backslash between double quotes takes
with it. -/
theorem error_line {source : String} {e : Error} (h : assemble source syms = .error e)
    (hcause : e.cause ≠ .unterminated) :
    ∃ earlier st later, statements source = .ok (earlier ++ st :: later) ∧
      Fails syms earlier st later e.cause ∧ e.text = st.text ∧
      ∃ before w ws after, st.words = w :: ws ∧ source.toList = before ++ w.toList ++ after ∧
        IsToken w ∧ (∀ d ∈ after.head?, Splits d) ∧ Written (earlier.map (·.words)) [] before ∧
        e.line + takenFeeds false before = 1 + before.count '\n' := by
  unfold assemble at h
  split at h
  · cases h
    exact absurd rfl hcause
  · rename_i read hread
    obtain ⟨earlier, st, later, rfl, hfails, hline, htext⟩ := fails_of_error h
    obtain ⟨w, ws, hwords, htoken, before, d, after, hsource, hd, hbefore, hcount⟩ :=
      located_of_statements hread
    refine ⟨earlier, st, later, hread, hfails, htext, before, w, ws, ?_⟩
    -- the splitter behind the first word may be the end of the text
    obtain rfl | ⟨after, last, rfl⟩ := List.eq_nil_or_concat after
    · obtain ⟨hsource, -⟩ := List.append_inj' hsource rfl
      exact ⟨[], hwords, by simpa using hsource, htoken, by simp, hbefore, hline ▸ hcount⟩
    · rw [List.concat_eq_append, ← List.cons_append, ← List.append_assoc] at hsource
      obtain ⟨hsource, -⟩ := List.append_inj' hsource rfl
      exact ⟨d :: after, hwords, hsource, htoken, by simpa using hd, hbefore, hline ▸ hcount⟩

/-- The comment ends with a line feed that a backslash takes with it, so the next line counts as the
first one. -/
theorem error_line_comment :
    let source := "#COMMENT \"a\\\n\"; FOO void;"
    ∃ e, assemble source {} = .error e ∧ e.line = 1 ∧ e.cause ≠ .unterminated ∧
      ∃ earlier st later, statements source = .ok (earlier ++ st :: later) ∧
        Fails {} earlier st later e.cause ∧ e.text = st.text ∧
        ∃ before w ws after, st.words = w :: ws ∧ source.toList = before ++ w.toList ++ after ∧
          IsToken w ∧ (∀ d ∈ after.head?, Splits d) ∧ Written (earlier.map (·.words)) [] before ∧
          e.line + takenFeeds false before = 1 + before.count '\n' := by
  intro source
  have herror : assemble source {} = .error ⟨1, "FOO void", .unknownOpcode "FOO"⟩ := by
    decide +kernel
  exact ⟨_, herror, rfl, by simp, error_line herror (by simp)⟩

end VectorMachine.Assembler
