import VectorMachine.Assembler.Basic

/-!
# Words of assembly text

A word may hold blanks, semicolons and line feeds, but only between double quotes, and it ends
outside of them.  So a line feed that follows a word is the first one outside of quotes, and a word
with what follows it can be told apart from any other, whatever the word holds.
-/

namespace VectorMachine.Assembler
set_option autoImplicit false

variable {a b c : Bool} {d : Char} {u v w x y : List Char}

/-- Whether a character between words separates them or ends their statement. -/
def Splits (d : Char) : Prop := d = ';' ∨ isSeparator d = true

instance (d : Char) : Decidable (Splits d) := inferInstanceAs (Decidable (_ ∨ _))

/-- `Spelled a w b`: reading `w` as part of a word begins between quotes if `a`, and stops between
quotes if `b`. -/
inductive Spelled : Bool → List Char → Bool → Prop
  | nil (a : Bool) : Spelled a [] a
  | plain {d : Char} {w : List Char} {b : Bool} (hd : ¬ Splits d)
      (hw : Spelled (d = '"') w b) : Spelled false (d :: w) b
  | escaped {d : Char} {w : List Char} {b : Bool} (hw : Spelled true w b) :
      Spelled true ('\\' :: d :: w) b
  | quoted {d : Char} {w : List Char} {b : Bool} (hd : d ≠ '\\')
      (hw : Spelled (d ≠ '"') w b) : Spelled true (d :: w) b

theorem forall_of_all {P : Char → Prop} [DecidablePred P] {s : String}
    (h : (s.toList.all fun d => decide (P d)) = true) : ∀ d ∈ s.toList, P d := by
  simpa using h

/-- A text that is one word. -/
def IsLexeme (w : String) : Prop := Spelled false w.toList false

namespace Spelled

theorem trans (h : Spelled a u b) (h' : Spelled b v c) : Spelled a (u ++ v) c := by
  induction h with
  | nil => exact h'
  | plain hd _ ih => exact .plain hd (ih h')
  | escaped _ ih => exact .escaped (ih h')
  | quoted hd _ ih => exact .quoted hd (ih h')

/-- A text without quotes and separators is spelled as it is. -/
theorem of_plain (h : ∀ d ∈ w, ¬ Splits d ∧ d ≠ '"') : Spelled false w false := by
  induction w with
  | nil => exact .nil _
  | cons d w ih =>
    obtain ⟨hd, hq⟩ := h d (by simp)
    have hw := ih fun e he => h e (by simp [he])
    exact .plain hd (by simpa [hq] using hw)

/-- The first line feed outside of quotes ends a word. -/
theorem cancel (hu : Spelled a u false) (hv : Spelled a v false)
    (h : u ++ '\n' :: x = v ++ '\n' :: y) : u = v ∧ x = y := by
  have hlf : Splits '\n' := .inr rfl
  generalize hb : false = b at hu
  induction hu generalizing v with
  | nil a =>
    subst hb
    cases hv with
    | nil => exact ⟨rfl, (List.cons.inj h).2⟩
    | plain hd _ => exact absurd ((List.cons.inj h).1 ▸ hlf) hd
  | @plain d u b hd _ ih =>
    cases hv with
    | nil => exact absurd ((List.cons.inj h).1.symm ▸ hlf) hd
    | plain _ hw =>
      obtain ⟨rfl, ht⟩ := List.cons.inj h
      obtain ⟨rfl, hxy⟩ := ih hw ht hb
      exact ⟨rfl, hxy⟩
  | @escaped d u b _ ih =>
    cases hv with
    | escaped hw =>
      obtain ⟨rfl, ht⟩ := List.cons.inj (List.cons.inj h).2
      obtain ⟨rfl, hxy⟩ := ih hw ht hb
      exact ⟨rfl, hxy⟩
    | quoted hd _ => exact absurd (List.cons.inj h).1.symm hd
  | @quoted d u b hd _ ih =>
    cases hv with
    | escaped _ => exact absurd (List.cons.inj h).1 hd
    | quoted _ hw =>
      obtain ⟨rfl, ht⟩ := List.cons.inj h
      obtain ⟨rfl, hxy⟩ := ih hw ht hb
      exact ⟨rfl, hxy⟩

end Spelled

/-! ### The reader -/

/-- What holds of all words while a text is read. -/
structure Reader.Words (r : Reader) : Prop where
  word : Spelled false r.word.reverse r.quoted
  words : ∀ w ∈ r.words, IsLexeme w
  done : ∀ st ∈ r.done, ∀ w ∈ st.words, IsLexeme w

namespace Reader.Words

variable {r : Reader}

theorem endWord (h : r.Words) (hq : r.quoted = false) : r.endWord.Words := by
  unfold Reader.endWord
  split
  · exact h
  · refine ⟨hq ▸ .nil _, fun w hw => ?_, h.done⟩
    rcases List.mem_cons.mp hw with rfl | hw
    · simpa [IsLexeme, hq] using h.word
    · exact h.words w hw

theorem quoted_endWord : r.endWord.quoted = r.quoted := by
  unfold Reader.endWord
  split <;> rfl

theorem endStatement (h : r.Words) (hq : r.quoted = false) : r.endStatement.Words := by
  have he := h.endWord hq
  refine ⟨?_, by simp [Reader.endStatement], fun st hst w hw => ?_⟩
  · simp only [Reader.endStatement, quoted_endWord, hq]
    exact .nil _
  · simp only [Reader.endStatement] at hst
    split at hst
    · exact he.done st hst w hw
    · rcases List.mem_cons.mp hst with rfl | hst
      · exact he.words w (by simpa using hw)
      · exact he.done st hst w hw

/-- The current word grows by what is spelled behind it. -/
theorem grow (h : r.Words) (hw : Spelled r.quoted w b) {r' : Reader}
    (hword : r'.word.reverse = r.word.reverse ++ w) (hquoted : r'.quoted = b)
    (hwords : r'.words = r.words) (hdone : r'.done = r.done) : r'.Words := by
  refine ⟨?_, hwords ▸ h.words, hdone ▸ h.done⟩
  rw [hword, hquoted]
  exact h.word.trans hw

theorem countLine (h : r.Words) (d : Char) : (r.countLine d).Words := by
  unfold Reader.countLine
  split
  · exact ⟨h.word, h.words, h.done⟩
  · exact h

theorem readPlain (h : r.Words) (hq : r.quoted = false) (d : Char) : (readPlain r d).Words := by
  unfold Assembler.readPlain
  split
  · exact h.endStatement hq
  · rename_i hsemi
    split
    · have he := h.endWord hq
      exact ⟨he.word, he.words, he.done⟩
    · rename_i hsep
      have hsplits : ¬ Splits d := by
        rintro (hd | hd)
        · exact hsemi hd
        · exact hsep hd
      have hmark : ∀ s : Reader, s.mark.word = s.word ∧ s.mark.words = s.words ∧
          s.mark.done = s.done := by
        intro s
        unfold Reader.mark
        split <;> exact ⟨rfl, rfl, rfl⟩
      obtain ⟨hword, hwords, hdone⟩ := hmark r
      refine h.grow (w := [d]) (b := decide (d = '"')) (hq ▸ .plain hsplits (.nil _)) ?_ rfl hwords
        hdone
      simp [Reader.extend, Reader.keep, hword]

/-- A text that ends outside of quotes has been read as words.  A backslash that is the last
character and stands between quotes takes nothing with it, but then the text ends between quotes. -/
theorem readFrom (h : r.Words) (w : List Char) (hend : (readFrom r w).quoted = false) :
    (readFrom r w).Words := by
  induction r, w using readFrom.induct with
  | case1 r => exact h
  | case2 r d cs hq ih =>
    rw [Assembler.readFrom, if_pos hq] at hend ⊢
    refine ih (h.grow (w := ['\\', d]) (b := true) (hq ▸ .escaped (.nil _)) ?_ hq rfl rfl) hend
    simp [Reader.extend, Reader.keep]
  | case3 r d cs hq ih =>
    rw [Assembler.readFrom, if_neg hq] at hend ⊢
    exact ih (h.readPlain (by simpa using hq) '\\') hend
  | case4 r d cs hne s hq ih =>
    rw [Assembler.readFrom.eq_3 _ _ _ hne, if_pos hq] at hend ⊢
    by_cases hd : d = '\\'
    · obtain _ | ⟨e, cs⟩ := cs
      · subst hd
        cases hend
      · exact absurd rfl (hne e cs hd)
    · refine ih ((h.countLine d).grow (w := [d]) (b := decide (d ≠ '"'))
        (hq ▸ .quoted hd (.nil _)) ?_ rfl rfl rfl) hend
      simp [s, Reader.extend, Reader.keep]
  | case5 r d cs hne s hq ih =>
    rw [Assembler.readFrom.eq_3 _ _ _ hne, if_neg hq] at hend ⊢
    exact ih ((h.countLine d).readPlain (by simpa using hq) d) hend

end Reader.Words

/-- Every word of a text that has been read is a lexeme. -/
theorem isLexeme_of_statements {source : String} {sts : List Statement}
    (h : statements source = .ok sts) : ∀ st ∈ sts, ∀ w ∈ st.words, IsLexeme w := by
  unfold statements at h
  dsimp only at h
  split at h
  · cases h
  · rename_i hq
    cases h
    have hstart : ({} : Reader).Words := ⟨.nil _, by simp, by simp⟩
    have hend := hstart.readFrom source.toList (by simpa using hq)
    intro st hst
    exact (hend.endStatement (by simpa using hq)).done st (by simpa using hst)

end VectorMachine.Assembler
