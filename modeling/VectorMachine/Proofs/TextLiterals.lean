import VectorMachine.Config
import VectorMachine.Proofs.Program.Rendering
import VectorMachine.Proofs.Store.Changes

/-!
# String literals

Writing a literal, taking a literal from a statement and reading it are three walks over the same
escapes.  They agree: whatever a text holds, its literal is one word of every statement that it stands
in, and reading gives the text back.  Reading takes more texts than writing makes, and which ones it
takes is stated apart from the walk.
-/

namespace VectorMachine.Literal
set_option autoImplicit false

open Store (map_eq_ok)

variable {cs ds : List Char} {c l : Char}

/-- The letters that may follow a backslash, and the characters that they stand for. -/
def escapes : List (Char × Char) := [('t', '\t'), ('n', '\n'), ('r', '\r'), ('"', '"'), ('\\', '\\')]

/-- `Denotes cs ds`: the inner text `cs` of a literal is a sequence of escapes and of characters other
than the backslash, and they stand for `ds`. -/
inductive Denotes : List Char → List Char → Prop
  | nil : Denotes [] []
  | plain {c : Char} {cs ds : List Char} (hc : c ≠ '\\') (h : Denotes cs ds) :
      Denotes (c :: cs) (c :: ds)
  | escape {l c : Char} {cs ds : List Char} (hl : (l, c) ∈ escapes) (h : Denotes cs ds) :
      Denotes ('\\' :: l :: cs) (c :: ds)

theorem unescape?_eq_some : unescape? l = some c ↔ (l, c) ∈ escapes := by
  constructor
  · intro h
    unfold unescape? at h
    split at h <;> simp_all [escapes, eq_comm]
  · intro h
    simp only [escapes, List.mem_cons, Prod.mk.injEq, List.not_mem_nil, or_false] at h
    rcases h with ⟨rfl, rfl⟩ | ⟨rfl, rfl⟩ | ⟨rfl, rfl⟩ | ⟨rfl, rfl⟩ | ⟨rfl, rfl⟩ <;> rfl

theorem escapeLetter?_eq_none (h : escapeLetter? c = none) : c ≠ '\\' ∧ c ≠ '"' := by
  constructor <;>
  · rintro rfl
    cases h

/-- Reading the inner text of a literal takes what denotes a text, and gives that text. -/
theorem decode_eq_ok : decode cs = .ok ds ↔ Denotes cs ds := by
  constructor
  · intro h
    induction cs using decode.induct generalizing ds with
    | case1 =>
      cases h
      exact .nil
    | case2 => cases h
    | case3 l cs d hl ih =>
      simp only [decode, hl] at h
      obtain ⟨es, hes, rfl⟩ := map_eq_ok.mp h
      exact .escape (unescape?_eq_some.mp hl) (ih hes)
    | case4 l cs hl =>
      simp only [decode, hl] at h
      cases h
    | case5 c cs hlast hmore ih =>
      have hc : c ≠ '\\' := by
        rintro rfl
        cases cs with
        | nil => exact hlast rfl rfl
        | cons l cs => exact hmore l cs rfl rfl
      rw [decode.eq_4 _ _ hlast hmore] at h
      obtain ⟨es, hes, rfl⟩ := map_eq_ok.mp h
      exact .plain hc (ih hes)
  · intro h
    induction h with
    | nil => rfl
    | plain hc _ ih =>
      rw [decode.eq_4 _ _ (fun he => absurd he hc) (fun _ _ he => absurd he hc), ih]
      rfl
    | escape hl _ ih =>
      simp only [decode, unescape?_eq_some.mpr hl, ih]
      rfl

theorem denotes_encode (cs : List Char) : Denotes (encode cs) cs := by
  induction cs with
  | nil => exact .nil
  | cons c cs ih =>
    simp only [encode, List.flatMap_cons, encodeChar]
    split
    · rename_i l hl
      exact .escape (unescape?_eq_some.mp (unescape?_escapeLetter? hl)) ih
    · rename_i hl
      exact .plain (escapeLetter?_eq_none hl).1 ih

/-- What is read as a literal stands between double quotes. -/
theorem readTextList_eq_ok :
    readTextList cs = .ok ds ↔ ∃ inner, cs = '"' :: inner ++ ['"'] ∧ Denotes inner ds := by
  unfold readTextList
  split
  · rename_i cs
    constructor
    · intro h
      split at h
      · rename_i hlast
        obtain ⟨inner, rfl⟩ := List.getLast?_eq_some_iff.mp hlast
        rw [List.dropLast_concat] at h
        exact ⟨inner, rfl, decode_eq_ok.mp h⟩
      · cases h
    · rintro ⟨inner, hcs, hinner⟩
      obtain rfl : cs = inner ++ ['"'] := (List.cons.inj hcs).2
      rw [if_pos (by simp), List.dropLast_concat]
      exact decode_eq_ok.mpr hinner
  · rename_i hquote
    refine iff_of_false (by simp) ?_
    rintro ⟨inner, rfl, -⟩
    exact hquote _ rfl

/-- A text is a literal if it stands between double quotes and its inner text denotes a text. -/
theorem readText_eq_ok {t u : String} : readText t = .ok u ↔
    ∃ inner, t.toList = '"' :: inner ++ ['"'] ∧ Denotes inner u.toList := by
  rw [← readTextList_eq_ok, readText, map_eq_ok]
  constructor
  · rintro ⟨ds, hds, rfl⟩
    rwa [String.toList_ofList]
  · intro h
    exact ⟨_, h, String.ofList_toList⟩

theorem readText_quoteText (s : String) : readText (quoteText s) = .ok s :=
  readText_eq_ok.mpr ⟨encode s.toList, by simp [quoteText, quoteTextList], denotes_encode _⟩

/-- The immediate of a text. -/
def textImmediate (s : String) : String := "~string:" ++ quoteText s

/-- The first colon is the one behind the type. -/
theorem splitImmediate_textImmediate (s : String) :
    splitImmediate (textImmediate s) = .ok ("string", quoteText s) := by
  have hsplit : splitAtColon? ("string:".toList ++ (quoteText s).toList) =
      some ("string".toList, (quoteText s).toList) := rfl
  have hdrop : dropMark (textImmediate s).toList = "string:".toList ++ (quoteText s).toList := by
    rw [textImmediate, String.toList_append]
    rfl
  simp only [splitImmediate, hdrop, hsplit, String.ofList_toList]

theorem decodeImmediate_textImmediate (s : String) :
    decodeImmediate (textImmediate s) = .ok (.string s) := by
  have htype : DataType.ofName? "string" = some .string := rfl
  simp only [decodeImmediate, splitImmediate_textImmediate, bind, Except.bind, htype, readValue,
    readText_quoteText]
  rfl

end VectorMachine.Literal

namespace VectorMachine.Assembler

open Literal (textImmediate quoteText encode escapes)

/-- An escaped text stays between the quotes that it begins in. -/
theorem spelled_encode (cs : List Char) : Spelled true (encode cs) true := by
  induction cs with
  | nil => exact .nil _
  | cons c cs ih =>
    simp only [encode, List.flatMap_cons, Literal.encodeChar]
    split
    · exact .escaped ih
    · rename_i hc
      obtain ⟨hslash, hquote⟩ := Literal.escapeLetter?_eq_none hc
      exact .quoted hslash (by simpa [encode, hquote] using ih)

theorem spelled_quoteText (s : String) : Spelled false (quoteText s).toList false := by
  have hclose : Spelled true ['"'] false := .quoted (by decide) (.nil _)
  rw [quoteText, String.toList_ofList, Literal.quoteTextList]
  exact .plain (by decide) ((spelled_encode s.toList).trans hclose)

theorem isToken_textImmediate (s : String) : IsToken (textImmediate s) := by
  constructor
  · simp [textImmediate]
  · have hprefix : IsLexeme "~string:" := (isToken_of_all (by decide) rfl).lexeme
    rw [IsLexeme, textImmediate, String.toList_append]
    exact hprefix.trans (spelled_quoteText s)

theorem operand_textImmediate (p : Program) (s : String) :
    operand p (textImmediate s) = .ok (constant p (textImmediate s)) := by
  have htilde : (textImmediate s).toList = '~' :: ("string:".toList ++ (quoteText s).toList) := by
    rw [textImmediate, String.toList_append]
    rfl
  simp only [operand, htilde, immediateOperand, Literal.decodeImmediate_textImmediate]

end VectorMachine.Assembler

namespace VectorMachine

open Literal (textImmediate quoteText readText decodeImmediate Denotes)
open Assembler (IsToken isToken_of_all IsStatement Rendered statements operand constant)

theorem takeWhile_name {name : String} (h : '=' ∉ name.toList) (cs : List Char) :
    (name.toList ++ '=' :: cs).takeWhile (· != '=') = name.toList ∧
      (name.toList ++ '=' :: cs).dropWhile (· != '=') = '=' :: cs := by
  have hname : ∀ d ∈ name.toList, (d != '=') = true := by
    intro d hd
    simpa using fun he : d = '=' => h (he ▸ hd)
  constructor
  · rw [List.takeWhile_append_of_pos hname]
    simp
  · rw [List.dropWhile_append_of_pos hname]
    simp

theorem Global.ofText_quoteText {name : String} (hname : name ≠ "") (heq : '=' ∉ name.toList)
    (s : String) : Global.ofText (name ++ "=string:" ++ quoteText s) = .ok ⟨name, .string s⟩ := by
  have htext : (name ++ "=string:" ++ quoteText s).toList =
      name.toList ++ '=' :: ("string:" ++ quoteText s).toList := by
    simp
  have hempty : name.toList.isEmpty = false := by simpa using hname
  have himmediate : "~" ++ ("string:" ++ quoteText s) = textImmediate s := by
    rw [textImmediate, ← String.append_assoc]
    rfl
  simp only [Global.ofText, htext, takeWhile_name heq, hempty, Bool.false_eq_true, if_false,
    decodeUnmarked, String.ofList_toList, himmediate, Literal.decodeImmediate_textImmediate]

/-- A text is read back from its literal.  As an operand of any statement, in any rendering, the
literal stays one word; it is pooled as it is and decodes to the text, and so does the value of a
definition.  A text is a literal if it stands between quotes and its inner text denotes a text. -/
theorem text_literals_survive (s : String) :
    readText (quoteText s) = .ok s ∧
    (∀ {before after : List (List String)} {ws vs : List String} {source : String},
      (∀ st ∈ before ++ after, IsStatement st) → (∀ w ∈ ws ++ vs, IsToken w) →
      Rendered (before ++ (ws ++ ("~string:" ++ quoteText s) :: vs) :: after) source.toList →
      ∃ read, statements source = .ok read ∧
        read.map (·.words) = before ++ (ws ++ ("~string:" ++ quoteText s) :: vs) :: after) ∧
    (∀ p, operand p ("~string:" ++ quoteText s) = .ok (constant p ("~string:" ++ quoteText s))) ∧
    decodeImmediate ("~string:" ++ quoteText s) = .ok (.string s) ∧
    (∀ name : String, name ≠ "" → '=' ∉ name.toList →
      Global.ofText (name ++ "=string:" ++ quoteText s) = .ok ⟨name, .string s⟩) ∧
    ∀ t u, readText t = .ok u ↔
      ∃ inner, t.toList = '"' :: inner ++ ['"'] ∧ Denotes inner u.toList := by
  refine ⟨Literal.readText_quoteText s, ?_, fun p => Assembler.operand_textImmediate p s,
    Literal.decodeImmediate_textImmediate s,
    fun _ hname heq => Global.ofText_quoteText hname heq s, fun t u => Literal.readText_eq_ok⟩
  intro before after ws vs source hothers hwords h
  refine h.statements fun st hst => ?_
  simp only [List.mem_append, List.mem_cons] at hst hothers hwords
  rcases hst with hst | rfl | hst
  · exact hothers st (.inl hst)
  · refine ⟨by simp, fun w hw => ?_⟩
    rcases List.mem_append.mp hw with hw | hw
    · exact hwords w (.inl hw)
    · rcases List.mem_cons.mp hw with rfl | hw
      · exact Assembler.isToken_textImmediate s
      · exact hwords w (.inr hw)
  · exact hothers st (.inr hst)

/-- A text with a blank, a quote and a semicolon, moved to a register and given to a global. -/
theorem text_literals_survive_separators :
    (∃ read, statements "MOV string R0 ~string:\"a \\\";\";" = .ok read ∧
      read.map (·.words) = [["MOV", "string", "R0", "~string:\"a \\\";\""]]) ∧
    Global.ofText "g=string:\"a \\\";\"" = .ok ⟨"g", .string "a \";"⟩ := by
  obtain ⟨-, hread, -, -, hglobal, -⟩ := text_literals_survive "a \";"
  have hquote : quoteText "a \";" = "\"a \\\";\"" := by decide +kernel
  have hgap : ∀ g : List Char, g.all Assembler.isSeparator = true → Assembler.IsGap g := by
    simp [Assembler.IsGap]
  have hwords : ∀ w ∈ ["MOV", "string", "R0"] ++ [], IsToken w := by
    simp only [List.append_nil, List.mem_cons, List.not_mem_nil, or_false, forall_eq_or_imp,
      forall_eq]
    exact ⟨isToken_of_all (by decide) rfl, isToken_of_all (by decide) rfl,
      isToken_of_all (by decide) rfl⟩
  have hmove : Rendered [["MOV", "string", "R0", "~string:\"a \\\";\""]]
      "MOV string R0 ~string:\"a \\\";\";".toList :=
    .next (.next (g := []) (d := ' ') (hgap _ rfl) rfl
      (.next (g := []) (d := ' ') (hgap _ rfl) rfl
        (.next (g := []) (d := ' ') (hgap _ rfl) rfl
          (.last (g := []) (hgap _ rfl) (hgap [] rfl))))) (.blank (hgap [] rfl))
  rw [hquote] at hread hglobal
  exact ⟨hread (by simp : ∀ st ∈ [] ++ [], IsStatement st) hwords hmove,
    hglobal "g" (by decide) (by decide)⟩

end VectorMachine
