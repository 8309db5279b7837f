import Mathlib.Algebra.Group.Nat.Defs
import VectorMachine.Text.Quoted

/-!
# Quoting loses nothing

A character is quoted as itself, by a letter or by hexadecimal digits, and the first two characters
tell which.  So a quoted text determines the text, and it is one line.
-/

namespace VectorMachine.Text
set_option autoImplicit false

variable {c d : Char} {k m n : Nat} {x y : List Char}

theorem hexDigit_inj : ∀ m < 16, ∀ n < 16, hexDigit m = hexDigit n → m = n := by decide

theorem hexDigits_inj (hm : m < 16 ^ k) (hn : n < 16 ^ k) (h : hexDigits k m = hexDigits k n) :
    m = n := by
  induction k generalizing m n with
  | zero => omega
  | succ k ih =>
    obtain ⟨hhigh, hlow⟩ := List.append_inj h (by simp)
    have hdiv : m / 16 = n / 16 := ih (by omega) (by omega) hhigh
    have hmod : m % 16 = n % 16 := hexDigit_inj _ (by omega) _ (by omega) (List.cons.inj hlow).1
    omega

theorem lineFeed_notMem_hexDigits (k n : Nat) : '\n' ∉ hexDigits k n := by
  have hdigit : ∀ i < 16, '\n' ≠ hexDigit i := by decide
  induction k generalizing n with
  | zero => simp [hexDigits]
  | succ k ih =>
    simp only [hexDigits, List.mem_append, List.mem_singleton, not_or]
    exact ⟨ih _, hdigit _ (Nat.mod_lt _ (by decide))⟩

/-- The characters that are quoted by a letter, with their letters. -/
def lettered : List (Char × Char) :=
  [('"', '"'), ('\\', '\\'), ('\x07', 'a'), ('\x08', 'b'), ('\t', 't'), ('\n', 'n'), ('\x0b', 'v'),
    ('\x0c', 'f'), ('\r', 'r')]

/-- The letters before hexadecimal digits, with the number of digits. -/
def numbered : List (Char × Nat) := [('x', 2), ('u', 4), ('U', 8)]

theorem mem_lettered_of_controlLetter? {l : Char} (h : controlLetter? c = some l) :
    (c, l) ∈ lettered := by
  have hc : ∀ d : Char, c.toNat = d.toNat → c = d := fun d hd => Char.toNat_inj.mp hd
  unfold controlLetter? at h
  split at h
  case h_1 h₇ => cases h; rw [hc '\x07' h₇]; decide
  case h_2 h₈ => cases h; rw [hc '\x08' h₈]; decide
  case h_3 h₉ => cases h; rw [hc '\t' h₉]; decide
  case h_4 h₁₀ => cases h; rw [hc '\n' h₁₀]; decide
  case h_5 h₁₁ => cases h; rw [hc '\x0b' h₁₁]; decide
  case h_6 h₁₂ => cases h; rw [hc '\x0c' h₁₂]; decide
  case h_7 h₁₃ => cases h; rw [hc '\r' h₁₃]; decide
  case h_8 => cases h

/-- The three ways in which a character is quoted. -/
theorem quoteChar_cases (c : Char) :
    (quoteChar c = [c] ∧ c ≠ '"' ∧ c ≠ '\\' ∧ c ≠ '\n') ∨
    (∃ l, quoteChar c = ['\\', l] ∧ (c, l) ∈ lettered) ∨
    ∃ l k, quoteChar c = '\\' :: l :: hexDigits k c.toNat ∧ (l, k) ∈ numbered ∧
      c.toNat < 16 ^ k := by
  unfold quoteChar
  split
  · rename_i hc
    refine .inr (.inl ⟨c, rfl, ?_⟩)
    rcases hc with rfl | rfl <;> decide
  · rename_i hc
    split
    · rename_i hp
      refine .inl ⟨rfl, fun h => hc (.inl h), fun h => hc (.inr h), ?_⟩
      rintro rfl
      cases hp
    · split
      · rename_i l hl
        exact .inr (.inl ⟨l, rfl, mem_lettered_of_controlLetter? hl⟩)
      · refine .inr (.inr ?_)
        dsimp only
        split
        · exact ⟨'x', 2, rfl, by decide, by omega⟩
        · split
          · exact ⟨'u', 4, rfl, by decide, by omega⟩
          · refine ⟨'U', 8, rfl, by decide, ?_⟩
            have := UInt32.toNat_lt c.val
            have : c.toNat < 4294967296 := this
            omega

theorem lettered_inj : ∀ p ∈ lettered, ∀ q ∈ lettered, p.2 = q.2 → p.1 = q.1 := by decide

theorem numbered_inj : ∀ p ∈ numbered, ∀ q ∈ numbered, p.1 = q.1 → p.2 = q.2 := by decide

theorem lettered_ne_numbered : ∀ p ∈ lettered, ∀ q ∈ numbered, p.2 ≠ q.1 := by decide

/-- A quoted character and what follows it can be told apart. -/
theorem quoteChar_cancel (h : quoteChar c ++ x = quoteChar d ++ y) : c = d ∧ x = y := by
  rcases quoteChar_cases c with ⟨hc, -, hc', -⟩ | ⟨l, hc, hl⟩ | ⟨l, k, hc, hl, hk⟩ <;>
    rcases quoteChar_cases d with ⟨hd, -, hd', -⟩ | ⟨l', hd, hl'⟩ | ⟨l', k', hd, hl', hk'⟩ <;>
    rw [hc, hd] at h
  · simpa using h
  · exact absurd (List.cons.inj h).1 hc'
  · exact absurd (List.cons.inj h).1 hc'
  · exact absurd (List.cons.inj h).1.symm hd'
  · obtain ⟨hll, hxy⟩ := List.cons.inj (List.cons.inj h).2
    exact ⟨lettered_inj _ hl _ hl' hll, hxy⟩
  · exact absurd (List.cons.inj (List.cons.inj h).2).1 (lettered_ne_numbered _ hl _ hl')
  · exact absurd (List.cons.inj h).1.symm hd'
  · exact absurd (List.cons.inj (List.cons.inj h).2).1.symm (lettered_ne_numbered _ hl' _ hl)
  · obtain ⟨hll, hxy⟩ := List.cons.inj (List.cons.inj h).2
    obtain rfl : k = k' := numbered_inj _ hl _ hl' hll
    obtain ⟨hdigits, hxy⟩ := List.append_inj hxy (by simp)
    exact ⟨Char.toNat_inj.mp (hexDigits_inj hk hk' hdigits), hxy⟩

/-- A quoted character does not look like the quote that ends the text. -/
theorem quoteChar_ne_quote (c : Char) (x y : List Char) : quoteChar c ++ x ≠ '"' :: y := by
  intro h
  rcases quoteChar_cases c with ⟨hc, hq, -, -⟩ | ⟨l, hc, -⟩ | ⟨l, k, hc, -, -⟩ <;> rw [hc] at h
  · exact hq (List.cons.inj h).1
  · cases h
  · cases h

theorem lineFeed_notMem_quoteChar (c : Char) : '\n' ∉ quoteChar c := by
  have hlettered : ∀ p ∈ lettered, '\n' ≠ p.2 := by decide
  have hnumbered : ∀ p ∈ numbered, '\n' ≠ p.1 := by decide
  rcases quoteChar_cases c with ⟨hc, -, -, hlf⟩ | ⟨l, hc, hl⟩ | ⟨l, k, hc, hl, -⟩ <;> rw [hc]
  · simpa using hlf.symm
  · simpa using hlettered _ hl
  · simpa using ⟨hnumbered _ hl, lineFeed_notMem_hexDigits k _⟩

theorem flatMap_quoteChar_injective {cs ds : List Char}
    (h : cs.flatMap quoteChar ++ ['"'] = ds.flatMap quoteChar ++ ['"']) : cs = ds := by
  induction cs generalizing ds with
  | nil =>
    cases ds with
    | nil => rfl
    | cons d ds =>
      rw [List.flatMap_cons, List.append_assoc] at h
      exact absurd h.symm (quoteChar_ne_quote _ _ _)
  | cons c cs ih =>
    cases ds with
    | nil =>
      rw [List.flatMap_cons, List.append_assoc] at h
      exact absurd h (quoteChar_ne_quote _ _ _)
    | cons d ds =>
      rw [List.flatMap_cons, List.flatMap_cons, List.append_assoc, List.append_assoc] at h
      obtain ⟨rfl, htail⟩ := quoteChar_cancel h
      rw [ih htail]

theorem quoteList_injective {cs ds : List Char} (h : quoteList cs = quoteList ds) : cs = ds :=
  flatMap_quoteChar_injective (List.cons.inj h).2

theorem quote_injective {s t : String} (h : quote s = quote t) : s = t := by
  refine String.toList_inj.mp (quoteList_injective ?_)
  simpa [quote] using congrArg String.toList h

theorem lineFeed_notMem_quote (s : String) : '\n' ∉ (quote s).toList := by
  rw [quote, String.toList_ofList, quoteList]
  simp only [List.cons_append, List.mem_cons, List.mem_append, List.mem_flatMap, List.not_mem_nil,
    or_false, not_or, not_exists, not_and]
  exact ⟨by decide, fun c _ => lineFeed_notMem_quoteChar c, by decide⟩

end VectorMachine.Text
