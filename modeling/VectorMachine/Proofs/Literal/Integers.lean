import VectorMachine.Assembler.Basic

/-!
# Integers as immediates

The assembler pools the address of a label and the index of an external function as the decimal text
of an integer.  Reading it gives the integer back, provided it fits 64 bits.
-/

namespace VectorMachine.Literal
set_option autoImplicit false

open Binary64 (digitValue digitsValue isDigitOf splitSign leastInt greatestInt)

variable {cs : List Char} {c : Char} {i : Int} {n : Nat}

theorem digitValue_of_isDigit (h : c.isDigit = true) : digitValue c = c.toNat - '0'.toNat ∧
    digitValue c < 10 := by
  simp only [Char.isDigit, Bool.and_eq_true, decide_eq_true_eq, ge_iff_le, UInt32.le_iff_toNat_le] at h
  have h₁ : 48 ≤ c.toNat := h.1
  have h₂ : c.toNat ≤ 57 := h.2
  have h₀ : '0'.toNat = 48 := rfl
  simp only [digitValue, h₁, h₂, and_self, if_true, h₀, true_and]
  omega

theorem digitsValue_eq (h : ∀ c ∈ cs, c.isDigit = true) :
    digitsValue 10 cs = Nat.ofDigitChars 10 cs 0 := by
  suffices H : ∀ acc, cs.foldl (fun acc c => acc * 10 + digitValue c) acc =
      cs.foldl (fun acc c => 10 * acc + (c.toNat - '0'.toNat)) acc by
    rw [Nat.ofDigitChars_eq_foldl]
    exact H 0
  induction cs with
  | nil => simp
  | cons c cs ih =>
    intro acc
    have hc := (digitValue_of_isDigit (h c (by simp))).1
    rw [List.foldl_cons, List.foldl_cons, hc, Nat.mul_comm acc 10]
    exact ih (fun d hd => h d (by simp [hd])) _

/-- Digits are no marks, so nothing is split off or dropped. -/
theorem splitBase_digits (h : ∀ c ∈ cs, c.isDigit = true) : splitBase cs = (10, cs) := by
  unfold splitBase
  split
  · rename_i c ds
    have hc : c.isDigit = true := h c (by simp)
    have : markedBase? c = none := by
      unfold markedBase?
      split <;> first | rfl | simp [Char.isDigit] at hc
    rw [this]
  · rfl

theorem splitSign_digits (h : ∀ c ∈ cs, c.isDigit = true) : splitSign cs = (false, cs) := by
  unfold splitSign
  split
  · exact absurd (h '-' (by simp)) (by decide)
  · exact absurd (h '+' (by simp)) (by decide)
  · rfl

theorem dropLongSuffix_digits (h : ∀ c ∈ cs, c.isDigit = true) : dropLongSuffix cs = cs := by
  unfold dropLongSuffix
  split
  · rename_i hl
    exact absurd (h _ (List.mem_of_getLast? hl)) (by decide)
  · rename_i hl
    exact absurd (h _ (List.mem_of_getLast? hl)) (by decide)
  · rfl

theorem readNatural?_toDigits (n : Nat) :
    readNatural? (dropLongSuffix (Nat.toDigits 10 n)) = some n := by
  have h : ∀ c ∈ Nat.toDigits 10 n, c.isDigit = true := fun c hc =>
    Nat.isDigit_of_mem_toDigits (by decide) (by decide) hc
  have hall : (Nat.toDigits 10 n).all (isDigitOf 10) = true := by
    rw [List.all_eq_true]
    intro c hc
    simpa [isDigitOf] using (digitValue_of_isDigit (h c hc)).2
  have hne : (Nat.toDigits 10 n).isEmpty = false := by simp [Nat.toDigits_ne_nil]
  rw [dropLongSuffix_digits h, readNatural?, splitBase_digits h]
  simp only [hne, hall, Bool.not_true, Bool.or_self, Bool.false_eq_true, if_false]
  rw [digitsValue_eq h, Nat.ofDigitChars_toDigits (by decide) (by decide)]

theorem denotedInteger?_repr (i : Int) : denotedInteger? i.repr.toList = some i := by
  rw [Int.repr_eq_if]
  by_cases hi : 0 ≤ i
  · have h : ∀ c ∈ Nat.toDigits 10 i.toNat, c.isDigit = true := fun c hc =>
      Nat.isDigit_of_mem_toDigits (by decide) (by decide) hc
    rw [if_pos hi, Nat.toList_repr, denotedInteger?, splitSign_digits h]
    simp only [readNatural?_toDigits, Bool.false_eq_true, if_false, Option.pure_def,
      Option.bind_eq_bind, Option.bind_some, Option.map_some, Int.toNat_of_nonneg hi]
  · have hlist : ("-" ++ (-i).toNat.repr).toList = '-' :: Nat.toDigits 10 (-i).toNat := by
      simp [String.toList_append]
    rw [if_neg hi, hlist, denotedInteger?, splitSign]
    simp only [readNatural?_toDigits, if_true, Option.pure_def, Option.bind_eq_bind,
      Option.bind_some, Option.map_some, Option.some.injEq]
    omega

theorem isDigit_or_eq_of_mem_repr (h : c ∈ i.repr.toList) : c.isDigit = true ∨ c = '-' := by
  rw [Int.repr_eq_if] at h
  split at h
  · rw [Nat.toList_repr] at h
    exact .inl (Nat.isDigit_of_mem_toDigits (by decide) (by decide) h)
  · rw [String.toList_append, Nat.toList_repr] at h
    rcases List.mem_append.mp h with h | h
    · exact .inr (by simpa using h)
    · exact .inl (Nat.isDigit_of_mem_toDigits (by decide) (by decide) h)

theorem repr_injective {i j : Int} (h : i.repr = j.repr) : i = j := by
  have := denotedInteger?_repr i
  rw [h, denotedInteger?_repr j] at this
  exact (Option.some.inj this).symm

/-- Integers of 64 bits. -/
def IsWord (i : Int) : Prop := leastInt ≤ i ∧ i ≤ greatestInt

theorem splitImmediate_integer (i : Int) :
    splitImmediate (Assembler.integerImmediate i) = .ok ("int", i.repr) := by
  have hlist : (Assembler.integerImmediate i).toList = '~' :: 'i' :: 'n' :: 't' :: ':' ::
      i.repr.toList := by
    rw [Assembler.integerImmediate, String.toList_append]
    rfl
  simp [splitImmediate, hlist, dropMark, splitAtColon?, List.takeWhile, List.dropWhile]

theorem decode_integerImmediate (h : IsWord i) :
    decodeImmediate (Assembler.integerImmediate i) = .ok (.int (Int64.ofInt i)) := by
  have hread : readInteger i.repr = .ok (Int64.ofInt i) := by
    simp only [readInteger, readIntegerList, denotedInteger?_repr]
    exact if_pos h
  have hname : DataType.ofName? "int" = some .int := rfl
  simp only [decodeImmediate, splitImmediate_integer, bind, Except.bind, hname, readValue, hread]
  rfl

theorem int_of_decode {v : Scalar} (h : decodeImmediate (Assembler.integerImmediate i) = .ok v) :
    ∃ n : Int64, v = .int n ∧ n.toInt = i := by
  by_cases hi : IsWord i
  · rw [decode_integerImmediate hi] at h
    cases h
    have hpow : Nat.pow 2 63 = 9223372036854775808 := rfl
    obtain ⟨h₁, h₂⟩ := hi
    rw [leastInt, hpow] at h₁
    rw [greatestInt, hpow] at h₂
    exact ⟨_, rfl, Int64.toInt_ofInt_of_le (by omega) (by omega)⟩
  · have hread : readInteger i.repr = .error .outOfRange := by
      simp only [readInteger, readIntegerList, denotedInteger?_repr]
      exact if_neg hi
    have hname : DataType.ofName? "int" = some .int := rfl
    simp only [decodeImmediate, splitImmediate_integer, bind, Except.bind, hname, readValue,
      hread] at h
    cases h

end VectorMachine.Literal
