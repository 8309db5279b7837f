import VectorMachine.Proofs.Program.Assembled

/-!
# Names and addresses

A symbol table is faithful if its names are not empty and differ, and its addresses differ; then
looking up an address and looking up a name undo each other.  It is dense if its addresses are the
numbers from zero on, in the order of definition.  Interning keeps both.
-/

namespace VectorMachine
set_option autoImplicit false

namespace SymbolTable

variable {t : SymbolTable} {m n : String} {a : Int}

/-- Every definition has a name and an address of its own. -/
structure Faithful (t : SymbolTable) : Prop where
  named : ∀ x ∈ t.definitions, x.1 ≠ ""
  names : (t.definitions.map (·.1)).Nodup
  addresses : (t.definitions.map (·.2)).Nodup

theorem faithful_empty : Faithful {} := ⟨by simp, by simp, by simp⟩

theorem addr?_eq_none (h : t.addr? n = none) (x : String × Int) (hx : x ∈ t.definitions) :
    x.1 ≠ n := by
  rintro rfl
  have := (List.lookup_eq_none_iff.mp h) x hx
  simp at this

theorem Faithful.addr?_eq_some_iff (h : t.Faithful) :
    t.addr? n = some a ↔ (n, a) ∈ t.definitions := by
  refine ⟨mem_of_addr?, fun hmem => ?_⟩
  cases hb : t.addr? n with
  | none => exact absurd rfl (addr?_eq_none hb _ hmem)
  | some b =>
    have := List.inj_on_of_nodup_map h.names hmem (mem_of_addr? hb) rfl
    cases this
    rfl

theorem Faithful.name_eq_iff (h : t.Faithful) (hn : n ≠ "") :
    t.name a = n ↔ (n, a) ∈ t.definitions := by
  unfold name
  constructor
  · intro hname
    cases hf : t.definitions.find? (·.2 == a) with
    | none =>
      rw [hf] at hname
      exact absurd hname.symm hn
    | some x =>
      rw [hf] at hname
      have ha : x.2 = a := by simpa using List.find?_some hf
      have hx := List.mem_of_find?_eq_some hf
      rw [← ha, ← hname]
      exact hx
  · intro hmem
    cases hf : t.definitions.find? (·.2 == a) with
    | none =>
      have := List.find?_eq_none.mp hf _ hmem
      simp at this
    | some x =>
      have ha : x.2 = a := by simpa using List.find?_some hf
      have := List.inj_on_of_nodup_map h.addresses hmem (List.mem_of_find?_eq_some hf) ha.symm
      rw [← this]
      rfl

theorem Faithful.addr?_iff_name (h : t.Faithful) (hn : n ≠ "") :
    t.addr? n = some a ↔ t.name a = n := by
  rw [h.addr?_eq_some_iff, h.name_eq_iff hn]

theorem Faithful.define (h : t.Faithful) (hn : n ≠ "") (hnew : t.addr? n = none)
    (ha : ∀ x ∈ t.definitions, x.2 ≠ a) : (t.define n a).Faithful := by
  refine ⟨fun x hx => ?_, ?_, ?_⟩
  · rcases List.mem_cons.mp hx with rfl | hx
    · exact hn
    · exact h.named x hx
  · refine List.nodup_cons.mpr ⟨fun hmem => ?_, h.names⟩
    obtain ⟨x, hx, hxn⟩ := List.mem_map.mp hmem
    exact addr?_eq_none hnew x hx hxn
  · refine List.nodup_cons.mpr ⟨fun hmem => ?_, h.addresses⟩
    obtain ⟨x, hx, hxa⟩ := List.mem_map.mp hmem
    exact ha x hx hxa

theorem ne_greatest_succ (x : String × Int) (hx : x ∈ t.definitions) : x.2 ≠ t.greatest + 1 := by
  have := le_greatest (n := x.1) (a := x.2) hx
  omega

theorem Faithful.intern (h : t.Faithful) (hn : n ≠ "") : (t.intern n).2.Faithful := by
  unfold SymbolTable.intern
  split
  · exact h
  · rename_i hnew
    exact h.define hn hnew ne_greatest_succ

/-! ### Dense tables -/

/-- The addresses are the numbers from zero on. -/
def Dense (t : SymbolTable) : Prop :=
  t.definitions.map (·.2) = (List.range t.definitions.length).reverse.map fun (i : Nat) => (i : Int)

theorem Dense.mem_iff (h : t.Dense) :
    (∃ n, (n, a) ∈ t.definitions) ↔ 0 ≤ a ∧ a < t.definitions.length := by
  have hmem : a ∈ t.definitions.map (·.2) ↔ ∃ n, (n, a) ∈ t.definitions := by simp
  rw [← hmem, h]
  simp only [List.map_reverse, List.mem_reverse, List.mem_map, List.mem_range]
  constructor
  · rintro ⟨i, hi, rfl⟩
    omega
  · rintro ⟨h₀, hlt⟩
    exact ⟨a.toNat, by omega, by omega⟩

theorem foldl_max_mem (l : List Int) (b : Int) : l.foldl max b = b ∨ l.foldl max b ∈ l := by
  induction l generalizing b with
  | nil => exact .inl rfl
  | cons d l ih =>
    rw [List.foldl_cons]
    rcases ih (max b d) with h | h
    · rw [h]
      rcases Int.le_total b d with hle | hle
      · exact .inr (by simp [Int.max_eq_right hle])
      · exact .inl (Int.max_eq_left hle)
    · exact .inr (List.mem_cons_of_mem d h)

theorem greatest_mem (h : t.definitions ≠ []) : ∃ n, (n, t.greatest) ∈ t.definitions := by
  suffices hmem : t.greatest ∈ t.definitions.map (·.2) by simpa using hmem
  obtain ⟨x, l, hl⟩ := List.exists_cons_of_ne_nil h
  simp only [greatest, hl, List.map_cons, List.mem_cons]
  exact foldl_max_mem _ _

theorem Dense.greatest_eq (h : t.Dense) : t.greatest = t.definitions.length - 1 := by
  by_cases hd : t.definitions = []
  · simp [greatest, hd]
  have hpos := List.length_pos_iff.mpr hd
  -- the last number is there, and no greater one is
  obtain ⟨n, hn⟩ := (h.mem_iff (a := t.definitions.length - 1)).mpr (by omega)
  have hle := le_greatest hn
  have hlt := (h.mem_iff.mp (greatest_mem hd)).2
  omega

theorem dense_empty : Dense {} := rfl

theorem Dense.intern (h : t.Dense) : (t.intern n).2.Dense := by
  unfold SymbolTable.intern
  split
  · exact h
  · simp only [Dense, define, List.map_cons, List.length_cons, List.range_succ, List.reverse_append,
      List.reverse_singleton, List.singleton_append, List.map_cons, List.cons.injEq]
    refine ⟨?_, h⟩
    rw [h.greatest_eq]
    omega

end SymbolTable

/-! ### The constant pool -/

namespace Program

variable {p : Program}

theorem length_immediates (h : p.constants.Dense) :
    p.immediates.length = p.constants.definitions.length := by
  rw [immediates, List.length_map, List.length_range, h.greatest_eq]
  omega

theorem getElem?_immediates (hf : p.constants.Faithful) (hd : p.constants.Dense) {a : Nat}
    {text : String} : p.immediates[a]? = some text ↔ p.constants.addr? text = some (a : Int) := by
  have hname : ∀ {n}, (n, (a : Int)) ∈ p.constants.definitions → p.constants.name a = n :=
    fun hn => (hf.name_eq_iff (hf.named _ hn)).mpr hn
  have hget : ∀ {n}, (n, (a : Int)) ∈ p.constants.definitions → p.immediates[a]? = some n := by
    intro n hn
    have ha := (hd.mem_iff.mp ⟨n, hn⟩).2
    rw [immediates, List.getElem?_map, List.getElem?_range (by rw [hd.greatest_eq]; omega),
      Option.map_some, hname hn]
  rw [hf.addr?_eq_some_iff]
  refine ⟨fun ht => ?_, hget⟩
  have ha : a < p.immediates.length := (List.getElem?_eq_some_iff.mp ht).1
  rw [length_immediates hd] at ha
  obtain ⟨n, hn⟩ := hd.mem_iff.mpr ⟨Int.natCast_nonneg a, Int.ofNat_lt.mpr ha⟩
  obtain rfl : n = text := Option.some.inj ((hget hn).symm.trans ht)
  exact hn

end Program

end VectorMachine
