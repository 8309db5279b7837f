import VectorMachine.Proofs.Machine.Parallel

/-!
# Host code that edits what it is handed

Host functions may set, allocate, free and link the containers that they are handed.  Any list of
such edits touches only the containers themselves and what they show, and does the same to stores
that match.
-/

namespace VectorMachine.Linker
set_option autoImplicit false

/-- An edit of the handed containers, by position: first the result, then the arguments. -/
inductive Edit where
  | set (i : Nat) (x : Scalar)
  | alloc (i : Nat) (type : DataType) (lengths : List Int)
  | free (i : Nat)
  | refer (i j : Nat)

/-- An edit that fails changes nothing. -/
def Edit.apply (cs : List CellId) (s : Store) : Edit → Store
  | .set i x =>
    match cs[i]? with
    | some c => (s.setScalar c x).toOption.getD s
    | none => s
  | .alloc i t lengths =>
    match cs[i]? with
    | some c => (s.alloc c t lengths).toOption.getD s
    | none => s
  | .free i =>
    match cs[i]? with
    | some c => s.free c
    | none => s
  | .refer i j =>
    match cs[i]?, cs[j]? with
    | some c, some d => s.link c d
    | _, _ => s

/-- Host functions that note their call and make edits, which depend on the function only. -/
def editing (edits : Int → List Edit) : Linker := fun index args result w =>
  .ok () { store := (edits index).foldl (Edit.apply (result :: args)) w.store,
           journal := w.journal.push (toString index) }

variable {C : CellId → Prop} {s t : Store} {cs : List CellId}

theorem touches_getD {r : Except Abort Store} (h : s.Region C)
    (hr : ∀ t, r = .ok t → Store.Touches C s t) : Store.Touches C s (r.toOption.getD s) := by
  cases r with
  | ok t => exact hr t rfl
  | error e => exact .refl h

theorem touches_edit (h : s.Region C) (hcs : ∀ c ∈ cs, C c ∧ c < s.cells.size) (e : Edit) :
    Store.Touches C s (e.apply cs s) := by
  cases e with
  | set i x =>
    simp only [Edit.apply]
    split
    · rename_i c hc
      have hC := (hcs c (List.mem_of_getElem? hc)).1
      exact touches_getD h fun t ht => .of_setScalar h hC ht
    · exact .refl h
  | alloc i type lengths =>
    simp only [Edit.apply]
    split
    · rename_i c hc
      have hC := (hcs c (List.mem_of_getElem? hc)).1
      exact touches_getD h fun t ht => .of_alloc h hC ht
    · exact .refl h
  | free i =>
    simp only [Edit.apply]
    split
    · rename_i c hc
      exact .free h (hcs c (List.mem_of_getElem? hc)).1
    · exact .refl h
  | refer i j =>
    simp only [Edit.apply]
    split
    · rename_i c d hc hd
      have hD := hcs d (List.mem_of_getElem? hd)
      exact .link h (hcs c (List.mem_of_getElem? hc)).1 hD.1 hD.2
    · exact .refl h

theorem touches_edits (edits : List Edit) (h : s.Region C)
    (hcs : ∀ c ∈ cs, C c ∧ c < s.cells.size) :
    Store.Touches C s (edits.foldl (Edit.apply cs) s) := by
  induction edits generalizing s with
  | nil => exact .refl h
  | cons e edits ih =>
    have h₁ := touches_edit h hcs e
    refine h₁.trans (ih (h₁.region h) fun c hc => ⟨(hcs c hc).1, ?_⟩)
    exact Nat.lt_of_lt_of_le (hcs c hc).2 h₁.cells_le

theorem confined_editing (edits : Int → List Edit) : (editing edits).Confined :=
  fun _ _ index _ _ h hcs => touches_edits (edits index) h hcs

/-- Host functions with a container of their own, which they edit as if it were their first argument.
They do nothing if it is not there. -/
def sharing (own : CellId) (edits : Int → List Edit) : Linker := fun index args result w =>
  if own < w.store.cells.size then editing edits index (own :: args) result w else .ok () w

theorem reaches_sharing (own : CellId) (edits : Int → List Edit) :
    (sharing own edits).Reaches (· = own) := by
  intro C hC w index args result h hcs
  unfold sharing
  split
  · rename_i hlt
    refine confined_editing edits C w index (own :: args) result h fun c hc => ?_
    simp only [List.mem_cons] at hc
    rcases hc with rfl | rfl | hc
    · exact hcs c (by simp)
    · exact ⟨hC c rfl, hlt⟩
    · exact hcs c (by simp [hc])
  · exact .refl h

/-! ### Edits of stores that match -/

section

open Store (Pairing Matches Agrees)

variable {deep : Prop} {R : Pairing} {s' : Store} {cs' : List CellId}

theorem matches_getD {r r' : Except Abort Store} (h : Matches deep R s s')
    (hr : Agrees (Matches deep R) r r') :
    Matches deep R (r.toOption.getD s) (r'.toOption.getD s') := by
  cases r with
  | ok t =>
    cases r' with
    | ok t' => exact hr
    | error e' => exact hr.elim
  | error e =>
    cases r' with
    | ok t' => exact hr.elim
    | error e' => exact h

theorem rel_getElem? (h : List.Forall₂ R cs cs') (i : Nat) : Option.Rel R cs[i]? cs'[i]? := by
  induction h generalizing i with
  | nil => exact .none
  | cons hc _ ih =>
    cases i with
    | zero => exact .some hc
    | succ i => simpa using ih i

theorem matches_edit (h : Matches deep R s s') (hcs : List.Forall₂ R cs cs') (e : Edit) :
    Matches deep R (e.apply cs s) (e.apply cs' s') := by
  cases e with
  | set i x =>
    have hi := rel_getElem? hcs i
    simp only [Edit.apply]
    cases h₁ : cs[i]? <;> cases h₂ : cs'[i]? <;> rw [h₁, h₂] at hi <;> cases hi
    · exact h
    · exact matches_getD h (h.setScalar ‹_› x)
  | alloc i type lengths =>
    have hi := rel_getElem? hcs i
    simp only [Edit.apply]
    cases h₁ : cs[i]? <;> cases h₂ : cs'[i]? <;> rw [h₁, h₂] at hi <;> cases hi
    · exact h
    · exact matches_getD h (h.alloc ‹_› type lengths)
  | free i =>
    have hi := rel_getElem? hcs i
    simp only [Edit.apply]
    cases h₁ : cs[i]? <;> cases h₂ : cs'[i]? <;> rw [h₁, h₂] at hi <;> cases hi
    · exact h
    · exact h.free ‹_›
  | refer i j =>
    have hi := rel_getElem? hcs i
    have hj := rel_getElem? hcs j
    simp only [Edit.apply]
    cases h₁ : cs[i]? <;> cases h₂ : cs'[i]? <;> rw [h₁, h₂] at hi <;> cases hi
    · exact h
    · cases h₃ : cs[j]? <;> cases h₄ : cs'[j]? <;> rw [h₃, h₄] at hj <;> cases hj
      · exact h
      · exact h.link ‹_› ‹_›

theorem respects_editing (edits : Int → List Edit) : (editing edits).Respects deep := by
  intro R w w' index args args' result result' hm hj hargs hresult
  have hedits : ∀ (es : List Edit) {s s' : Store}, Matches deep R s s' →
      Matches deep R (es.foldl (Edit.apply (result :: args)) s)
        (es.foldl (Edit.apply (result' :: args')) s') := by
    intro es
    induction es with
    | nil => exact fun h => h
    | cons e es ih => exact fun h => ih (matches_edit h (.cons hresult hargs) e)
  exact ⟨R, fun _ _ => id, hedits _ hm, by simp only [hj]⟩

end

end VectorMachine.Linker
