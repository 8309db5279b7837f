import VectorMachine.Proofs.Machine.Allocation
import VectorMachine.Proofs.Store.Matching

/-!
# Operations on stores that match

On stores that match, an operation on paired cells either fails in the same way or gives stores
that match.  A new cell is paired with the new cell of the other store.
-/

namespace VectorMachine.Store
set_option autoImplicit false

variable {deep : Prop} {R : Pairing} {s s' t t' : Store} {a a' c c' d d' : CellId}
  {α α' β β' ε ε' : Type}

/-- Two results are the same error, or are related by `V`. -/
def Agrees (V : α → α' → Prop) : Except ε α → Except ε α' → Prop
  | .ok x, .ok y => V x y
  | .error e, .error e' => e = e'
  | _, _ => False

theorem Agrees.bind {V : α → α' → Prop} {W : β → β' → Prop} {x : Except ε α} {x' : Except ε α'}
    {f : α → Except ε β} {f' : α' → Except ε β'} (hx : Agrees V x x')
    (hf : ∀ y y', V y y' → Agrees W (f y) (f' y')) : Agrees W (x >>= f) (x' >>= f') := by
  cases x <;> cases x' <;> first | exact hx | exact hx.elim | exact hf _ _ hx

theorem Agrees.mapError {V : α → α' → Prop} {x : Except ε α} {x' : Except ε α'} {f : ε → ε'}
    (hx : Agrees V x x') : Agrees V (x.mapError f) (x'.mapError f) := by
  cases x <;> cases x' <;> first | exact congrArg f hx | exact hx.elim | exact hx

theorem Agrees.of_eq {V : α → α → Prop} {x x' : Except ε α} (h : x = x') (hV : ∀ y, V y y) :
    Agrees V x x' := by
  subst h
  cases x
  · rfl
  · exact hV _

/-! ### Elementary changes -/

theorem Matches.presentVoid (h : Matches deep R s s') (hc : R c c') (lengths : List Int) :
    Matches deep R (s.present c none 0 lengths) (s'.present c' none 0 lengths) := by
  have hr := h.root hc
  have hsound : ∀ {s : Store} {c : CellId}, s.Sound → (s.present c none 0 lengths).Sound :=
    fun hs => (Touches.present (C := fun _ => True) region_true trivial rfl (Nat.le_refl _)
      (fun _ _ => rfl) (by simp) (by simp)).sound hs
  refine h.update hr (updates_setCell (h.lt hr).1 (hsound h.sound))
    (updates_setCell (h.lt hr).2 (hsound h.sound')) (h.target hr)
    (fun _ => ⟨rfl, rfl, rfl, rfl⟩) fun {d d'} hd _ hn => ?_
  have := h.buffer_eq_none_iff hd hn
  rw [eq_comm, this, eq_comm]

theorem Matches.setVoid (h : Matches deep R s s') (hc : R c c') (lengths : List Int) :
    Agrees (Matches deep R) (s.setVoid c lengths) (s'.setVoid c' lengths) := by
  unfold Store.setVoid
  split
  · rfl
  · exact h.presentVoid hc lengths

theorem Matches.setData (h : Matches deep R s s') (hc : R c c') (data : Lanes)
    (lengths : List Int) :
    Agrees (Matches deep R) (s.setData c data lengths) (s'.setData c' data lengths) := by
  unfold Store.setData
  split
  · rfl
  · exact h.renew hc (by omega)

theorem Matches.alloc (h : Matches deep R s s') (hc : R c c') (ty : DataType)
    (lengths : List Int) :
    Agrees (Matches deep R) (s.alloc c ty lengths) (s'.alloc c' ty lengths) := by
  unfold Store.alloc
  rw [(h.alike hc).isAllocated_eq]
  split
  · exact h
  · split
    · rfl
    · dsimp only
      split
      · exact h.setVoid hc lengths
      · split
        · rfl
        · split
          · exact h.setData hc _ lengths
          · rfl

theorem Matches.link (h : Matches deep R s s') (hc : R c c') (hd : R d d') :
    Matches deep R (s.link c d) (s'.link c' d') := by
  have hr := h.root hd
  have hiff := h.inj hr hc
  have hs := (Touches.link (C := fun _ => True) region_true (c := c) trivial trivial
    (h.lt hd).1).sound h.sound
  have hs' := (Touches.link (C := fun _ => True) region_true (c := c') trivial trivial
    (h.lt hd).2).sound h.sound'
  simp only [Store.link] at hs hs' ⊢
  by_cases he : s.root d = c
  · rw [if_pos he, if_pos (hiff.mp he)]
    exact h
  · have he' : s'.root d' ≠ c' := fun he' => he (hiff.mpr he')
    rw [if_neg he] at hs ⊢
    rw [if_neg he'] at hs' ⊢
    refine h.update hc (updates_setCell (h.lt hc).1 hs) (updates_setCell (h.lt hc).2 hs')
      (.some hr) (fun hn => ?_) fun {e e'} hee hn hn' => ?_
    · have := h.data hc (.inl (hn.resolve_right (by simp)))
      exact ⟨this.size_eq, this.lengths_eq, this.offset_eq, this.lanes_eq⟩
    · exact h.share hc hee (.inl (hn.resolve_right (by simp))) hn'

/-- Cutting a link shows what was hidden, so the match has to be deep. -/
theorem Matches.unlink (h : Matches True R s s') (hc : R c c') :
    Matches True R (s.unlink c) (s'.unlink c') := by
  have hsound : ∀ {s : Store} {c : CellId}, s.Sound → (s.unlink c).Sound :=
    fun hs => (Touches.unlink (C := fun _ => True) region_true trivial).sound hs
  refine h.update hc (updates_setCell (h.lt hc).1 (hsound h.sound))
    (updates_setCell (h.lt hc).2 (hsound h.sound')) .none (fun _ => ?_) fun hd _ hn => ?_
  · have := h.data hc (.inl trivial)
    exact ⟨this.size_eq, this.lengths_eq, this.offset_eq, this.lanes_eq⟩
  · exact h.share hc hd (.inl trivial) hn

theorem Matches.unlinkAll (h : Matches True R s s') (cs : List CellId)
    (hcs : ∀ c ∈ cs, R c c) :
    Matches True R (cs.foldl Store.unlink s) (cs.foldl Store.unlink s') := by
  induction cs generalizing s s' with
  | nil => exact h
  | cons c cs ih => exact ih (h.unlink (hcs c (by simp))) fun d hd => hcs d (by simp [hd])

theorem Matches.free (h : Matches deep R s s') (hc : R c c') :
    Matches deep R (s.free c) (s'.free c') := by
  have hsound : ∀ {s : Store} {c : CellId}, s.Sound → (s.free c).Sound :=
    fun hs => (Touches.free (C := fun _ => True) region_true trivial).sound hs
  refine h.update hc (updates_setCell (h.lt hc).1 (hsound h.sound))
    (updates_setCell (h.lt hc).2 (hsound h.sound')) .none (fun _ => ⟨rfl, rfl, rfl, rfl⟩)
    fun {d d'} hd _ hn => ?_
  have := h.buffer_eq_none_iff hd hn
  rw [eq_comm, this, eq_comm]

/-- The buffers of a store after a write. -/
theorem lanes?_write (data : Lanes) (x : Cell) : (s.write c data).lanes? x =
    if (s.rootCell c).buffer = x.buffer then
      (s.lanes? x).map (Lanes.overwrite (s.offset c) · data) else s.lanes? x := by
  unfold Store.write lanes?
  cases hb : (s.rootCell c).buffer with
  | none =>
    cases hx : x.buffer with
    | none => simp
    | some i => simp
  | some b =>
    cases hx : x.buffer with
    | none => simp
    | some i =>
      by_cases hi : b = i
      · simp [hi, Array.getElem?_modify]
      · simp [hi, Array.getElem?_modify]

theorem Matches.write (h : Matches deep R s s') (hc : R c c') (data : Lanes) :
    Matches deep R (s.write c data) (s'.write c' data) := by
  have hsound : ∀ {s : Store} {c : CellId}, s.Sound → (s.write c data).Sound :=
    fun hs => (Touches.write (C := fun _ => True) region_true trivial data).sound hs
  have hcounts : ∀ {d}, Counts deep (s.write c data) d → Counts deep s d := by
    intro d hn
    simpa [Counts] using hn
  refine ⟨hsound h.sound, hsound h.sound', ?_, h.inj, ?_, fun {d d'} hd hn => ?_, ?_⟩
  · intro d d' hd
    simpa using h.lt hd
  · intro d d' hd
    simpa using h.target hd
  · have hn := hcounts hn
    have hsame := h.data hd hn
    simp only [cell_write]
    refine ⟨hsame.size_eq, hsame.lengths_eq, hsame.offset_eq, ?_⟩
    rw [lanes?_write, lanes?_write, hsame.lanes_eq, (h.alike hc).offset_eq]
    simp only [h.share_root hc hd hn]
  · intro d d' e e' hd he hn hn'
    simpa using h.share hd he (hcounts hn) (hcounts hn')

theorem sameData_void : SameData s {} s' {} := ⟨rfl, rfl, rfl, rfl⟩

theorem Matches.fresh (h : Matches deep R s s') :
    Matches deep (fun c c' => R c c' ∨ c = s.cells.size ∧ c' = s'.cells.size) s.fresh.2
      s'.fresh.2 := by
  have hsound : ∀ {s : Store}, s.Sound → s.fresh.2.Sound :=
    fun hs => (Touches.fresh (C := fun _ => True) region_true).sound hs
  have h₁ : Matches deep R s.fresh.2 s' :=
    h.frame (hsound h.sound) (by simp) (fun _ => by simp) fun _ => rfl
  have h₂ : Matches deep R s.fresh.2 s'.fresh.2 :=
    h₁.frame' (hsound h.sound') (by simp) (fun _ => by simp) fun _ => rfl
  refine h₂.join (P := fun c c' => c = s.cells.size ∧ c' = s'.cells.size) ?_ ?_ ?_
  · rintro p p' ⟨rfl, rfl⟩
    refine ⟨isolated_fresh h.sound, isolated_fresh h.sound', ?_⟩
    simp only [cell_fresh, cell_of_le (Nat.le_refl _)]
    exact sameData_void
  · rintro p p' q q' ⟨rfl, rfl⟩ ⟨rfl, rfl⟩
    simp
  · rintro c c' p p' hc ⟨rfl, rfl⟩
    exact ⟨Nat.ne_of_lt (h.lt hc).1, Nat.ne_of_lt (h.lt hc).2⟩

/-- More cells are paired. -/
abbrev Pairing.Below (R R' : Pairing) : Prop := ∀ c c', R c c' → R' c c'

/-- Results that come with cells: the stores match along a greater pairing that has them. -/
def NewPair (deep : Prop) (R : Pairing) (x x' : CellId × Store) : Prop :=
  ∃ R' : Pairing, R.Below R' ∧ Matches deep R' x.2 x'.2 ∧ R' x.1 x'.1

theorem Matches.ofScalar (h : Matches deep R s s') (x : Scalar) :
    NewPair deep R (s.ofScalar x) (s'.ofScalar x) :=
  ⟨_, fun _ _ => .inl, h.fresh.renew (.inr ⟨rfl, rfl⟩) (by simp [elementCount_nil]), .inr ⟨rfl, rfl⟩⟩

/-! ### Storing -/

theorem Matches.deliver (h : Matches deep R s s') (hc : R c c') (lengths : List Int)
    (data : Lanes) :
    Agrees (Matches deep R) (s.deliver c lengths data) (s'.deliver c' lengths data) := by
  have hv := h.alike hc
  refine Agrees.bind (V := Matches deep R) ?_ fun t t' ht => ht.write hc data
  unfold prepare
  rw [hv.type_eq, hv.lengths_eq]
  split
  · exact h
  · exact (h.alloc hc data.type lengths).mapError

theorem Matches.receive (h : Matches deep R s s') (hc : R c c')
    {r r' : Except Failure (List Int × Lanes)} (hr : r = r') :
    Agrees (Matches deep R) (s.receive c r) (s'.receive c' r') :=
  (Agrees.of_eq (V := Eq) hr fun _ => rfl).bind fun _ _ he => he ▸ h.deliver hc _ _

theorem Matches.setScalar (h : Matches deep R s s') (hc : R c c') (x : Scalar) :
    Agrees (Matches deep R) (s.setScalar c x) (s'.setScalar c' x) := by
  have hv := h.alike hc
  unfold Store.setScalar
  rw [hv.isVoid_eq]
  split
  · exact h.setData hc _ _
  · rw [hv.scalarAs_eq]
    exact (Agrees.of_eq (V := fun _ _ => True) rfl fun _ => trivial).bind
      fun _ _ _ => h.write hc _

theorem Matches.alikeAll (h : Matches deep R s s') {cs cs' : List CellId}
    (hcs : List.Forall₂ R cs cs') : AlikeAll s s' cs cs' :=
  hcs.imp fun _ _ hc => h.alike hc

theorem Matches.allocate (h : Matches deep R s s') (hc : R c c') (ty : DataType)
    {cs cs' : List CellId} (hcs : List.Forall₂ R cs cs') :
    Agrees (Matches deep R) (s.allocate ty c cs) (s'.allocate ty c' cs') := by
  unfold Store.allocate
  split
  · rfl
  · rw [readLengths_eq (h.alikeAll hcs)]
    exact (Agrees.of_eq (V := Eq) rfl fun _ => rfl).bind
      fun _ _ he => he ▸ (h.alloc hc ty _).mapError

theorem Matches.allocateLike (h : Matches deep R s s') (hc : R c c') (ty : DataType)
    (ha : R a a') :
    Agrees (Matches deep R) (s.allocateLike ty c a) (s'.allocateLike ty c' a') := by
  simp only [Store.allocateLike, (h.alike ha).type_eq, (h.alike ha).lengths_eq]
  generalize (if ty.isConcrete then ty else s'.type a') = ty'
  split
  · rfl
  · exact (h.alloc hc _ _).mapError

/-- Both views show the same place of buffers that are shared in the same way. -/
theorem Matches.setElementView (h : Matches deep R s s') (hc : R c c') (ha : R a a') (i : Int) :
    Agrees (Matches deep R) (s.setElementView c a i) (s'.setElementView c' a' i) := by
  have hv := h.alike ha
  have hr := h.root hc
  have hra := h.root ha
  have hsize : (s.rootCell a).size = (s'.rootCell a').size := hv.size_eq
  have hoff : (s.rootCell a).offset = (s'.rootCell a').offset := hv.offset_eq
  have hsound : ∀ {s t : Store} {c a : CellId}, s.Sound → s.setElementView c a i = .ok t →
      t.Sound :=
    fun hs hv => (Touches.of_setElementView (C := fun _ => True) region_true trivial trivial
      hv).sound hs
  simp only [Store.setElementView, hsize, hoff, hv.bufferSize_eq]
  split
  · rfl
  · rename_i hi
    split
    · rfl
    · rename_i hfit
      have ht := hsound (c := c) (a := a) h.sound (by
        rw [Store.setElementView, hsize, hoff, hv.bufferSize_eq, if_neg hi, if_neg hfit])
      have ht' := hsound (c := c') (a := a') h.sound' (by
        rw [Store.setElementView, if_neg hi, if_neg hfit])
      refine h.update hr (updates_setCell (h.lt hr).1 ht) (updates_setCell (h.lt hr).2 ht')
        (h.target hr) (fun _ => ⟨rfl, rfl, rfl, ?_⟩) fun hd _ hn => h.share_root ha hd hn
      exact hv.buffer?_eq

theorem Matches.referElement (h : Matches deep R s s') (hc : R c c') (ha : R a a')
    {cs cs' : List CellId} (hcs : List.Forall₂ R cs cs') :
    Agrees (Matches deep R) (s.referElement c a cs) (s'.referElement c' a' cs') := by
  unfold Store.referElement
  rw [(h.alike ha).flatIndex_eq (h.alikeAll hcs)]
  exact (Agrees.of_eq (V := Eq) rfl fun _ => rfl).bind
    fun _ _ he => he ▸ (h.setElementView hc ha _).mapError

/-- One element is read through a new cell in both stores. -/
theorem Matches.elementResult_eq (h : Matches deep R s s') (ty : DataType) (ha : R a a')
    {cs cs' : List CellId} (hcs : List.Forall₂ R cs cs') :
    s.elementResult ty a cs = s'.elementResult ty a' cs' := by
  have hnew := h.fresh
  have hagree : Agrees (ε := Failure) (fun (x y : List Int × Lanes) => x = y)
      (s.elementResult ty a cs) (s'.elementResult ty a' cs') := by
    unfold Store.elementResult
    rw [(h.alike ha).flatIndex_eq (h.alikeAll hcs)]
    refine (Agrees.of_eq (V := Eq) rfl fun _ => rfl).bind fun i _ he => ?_
    subst he
    refine (hnew.setElementView (.inr ⟨rfl, rfl⟩) (.inl ha) i).mapError.bind fun t t' ht => ?_
    have hv := ht.alike (.inr ⟨rfl, rfl⟩)
    refine Agrees.of_eq ?_ fun _ => rfl
    rw [hv.type_eq, hv.readAs_eq]
  cases h₁ : s.elementResult ty a cs <;> cases h₂ : s'.elementResult ty a' cs' <;>
    rw [h₁, h₂] at hagree <;> cases hagree <;> rfl

theorem Matches.clone (h : Matches deep R s s') (hc : R c c') :
    Agrees (NewPair deep R) (s.clone c) (s'.clone c') := by
  have hv := h.alike hc
  have hnew := h.fresh
  have hpair : s.cells.size = s.cells.size ∧ s'.cells.size = s'.cells.size := ⟨rfl, rfl⟩
  simp only [Store.clone, hv.isVoid_eq, hv.type_eq, hv.lengths_eq, hv.window_eq]
  split
  · exact ⟨_, fun _ _ => .inl, hnew, .inr hpair⟩
  · refine (hnew.alloc (.inr hpair) _ _).bind fun t t' ht => ?_
    refine (Agrees.of_eq (V := Eq) rfl fun _ => rfl).bind fun data _ he => ?_
    subst he
    exact ⟨_, fun _ _ => .inl, ht.write (.inr hpair) data, .inr hpair⟩

end VectorMachine.Store
