import VectorMachine.Proofs.Store.Delivery
import VectorMachine.Proofs.Store.RowMajor

/-!
# Transferred elements

An assignment, a cast, a fill and the assignment of a single element take elements of a source,
convert them one by one, and deliver them to a destination, whose shape may decide how many they are.
Each of them refuses its data for a few reasons and for no other.
-/

namespace VectorMachine
set_option autoImplicit false

/-- A type that elements can have, or another one in its place. -/
def DataType.orElse (t other : DataType) : DataType := if t.isConcrete then t else other

/-- Whether elements of one type can be cast to another one. -/
def DataType.castsTo (source target : DataType) : Bool :=
  source.isConcrete && target.isConcrete &&
    (source == target || target == .string || (source != .bool && target != .bool))

namespace Scalar

/-- The number that a text stands for: an int in decimal digits, or else the int that a finite float
is truncated to. -/
def ofText? : DataType → String → Option Scalar
  | .int, text => match Binary64.readInt64? text, Binary64.read? text with
    | some v, _ => some (.int v)
    | none, some x => match Binary64.value x with
      | .finite _ => some (.int (Binary64.toInt64 x))
      | _ => none
    | none, none => none
  | .float, text => (Binary64.read? text).map .float
  | _, _ => none

/-- An element cast to a type. -/
def cast? : DataType → Scalar → Option Scalar
  | .int, .int v => some (.int v)
  | .int, .float v => some (.int (Binary64.toInt64 v))
  | .int, .string text => ofText? .int text
  | .float, .float v => some (.float v)
  | .float, .int v => some (.float (intToFloat v))
  | .float, .string text => ofText? .float text
  | .bool, .bool v => some (.bool v)
  | .string, v => some (.string v.text)
  | _, _ => none

end Scalar

namespace Store

variable {s t : Store} {a c d : CellId} {ty : DataType} {lengths : List Int} {α β γ : Type}
  {R A : Prop} {V : α → Prop} {W : β → Prop}

/-! ### Conversions -/

theorem Decides.map {x : Except Failure α} {f : α → β} (hx : Decides R V x)
    (hf : ∀ a, V a → W (f a)) : Decides R W (x.map f) := by
  rcases x with (_ | _) | a
  · exact hx
  · exact hx
  · exact ⟨hx.1, hf a hx.2⟩

/-- Elements of a type that arise from those of a container, one by one. -/
structure Converts (s : Store) (c : CellId) (ty : DataType) (f : Scalar → Option Scalar)
    (data : Lanes) : Prop where
  type_eq : data.type = ty
  counted : s.Counted c data.size
  get?_eq : ∀ i, data.get? i = (s.shown? c i).bind f

theorem type_readAs {data : Lanes} (h : s.readAs ty c = .ok data) : data.type = ty := by
  cases ty with
  | int | float | bool | string =>
    obtain ⟨xs, -, rfl⟩ := map_eq_ok.mp h
    rfl
  | void | any => cases h

theorem Formed.converts_readAs (hs : s.Formed) (ty : DataType) (c : CellId) :
    Decides ((s.type c).readsAs ty = false) (s.Converts c ty (Scalar.as? ty)) (s.readAs ty c) := by
  have hdecides : Decides _ _ (s.readAs ty c) := hs.decides_readAs
  cases hr : s.readAs ty c with
  | error e =>
    rw [hr] at hdecides
    cases e <;> exact hdecides
  | ok data =>
    rw [hr] at hdecides
    obtain ⟨hreads, hcount, hlane⟩ := hdecides
    exact ⟨hreads, type_readAs hr, hcount, fun i => (hlane i).symm⟩

/-- A traversal refuses the data exactly if one of its elements is refused. -/
theorem decides_mapM {f : α → Except Failure β} {p : α → Option γ} {g : β → γ}
    (hf : ∀ x, Decides (p x = none) (fun y => p x = some (g y)) (f x)) (xs : List α) :
    Decides (∃ x ∈ xs, p x = none) (fun ys => xs.map p = ys.map fun y => some (g y))
      (xs.mapM f) := by
  induction xs with
  | nil => exact ⟨by simp, rfl⟩
  | cons x xs ih =>
    rw [List.mapM_cons]
    refine ((hf x).bind fun y hy => decides_map ih fun ys hys => ?_).congr (by simp)
    simp [hy, hys]

theorem decides_mapM_array {f : α → Except Failure β} {p : α → Option γ} {g : β → γ}
    (hf : ∀ x, Decides (p x = none) (fun y => p x = some (g y)) (f x)) (xs : Array α) :
    Decides (∃ (i : Nat) (x : α), xs[i]? = some x ∧ p x = none)
      (fun ys : Array β => ys.size = xs.size ∧ ∀ i : Nat, ys[i]?.map g = xs[i]?.bind p) (xs.mapM f) := by
  rw [Array.mapM_eq_mapM_toList]
  refine Decides.congr (Decides.map (decides_mapM hf xs.toList) fun ys hys => ?_) ?_
  · have hsize := congrArg List.length hys
    simp only [List.length_map, Array.length_toList] at hsize
    refine ⟨by simpa using hsize.symm, fun i => ?_⟩
    have hi := congrArg (·[i]?) hys
    simp only [List.getElem?_map, Array.getElem?_toList] at hi
    cases hx : xs[i]? <;> cases hy : ys[i]? <;> simp_all
  · simp only [Array.mem_toList_iff, Array.mem_iff_getElem?]
    constructor
    · rintro ⟨x, ⟨i, hi⟩, h⟩
      exact ⟨i, x, hi, h⟩
    · rintro ⟨i, x, hi, h⟩
      exact ⟨x, ⟨i, hi⟩, h⟩

theorem decides_textToInt (text : String) : Decides (Scalar.cast? .int (.string text) = none)
    (fun v => Scalar.cast? .int (.string text) = some (.int v)) (textToInt text) := by
  simp only [textToInt, Scalar.cast?, Scalar.ofText?]
  cases Binary64.readInt64? text with
  | some v => exact ⟨by simp, rfl⟩
  | none =>
    cases Binary64.read? text with
    | none => exact decides_refuse _ rfl
    | some x =>
      simp only
      cases Binary64.value x with
      | finite => exact ⟨by simp, rfl⟩
      | infinite | nan => exact decides_refuse _ rfl

theorem decides_textToFloat (text : String) : Decides (Scalar.cast? .float (.string text) = none)
    (fun v => Scalar.cast? .float (.string text) = some (.float v)) (textToFloat text) := by
  simp only [textToFloat, Scalar.cast?, Scalar.ofText?]
  cases Binary64.read? text with
  | none => exact decides_refuse _ rfl
  | some x => exact ⟨by simp, rfl⟩

/-- A text among the elements of a container that is not cast to a type. -/
def Misspelt (s : Store) (c : CellId) (ty : DataType) : Prop :=
  ∃ i text, s.shown? c i = some (.string text) ∧ Scalar.cast? ty (.string text) = none

/-- Every lane of a cast converts, and none is refused. -/
theorem decides_cast {data r : Lanes} {x : Except Failure Lanes} (hw : s.window c = .ok data)
    (hcount : s.Counted c data.size) (htype : data.type = s.type c) (hx : x = .ok r)
    (hcasts : data.type.castsTo ty = true) (hr : r.type = ty) (hsize : r.size = data.size)
    (hget : ∀ i, r.get? i = (data.get? i).bind (Scalar.cast? ty))
    (hspelt : ∀ i text, data.get? i = some (.string text) →
      Scalar.cast? ty (.string text) ≠ none) :
    Decides ((s.type c).castsTo ty = false ∨ s.Misspelt c ty) (s.Converts c ty (Scalar.cast? ty))
      x := by
  rw [hx]
  refine ⟨?_, hr, hsize ▸ hcount, fun i => by rw [shown?_of_window hw, hget]⟩
  rintro (h | ⟨i, text, hi, h⟩)
  · rw [← htype, hcasts] at h
    cases h
  · rw [shown?_of_window hw] at hi
    exact hspelt i text hi h

/-- Texts are cast one by one, and the first that does not parse is refused. -/
theorem decides_castTexts {xs : Array String} {f : String → Except Failure β}
    {inject : β → Scalar} {wrap : Array β → Lanes} (hw : s.window c = .ok (.strings xs))
    (hcount : s.Counted c xs.size) (htype : s.type c = .string)
    (hcasts : DataType.string.castsTo ty = true) (hr : ∀ ys, (wrap ys).type = ty)
    (hsize : ∀ ys, (wrap ys).size = ys.size)
    (hget : ∀ ys i, (wrap ys).get? i = ys[i]?.map inject)
    (hf : ∀ text, Decides (Scalar.cast? ty (.string text) = none)
      (fun v => Scalar.cast? ty (.string text) = some (inject v)) (f text)) :
    Decides ((s.type c).castsTo ty = false ∨ s.Misspelt c ty) (s.Converts c ty (Scalar.cast? ty))
      ((xs.mapM f).map wrap) := by
  have hshown : ∀ i, s.shown? c i = xs[i]?.map .string := shown?_of_window hw
  refine ((decides_mapM_array hf xs).map fun ys hys => ?_).congr ?_
  · refine ⟨hr ys, by rw [hsize, hys.1]; exact hcount, fun i => ?_⟩
    rw [hget, hys.2, hshown]
    cases xs[i]? <;> rfl
  · simp only [htype, hcasts, Bool.true_eq_false, false_or, Misspelt, hshown]
    constructor
    · rintro ⟨i, text, hi, h⟩
      exact ⟨i, text, by rw [hi]; rfl, h⟩
    · rintro ⟨i, text, hi, h⟩
      refine ⟨i, text, ?_, h⟩
      cases hx : xs[i]? with
      | none => simp [hx] at hi
      | some v =>
        rw [hx] at hi
        cases hi
        rfl

theorem Formed.decides_castLanes (hs : s.Formed) (hv : s.type c ≠ .void) :
    Decides ((s.type c).castsTo ty = false ∨ s.Misspelt c ty) (s.Converts c ty (Scalar.cast? ty))
      (s.castLanes ty c) := by
  obtain ⟨data, hw, htype, hcount⟩ := hs.exists_window hv
  simp only [castLanes, lanes, hw, Except.mapError, ok_bind]
  have hrefused : data.type.castsTo ty = false → ∀ cause, Decides
      ((s.type c).castsTo ty = false ∨ s.Misspelt c ty) (s.Converts c ty (Scalar.cast? ty))
      (refuse cause) := fun h cause => decides_refuse cause (.inl (htype ▸ h))
  cases ty with
  | void | any => exact hrefused (by cases data <;> rfl) _
  | int =>
    cases data with
    | ints xs =>
      refine decides_cast hw hcount htype rfl rfl rfl rfl (fun i => ?_) fun i _ hi => ?_
      · cases hx : xs[i]? <;> simp [Lanes.get?, hx, Scalar.cast?]
      · simp [Lanes.get?] at hi
    | floats xs =>
      refine decides_cast hw hcount htype rfl rfl rfl (by simp [Lanes.size]) (fun i => ?_)
        fun i _ hi => ?_
      · cases hx : xs[i]? <;> simp [Lanes.get?, hx, Scalar.cast?]
      · simp [Lanes.get?] at hi
    | bools => exact hrefused rfl _
    | strings xs =>
      exact decides_castTexts hw hcount htype.symm rfl (fun _ => rfl) (fun _ => rfl)
        (fun _ _ => rfl) decides_textToInt
  | float =>
    cases data with
    | ints xs =>
      refine decides_cast hw hcount htype rfl rfl rfl (by simp [Lanes.size]) (fun i => ?_)
        fun i _ hi => ?_
      · cases hx : xs[i]? <;> simp [Lanes.get?, hx, Scalar.cast?]
      · simp [Lanes.get?] at hi
    | floats xs =>
      refine decides_cast hw hcount htype rfl rfl rfl rfl (fun i => ?_) fun i _ hi => ?_
      · cases hx : xs[i]? <;> simp [Lanes.get?, hx, Scalar.cast?]
      · simp [Lanes.get?] at hi
    | bools => exact hrefused rfl _
    | strings xs =>
      exact decides_castTexts hw hcount htype.symm rfl (fun _ => rfl) (fun _ => rfl)
        (fun _ _ => rfl) decides_textToFloat
  | bool =>
    cases data with
    | bools xs =>
      refine decides_cast hw hcount htype rfl rfl rfl rfl (fun i => ?_) fun i _ hi => ?_
      · cases hx : xs[i]? <;> simp [Lanes.get?, hx, Scalar.cast?]
      · simp [Lanes.get?] at hi
    | ints | floats | strings => exact hrefused rfl _
  | string =>
    -- a cast to text reads the elements as text
    have hsame : Scalar.cast? .string = Scalar.as? .string := by
      funext v
      cases v <;> rfl
    rw [hsame]
    refine (hs.converts_readAs .string c).congr ?_
    have hspelt : ¬ s.Misspelt c .string := by
      rintro ⟨i, text, -, h⟩
      cases h
    rw [or_iff_left hspelt, ← htype]
    cases data <;> rfl

end Store

/-! ### Transfers -/

/-- How an instruction takes elements of a source. -/
inductive Transfer where
  | move
  | cast
  | fill
  | element (indices : List CellId)

namespace Transfer

open Store (rowMajor elementTotal)

variable (s : Store) (ty : DataType) (d a : CellId)

/-- The type that the destination gets. -/
def resultType : Transfer → DataType
  | .move | .element _ => ty.orElse (s.type a)
  | .cast => ty
  | .fill => ty.orElse (s.type d)

/-- The lengths that the destination gets: its own if it is filled, none if it is a scalar that is
assigned to, and those of the source otherwise. -/
def resultLengths : Transfer → List Int
  | .move => if s.isScalar d then [] else s.lengths a
  | .cast => s.lengths a
  | .fill => s.lengths d
  | .element _ => []

/-- The element that the destination gets at a position: the one of the source there, its only one
for a fill, or the one with some indices, converted. -/
def lane? (i : Nat) : Transfer → Option Scalar
  | .move => (s.shown? a i).bind (Scalar.as? (ty.orElse (s.type a)))
  | .cast => (s.shown? a i).bind (Scalar.cast? ty)
  | .fill => (s.shown? a 0).bind (Scalar.as? (ty.orElse (s.type d)))
  | .element cs => (cs.mapM s.subscript?).bind fun indices =>
    (s.shown? a (rowMajor (s.lengths a) indices).toNat).bind (Scalar.as? (ty.orElse (s.type a)))

/-- Why a transfer refuses its data. -/
def Refuses : Transfer → Prop
  | .move => s.type a = .void ∨ (s.type a).readsAs (ty.orElse (s.type a)) = false ∨
    s.isScalar d = true ∧ s.size a ≠ 1
  | .cast => s.type a = .void ∨ s.type d ≠ .void ∧ s.rank d ≠ s.rank a ∨
    (s.type a).castsTo ty = false ∨ s.Misspelt a ty
  | .fill => s.type d = .void ∨ s.size a ≠ 1 ∨
    (s.type a).readsAs (ty.orElse (s.type d)) = false
  | .element cs => cs.length ≠ s.rank a ∨ (s.firstOffense? (s.lengths a) cs).isSome ∨
    (s.type a).readsAs (ty.orElse (s.type a)) = false

/-- An array whose elements are selected has elements, and 64 bits number them all. -/
def Numbered : Transfer → Prop
  | .element _ => s.type a ≠ .void ∧ elementTotal (s.lengths a) < 2 ^ 63
  | _ => True

/-- What a transfer computes. -/
def result : Transfer → Except Failure (List Int × Lanes)
  | .move => s.moveResult ty (s.isScalar d) a
  | .cast => s.castResult ty (s.shape d) a
  | .fill => s.fillResult ty (s.shape d) a
  | .element cs => s.elementResult ty a cs

end Transfer

namespace Store

variable {s t : Store} {a c d : CellId} {ty : DataType} {lengths : List Int} {α : Type}
  {R A : Prop} {V : α → Prop} {tr : Transfer}

/-- Elements with their lengths are what a transfer takes of its source. -/
structure Conveys (s : Store) (ty : DataType) (d a : CellId) (tr : Transfer)
    (r : List Int × Lanes) : Prop where
  type_eq : r.2.type = tr.resultType s ty d a
  lengths_eq : r.1 = tr.resultLengths s d a
  size_eq : r.2.size = (elementCount r.1).toNat
  lane : tr.Numbered s a → ∀ i < r.2.size, r.2.get? i = tr.lane? s ty d a i

theorem Formed.decides_moveResult (hs : s.Formed) :
    Decides (Transfer.move.Refuses s ty d a) (s.Conveys ty d a .move)
      (s.moveResult ty (s.isScalar d) a) := by
  unfold moveResult
  simp only [Transfer.Refuses]
  split
  · rename_i hv
    exact decides_refuse _ (.inl (by simpa [isVoid] using hv))
  · rename_i hv
    have hv : s.type a ≠ .void := by simpa [isVoid] using hv
    have hread := hs.converts_readAs (ty.orElse (s.type a)) a
    by_cases hscalar : s.isScalar d = true
    · rw [if_pos hscalar]
      by_cases hone : s.size a = 1
      · rw [if_neg (not_not.mpr hone)]
        refine (hread.map fun data h => ?_).congr (by simp [hv, hone])
        refine ⟨h.type_eq, by simp [Transfer.resultLengths, hscalar], ?_,
          fun _ i _ => h.get?_eq i⟩
        rw [h.counted.eq_size, hone, elementCount_nil]
      · rw [if_pos hone]
        exact decides_refuse _ (.inr (.inr ⟨hscalar, hone⟩))
    · rw [if_neg hscalar]
      refine (hread.map fun data h => ?_).congr (by simp [hv, hscalar])
      exact ⟨h.type_eq, by simp [Transfer.resultLengths, hscalar], h.counted.eq_lengths,
        fun _ i _ => h.get?_eq i⟩

theorem Formed.decides_castResult (hs : s.Formed) :
    Decides (Transfer.cast.Refuses s ty d a) (s.Conveys ty d a .cast)
      (s.castResult ty (s.shape d) a) := by
  unfold castResult
  simp only [Transfer.Refuses]
  split
  · rename_i hv
    exact decides_refuse _ (.inl (by simpa [isVoid] using hv))
  · rename_i hv
    have hv : s.type a ≠ .void := by simpa [isVoid] using hv
    split
    · rename_i hrank
      exact decides_refuse _ (.inr (.inl hrank))
    · rename_i hrank
      have hrank : ¬ (s.type d ≠ .void ∧ s.rank d ≠ s.rank a) := hrank
      refine ((hs.decides_castLanes hv).map fun data h => ?_).congr (by simp [hv, hrank])
      exact ⟨h.type_eq, rfl, h.counted.eq_lengths, fun _ i _ => h.get?_eq i⟩

theorem replicateFirst?_spec {data : Lanes} (n : Nat) (h : 0 < data.size) :
    ∃ xs, data.replicateFirst? n = some xs ∧ xs.type = data.type ∧ xs.size = n ∧
      ∀ i < n, xs.get? i = data.get? 0 := by
  have hfirst : ∀ {α : Type} {xs : Array α}, 0 < xs.size → ∃ x, xs[0]? = some x :=
    fun h => ⟨_, Array.getElem?_eq_getElem h⟩
  cases data with
  | ints xs =>
    obtain ⟨x, hx⟩ := hfirst h
    exact ⟨.ints (Array.replicate n x), by simp [Lanes.replicateFirst?, hx], rfl,
      by simp [Lanes.size], fun i hi => by simp [Lanes.get?, hx, hi]⟩
  | floats xs =>
    obtain ⟨x, hx⟩ := hfirst h
    exact ⟨.floats (Array.replicate n x), by simp [Lanes.replicateFirst?, hx], rfl,
      by simp [Lanes.size], fun i hi => by simp [Lanes.get?, hx, hi]⟩
  | bools xs =>
    obtain ⟨x, hx⟩ := hfirst h
    exact ⟨.bools (Array.replicate n x), by simp [Lanes.replicateFirst?, hx], rfl,
      by simp [Lanes.size], fun i hi => by simp [Lanes.get?, hx, hi]⟩
  | strings xs =>
    obtain ⟨x, hx⟩ := hfirst h
    exact ⟨.strings (Array.replicate n x), by simp [Lanes.replicateFirst?, hx], rfl,
      by simp [Lanes.size], fun i hi => by simp [Lanes.get?, hx, hi]⟩

theorem Formed.decides_fillResult (hs : s.Formed) :
    Decides (Transfer.fill.Refuses s ty d a) (s.Conveys ty d a .fill)
      (s.fillResult ty (s.shape d) a) := by
  unfold fillResult
  simp only [Transfer.Refuses]
  split
  · rename_i hv
    exact decides_refuse _ (.inl hv)
  · rename_i hv
    have hv : s.type d ≠ .void := hv
    split
    · rename_i hone
      exact decides_refuse _ (.inr (.inl hone))
    · rename_i hone
      rw [not_not] at hone
      have hread := hs.converts_readAs (ty.orElse (s.type d)) a
      refine Decides.congr (R := (s.type a).readsAs (ty.orElse (s.type d)) = false ∨ False)
        (hread.bind fun data h => ?_) (by simp [hv, hone])
      have hpos : 0 < data.size := by
        rw [h.counted.eq_size, hone]
        decide
      obtain ⟨xs, hxs, htype, hsize, hget⟩ :=
        replicateFirst?_spec (elementCount (s.lengths d)).toNat hpos
      simp only [shape, hxs]
      refine ⟨id, htype.trans h.type_eq, rfl, hsize, fun _ i hi => ?_⟩
      rw [hget i (hsize ▸ hi), h.get?_eq]
      rfl

theorem alike_fresh (hs : s.Sound) (c : CellId) : s.fresh.2.Alike c s c := by
  have hcell : ∀ b, s.fresh.2.cell b = s.cell b := fun _ => cell_fresh
  have hroot : s.fresh.2.rootCell c = s.rootCell c := by
    rw [rootCell, root_congr hs.grounded fun b => congrArg Cell.target (hcell b), hcell, rootCell]
  exact ⟨by simp only [buffer?, hroot]; rfl, by simp only [size, hroot],
    by simp only [Store.lengths, hroot], by simp only [offset, hroot]⟩

/-- A computation refuses the data only if `R` holds, aborts only if `A` does, and else gives a
result with the property `V`. -/
def Settles (R A : Prop) (V : α → Prop) : Except Failure α → Prop
  | .ok a => ¬ R ∧ V a
  | .error (.data _) => R
  | .error (.abort _) => A

theorem Decides.settles {x : Except Failure α} (h : Decides R V x) : Settles R A V x := by
  rcases x with (_ | _) | a
  · exact h
  · exact h.elim
  · exact h

theorem Formed.settles_elementResult (hs : s.Formed) (cs : List CellId) :
    Settles ((Transfer.element cs).Refuses s ty d a) (¬ (Transfer.element cs).Numbered s a)
      (s.Conveys ty d a (.element cs)) (s.elementResult ty a cs) := by
  unfold elementResult
  rcases hs.flatIndex_cases a cs with ⟨hcount, cause, h, -⟩ | ⟨-, cause, h, hoffense⟩ |
    ⟨hcount, indices, hindices, hin, h⟩
  · rw [h]
    exact .inl hcount
  · rw [h]
    exact .inr (.inl (by rw [hoffense]; rfl))
  rw [h, ok_bind]
  have halike := alike_fresh hs.sound a
  have hfresh : s.fresh.2.Formed := Edit.formed .fresh hs
  have hnew : s.cells.size < s.fresh.2.cells.size := by simp
  have hinside := fun (hnum : (Transfer.element cs).Numbered s a) =>
    hs.wrap_rowMajor hnum.1 hnum.2 hin
  change Settles _ _ _ ((s.fresh.2.setElementView s.cells.size a
    (wrap (rowMajor (s.lengths a) indices))).mapError .abort >>= _)
  cases hview : s.fresh.2.setElementView s.cells.size a
      (wrap (rowMajor (s.lengths a) indices)) with
  | error e =>
    intro hnum
    obtain ⟨hwrap, hnonneg, hlt⟩ := hinside hnum
    rw [hwrap] at hview
    rw [← halike.size_eq] at hlt
    obtain ⟨t, ht⟩ := hfresh.exists_view (c := s.cells.size) hnonneg hlt
    rw [ht] at hview
    cases hview
  | ok t =>
    obtain ⟨hformed, htype, hsize, hshown⟩ := hfresh.of_setElementView hnew hview
    rw [halike.type_eq] at htype
    have hread := hformed.converts_readAs (ty.orElse (s.type a)) s.cells.size
    simp only [Except.mapError, ok_bind]
    rw [htype] at hread ⊢
    refine Decides.settles ((hread.map fun data hdata => ?_).congr ?_)
    · refine ⟨hdata.type_eq, rfl, ?_, fun hnum i hi => ?_⟩
      · rw [hdata.counted.eq_size, hsize, elementCount_nil]
      · obtain rfl : i = 0 := by
          rw [hdata.counted.eq_size, hsize] at hi
          omega
        rw [hdata.get?_eq, hshown, (hinside hnum).1]
        simp only [Transfer.lane?, hindices, Option.bind_some, shown?, halike.window_eq]
    · have hnone := (firstOffense?_eq_none_iff hcount).mpr ⟨indices, hindices, hin⟩
      simp [Transfer.Refuses, hcount, hnone]

theorem Formed.settles_result (hs : s.Formed) (ty : DataType) (d a : CellId) (tr : Transfer) :
    Settles (tr.Refuses s ty d a) (¬ tr.Numbered s a) (s.Conveys ty d a tr)
      (tr.result s ty d a) := by
  cases tr with
  | move => exact hs.decides_moveResult.settles
  | cast => exact hs.decides_castResult.settles
  | fill => exact hs.decides_fillResult.settles
  | element cs => exact hs.settles_elementResult cs

/-! ### Delivery -/

/-- `t` arises from `s` by a transfer: the destination has the type and the lengths that it gets and
shows what it is conveyed, as the source was in `s`, and shares a buffer with the source only if it
did. -/
structure Becomes (s : Store) (ty : DataType) (d a : CellId) (tr : Transfer) (t : Store) : Prop where
  type_eq : t.type d = tr.resultType s ty d a
  lengths_eq : t.lengths d = tr.resultLengths s d a
  lane : tr.Numbered s a → ∀ i < (elementCount (tr.resultLengths s d a)).toNat,
    ∃ v, tr.lane? s ty d a i = some v ∧ t.shown? d i = some v
  shares : t.Shares d a → s.Shares d a

theorem source_of_not_refuses (h : ¬ tr.Refuses s ty d a) : s.type a ≠ .void := by
  intro hv
  refine h ?_
  cases tr with
  | move => exact .inl hv
  | cast => exact .inl hv
  | fill =>
    refine .inr (.inr ?_)
    rw [hv]
    rfl
  | element => exact .inr (.inr (by rw [hv]; rfl))

theorem Formed.shares_of_receive (hs : s.Formed) {r : List Int × Lanes}
    (hr : r.2.size = (elementCount r.1).toNat) (ha : s.type a ≠ .void)
    (ht : s.receive d (.ok r) = .ok t) (h : t.Shares d a) : s.Shares d a := by
  by_cases hroot : s.root d = s.root a
  · -- source and destination are one root, which already shares with itself
    obtain ⟨b, -, hb, -⟩ := buffer_of_type ha
    exact ⟨b, by rw [rootCell, hroot]; exact hb, hb⟩
  · have hrooted : s.Rooted := ⟨hs.sound.grounded, hs.sound.buffer_lt⟩
    have hframe : s.Frame d (fun _ => False) False (fun _ => False) t :=
      (hs.sound.refilled_receive (x := .ok r) hr ht).frame hrooted
    refine (hframe.shares (.inl hroot) h).resolve_right ?_
    rintro ⟨_, hno, -⟩
    exact hno

/-- A transfer refuses its data, or is performed, or cannot allocate its result; if the elements of an
array cannot be numbered, it may abort for that reason. -/
theorem Formed.receive_transfer (hs : s.Formed) (ty : DataType) (hd : d < s.cells.size)
    (tr : Transfer) :
    (tr.Refuses s ty d a ∧ ∃ cause, s.receive d (tr.result s ty d a) = .error (.data cause)) ∨
    (¬ tr.Refuses s ty d a ∧ s.Takes d (tr.resultType s ty d a) (tr.resultLengths s d a) ∧
      ∃ t, s.receive d (tr.result s ty d a) = .ok t ∧ s.Becomes ty d a tr t) ∨
    (¬ tr.Refuses s ty d a ∧ ¬ s.Takes d (tr.resultType s ty d a) (tr.resultLengths s d a) ∧
      ∃ e, s.receive d (tr.result s ty d a) = .error (.abort e) ∧ Unallocatable e) ∨
    (¬ tr.Numbered s a ∧ ∃ e, s.receive d (tr.result s ty d a) = .error (.abort e)) := by
  have hsettles := hs.settles_result ty d a tr
  cases hr : tr.result s ty d a with
  | error e =>
    rw [hr] at hsettles
    cases e with
    | data cause => exact .inl ⟨hsettles, cause, rfl⟩
    | abort e => exact .inr (.inr (.inr ⟨hsettles, e, rfl⟩))
  | ok r =>
    obtain ⟨lengths, data⟩ := r
    rw [hr] at hsettles
    obtain ⟨hno, hconveys⟩ := hsettles
    have hlengths : lengths = tr.resultLengths s d a := hconveys.lengths_eq
    have htype : data.type = tr.resultType s ty d a := hconveys.type_eq
    have hsize : data.size = (elementCount lengths).toNat := hconveys.size_eq
    rw [← hlengths, ← htype]
    rcases hs.deliver_cases hd hsize with ⟨htakes, t, hok, htt, htl, hw⟩ | ⟨htakes, e, he, hun⟩
    · refine .inr (.inl ⟨hno, htakes, t, hok, htt.trans htype, htl.trans hlengths,
        fun hnum i hi => ?_,
        hs.shares_of_receive (r := (lengths, data)) hsize (source_of_not_refuses hno) hok⟩)
      rw [← hlengths, ← hsize] at hi
      obtain ⟨v, hv⟩ : ∃ v, data.get? i = some v := by
        refine Option.ne_none_iff_exists'.mp fun hnone => ?_
        have := Lanes.get?_eq_none_iff.mp hnone
        omega
      exact ⟨v, (hconveys.lane hnum i hi).symm.trans hv, (shown?_of_window hw i).trans hv⟩
    · exact .inr (.inr (.inl ⟨hno, htakes, e, he, hun⟩))

end Store

end VectorMachine
