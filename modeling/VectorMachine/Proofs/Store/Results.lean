import VectorMachine.Proofs.Store.Formed
import VectorMachine.Proofs.Store.Scalars

/-!
# Results have all their elements

Every instruction that delivers elements delivers exactly as many as the lengths that come with
them say.
-/

namespace VectorMachine.Store
set_option autoImplicit false

variable {s t : Store} {a b c : CellId} {ty : DataType} {α β : Type} {V : α → Prop}

/-- A computation gives nothing but results with the property `V`. -/
abbrev Gives (V : α → Prop) (x : Except Failure α) : Prop := Answers (fun _ => True) V x

theorem Gives.of_ok {x : Except Failure α} (h : ∀ a, x = .ok a → V a) : Gives V x := by
  rcases x with (_ | _) | a
  · trivial
  · trivial
  · exact h a rfl

theorem gives_any (x : Except Failure α) : Gives (fun _ => True) x := .of_ok fun _ _ => trivial

theorem Gives.ok {x : Except Failure α} (h : Gives V x) {a : α} (ha : x = .ok a) : V a := by
  subst ha
  exact h

/-- The lengths of a result describe the number of its elements. -/
def Complete (r : List Int × Lanes) : Prop := r.2.size = (elementCount r.1).toNat

/-- As many elements as a container shows. -/
abbrev Fills (s : Store) (c : CellId) (n : Nat) : Prop := n = (elementCount (s.lengths c)).toNat

/-! ### Reading -/

theorem Sound.gives_lanes (hs : s.Sound) : Gives (fun xs => s.Fills c xs.size) (s.lanes c) :=
  .of_ok fun _ h => (window_ok hs (mapError_eq_ok.mp h)).2

theorem Sound.gives_readInts (hs : s.Sound) : Gives (fun xs => s.Fills c xs.size) (s.readInts c) := by
  unfold readInts
  split
  · trivial
  · refine hs.gives_lanes.bind fun xs hxs => ?_
    cases xs with
    | ints => exact hxs
    | floats | bools | strings => trivial

theorem Sound.gives_readFloats (hs : s.Sound) :
    Gives (fun xs => s.Fills c xs.size) (s.readFloats c) := by
  unfold readFloats
  split
  · trivial
  · refine hs.gives_lanes.bind fun xs hxs => ?_
    cases xs with
    | ints => simpa [Answers, Lanes.size] using hxs
    | floats => exact hxs
    | bools | strings => trivial

theorem Sound.gives_readBools (hs : s.Sound) :
    Gives (fun xs => s.Fills c xs.size) (s.readBools c) := by
  unfold readBools
  split
  · trivial
  · refine hs.gives_lanes.bind fun xs hxs => ?_
    cases xs with
    | bools => exact hxs
    | ints | floats | strings => trivial

theorem Sound.gives_readStrings (hs : s.Sound) :
    Gives (fun xs => s.Fills c xs.size) (s.readStrings c) := by
  unfold readStrings
  split
  · trivial
  · refine hs.gives_lanes.bind fun xs hxs => ?_
    cases xs <;> simpa [Answers, Lanes.size] using hxs

theorem Sound.gives_readAs (hs : s.Sound) :
    Gives (fun xs => s.Fills c xs.size) (s.readAs ty c) := by
  unfold readAs
  cases ty with
  | int => exact hs.gives_readInts.map fun _ h => h
  | float => exact hs.gives_readFloats.map fun _ h => h
  | bool => exact hs.gives_readBools.map fun _ h => h
  | string => exact hs.gives_readStrings.map fun _ h => h
  | void | any => trivial

/-! ### Elementwise instructions -/

theorem gives_combine {f : α → α → β} {lengths : List Int} {xs ys : Array α} :
    Gives (fun zs => zs.size = (elementCount lengths).toNat) (combine f lengths xs ys) := by
  refine .of_ok fun zs h => ?_
  obtain ⟨us, hu, h⟩ := bind_eq_ok.mp h
  obtain ⟨vs, hv, h⟩ := bind_eq_ok.mp h
  cases h
  simp [size_broadcast hu, size_broadcast hv]

theorem gives_arithmeticResult (op : Arithmetic) :
    Gives Complete (s.arithmeticResult op ty a b) := by
  refine (gives_any _).bind fun ls _ => ?_
  cases ty with
  | int =>
    refine (gives_any _).bind fun xs _ => (gives_any _).bind fun ys _ => ?_
    exact (gives_any _).bind fun _ _ => gives_combine.bind fun _ h => h
  | float =>
    refine (gives_any _).bind fun xs _ => (gives_any _).bind fun ys _ => ?_
    exact gives_combine.bind fun _ h => h
  | string =>
    dsimp only
    split
    · trivial
    · refine (gives_any _).bind fun xs _ => (gives_any _).bind fun ys _ => ?_
      exact gives_combine.bind fun _ h => h
  | bool | void | any => trivial

theorem gives_compareResult (op : Comparison) : Gives Complete (s.compareResult op ty a b) := by
  refine (gives_any _).bind fun ls _ => ?_
  cases ty with
  | int | float | string =>
    refine (gives_any _).bind fun xs _ => (gives_any _).bind fun ys _ => ?_
    exact gives_combine.bind fun _ h => h
  | bool =>
    dsimp only
    split
    · trivial
    · refine (gives_any _).bind fun xs _ => (gives_any _).bind fun ys _ => ?_
      exact gives_combine.bind fun _ h => h
  | void | any => trivial

theorem Sound.gives_connectResult (hs : s.Sound) (op : Connective) :
    Gives Complete (s.connectResult op ty a b) := by
  unfold connectResult
  split
  · trivial
  · refine hs.gives_readBools.bind fun xs hxs => ?_
    split
    · exact hxs
    · refine (gives_any _).bind fun ls _ => (gives_any _).bind fun ys _ => ?_
      exact gives_combine.bind fun _ h => h

theorem Sound.gives_negateResult (hs : s.Sound) : Gives Complete (s.negateResult ty a) := by
  unfold negateResult
  cases ty with
  | int => exact hs.gives_readInts.bind fun xs h => by simpa [Answers, Complete, Lanes.size] using h
  | float =>
    exact hs.gives_readFloats.bind fun xs h => by simpa [Answers, Complete, Lanes.size] using h
  | bool | string | void | any => trivial

theorem Sound.gives_complementResult (hs : s.Sound) : Gives Complete (s.complementResult ty a) := by
  unfold complementResult
  split
  · trivial
  · exact hs.gives_readBools.bind fun xs h => by simpa [Answers, Complete, Lanes.size] using h

/-! ### Transfers -/

theorem Sound.gives_moveResult (hs : s.Sound) (intoScalar : Bool) :
    Gives Complete (s.moveResult ty intoScalar a) := by
  simp only [moveResult]
  split
  · trivial
  · rename_i hv
    split
    · split
      · trivial
      · rename_i hone
        refine hs.gives_readAs.map fun xs hxs => ?_
        have hsize := hs.size_eq (c := a) (by simpa [isVoid] using hv)
        rw [not_not] at hone
        rw [Complete, hxs, elementCount_nil, ← hsize, hone]
    · exact hs.gives_readAs.map fun xs hxs => hxs

theorem gives_mapM {f : α → Except Failure β} (xs : Array α) :
    Gives (fun ys => ys.size = xs.size) (xs.mapM f) := by
  rw [Array.mapM_eq_mapM_toList]
  have hlist : ∀ xs : List α, Gives (fun ys => ys.length = xs.length) (xs.mapM f) := by
    intro xs
    induction xs with
    | nil => exact rfl
    | cons x xs ih =>
      rw [List.mapM_cons]
      exact (gives_any _).bind fun y _ => ih.bind fun ys h => congrArg (· + 1) h
  exact (hlist xs.toList).map fun ys h => by simpa using h

theorem Sound.gives_castLanes (hs : s.Sound) :
    Gives (fun xs => s.Fills c xs.size) (s.castLanes ty c) := by
  refine hs.gives_lanes.bind fun xs hxs => ?_
  cases ty with
  | int =>
    cases xs with
    | ints => exact hxs
    | floats => simpa [Answers, Lanes.size] using hxs
    | strings xs => exact (gives_mapM xs).map fun ys hys => hys.trans hxs
    | bools => trivial
  | float =>
    cases xs with
    | ints => simpa [Answers, Lanes.size] using hxs
    | floats => exact hxs
    | strings xs => exact (gives_mapM xs).map fun ys hys => hys.trans hxs
    | bools => trivial
  | bool =>
    cases xs with
    | bools => exact hxs
    | ints | floats | strings => trivial
  | string => exact hs.gives_readStrings.map fun _ h => h
  | void | any => trivial

theorem Sound.gives_castResult (hs : s.Sound) (into : Shape) :
    Gives Complete (s.castResult ty into a) := by
  unfold castResult
  split
  · trivial
  · split
    · trivial
    · exact hs.gives_castLanes.map fun _ h => h

theorem gives_fillResult (into : Shape) : Gives Complete (s.fillResult ty into a) := by
  unfold fillResult
  split
  · trivial
  · split
    · trivial
    · refine (gives_any _).bind fun xs _ => ?_
      split
      · rename_i ys hys
        cases xs <;>
          (obtain ⟨x, -, rfl⟩ := Option.map_eq_some_iff.mp hys; simp [Answers, Complete, Lanes.size])
      · trivial

/-- A root that shows a part of a buffer has the lengths of that part. -/
theorem lengths_present (hs : s.Sound) (hlt : s.root c < s.cells.size) (i : Option BufferId)
    (offset : Nat) (lengths : List Int) : (s.present c i offset lengths).lengths c = lengths := by
  have htarget : ∀ d, ((s.present c i offset lengths).cell d).target = (s.cell d).target := by
    intro d
    rw [cell_present]
    split <;> rfl
  rw [Store.lengths, rootCell, root_congr hs.grounded htarget, cell_present, if_pos ⟨rfl, hlt⟩]
  rfl

theorem Sound.gives_elementResult (hs : s.Sound) (indices : List CellId) :
    Gives Complete (s.elementResult ty a indices) := by
  refine (gives_any _).bind fun i _ => ?_
  have hnew : s.fresh.2.Sound := (Touches.fresh (C := fun _ => True) region_true).sound hs
  have hroot : s.fresh.2.root s.cells.size < s.fresh.2.cells.size := by
    rw [root_eq_self (by simp [cell_fresh, cell_of_le])]
    simp
  refine Answers.bind (V := fun t => t.Sound ∧ t.lengths s.cells.size = []) ?_ fun t ht => ?_
  · refine Gives.of_ok fun t ht => ?_
    obtain ⟨data, hb, -, -, hfit, rfl⟩ := setElementView_ok (mapError_eq_ok.mp ht)
    exact ⟨(Touches.of_setElementView (C := fun _ => True) region_true trivial trivial
      (mapError_eq_ok.mp ht)).sound hnew, lengths_present hnew hroot _ _ _⟩
  · refine ht.1.gives_readAs.map fun xs hxs => ?_
    rw [Complete, hxs, ht.2]

end VectorMachine.Store
