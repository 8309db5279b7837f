import VectorMachine.Proofs.Store.Changes

/-!
# Containers that show the same

What instructions read of a container is determined by its buffer, by the part of the buffer that
it shows and by its lengths.  Containers of two stores that agree in these give the same results,
and the same errors, wherever they are read.
-/

namespace VectorMachine.Store
set_option autoImplicit false

/-- The cells `c` of `s` and `c'` of `s'` show the same. -/
structure Alike (s : Store) (c : CellId) (s' : Store) (c' : CellId) : Prop where
  buffer?_eq : s.buffer? c = s'.buffer? c'
  size_eq : s.size c = s'.size c'
  lengths_eq : s.lengths c = s'.lengths c'
  offset_eq : s.offset c = s'.offset c'

variable {s s' : Store} {a a' b b' c c' : CellId} {t : DataType}

/-- The elements that a cell shows have its type and are as many as its lengths say. -/
theorem window_ok (hs : s.Sound) {xs : Lanes} (h : s.window c = .ok xs) :
    s.type c = xs.type ∧ xs.size = (elementCount (s.lengths c)).toNat := by
  unfold window at h
  cases hb : s.buffer? c with
  | none => simp [hb] at h
  | some data =>
    simp only [hb] at h
    split at h
    · cases h
    · rename_i hfit
      cases h
      have hroot : s.size c = elementCount (s.lengths c) := by
        unfold buffer? lanes? at hb
        obtain ⟨i, hi, hdata⟩ := Option.bind_eq_some_iff.mp hb
        exact (hs.shows_buffer hi hdata).size_eq
      refine ⟨by simp [type, hb], ?_⟩
      rw [Lanes.size_extract (by omega)]
      exact congrArg Int.toNat hroot

theorem Alike.symm (h : s.Alike c s' c') : s'.Alike c' s c :=
  ⟨h.buffer?_eq.symm, h.size_eq.symm, h.lengths_eq.symm, h.offset_eq.symm⟩

/-- Stores that differ at some cells only, none of which is linked, show the same at all cells that
are not linked to these. -/
theorem Sound.alike_of_cells_eq {D : CellId → Prop} (hs : s.Sound)
    (hcells : ∀ d < s.cells.size, ¬ D d → s'.cell d = s.cell d)
    (hbuffers : ∀ b < s.buffers.size, s'.buffers[b]? = s.buffers[b]?)
    (hD : ∀ d, D d → (s.cell d).target = none) (hc : c < s.cells.size) (hr : ¬ D (s.root c)) :
    s.Alike c s' c := by
  have hleads : ∀ {d r}, s.Leads d r → ¬ D r → d < s.cells.size →
      s'.Leads d r ∧ r < s.cells.size := by
    intro d r h
    induction h with
    | here hd => exact fun hr hlt => ⟨.here ((hcells _ hlt hr).symm ▸ hd), hlt⟩
    | @next d e r hd _ ih =>
      intro hr hlt
      have hnot : ¬ D d := fun h => by simp [hD d h] at hd
      obtain ⟨hle, hlt'⟩ := ih hr (hs.target_lt hd)
      exact ⟨.next ((hcells _ hlt hnot).symm ▸ hd) hle, hlt'⟩
  obtain ⟨hl, hlt⟩ := hleads (hs.grounded.leads_root c) hr hc
  have hroot : s'.rootCell c = s.rootCell c := by
    rw [rootCell, hl.root_eq, hcells _ hlt hr, rootCell]
  refine ⟨?_, by rw [size, size, hroot], by rw [lengths, lengths, hroot],
    by rw [offset, offset, hroot]⟩
  rw [buffer?, buffer?, hroot, lanes?, lanes?]
  cases hb : (s.rootCell c).buffer with
  | none => rfl
  | some b => exact (hbuffers b (hs.buffer_lt hb)).symm

namespace Alike

theorem type_eq (h : s.Alike c s' c') : s.type c = s'.type c' := by
  simp only [type, h.buffer?_eq]

theorem bufferSize_eq (h : s.Alike c s' c') : s.bufferSize c = s'.bufferSize c' := by
  simp only [bufferSize, h.buffer?_eq]

theorem isVoid_eq (h : s.Alike c s' c') : s.isVoid c = s'.isVoid c' := by
  simp only [isVoid, h.type_eq]

theorem rank_eq (h : s.Alike c s' c') : s.rank c = s'.rank c' := by
  simp only [rank, h.lengths_eq]

theorem isScalar_eq (h : s.Alike c s' c') : s.isScalar c = s'.isScalar c' := by
  simp only [isScalar, h.isVoid_eq, h.rank_eq]

theorem shape_eq (h : s.Alike c s' c') : s.shape c = s'.shape c' := by
  simp only [shape, h.type_eq, h.lengths_eq]

theorem elements_eq (h : s.Alike c s' c') : s.elements c = s'.elements c' := by
  simp only [elements, h.buffer?_eq, h.offset_eq, h.size_eq]

theorem window_eq (h : s.Alike c s' c') : s.window c = s'.window c' := by
  have hsize : (s.rootCell c).size = (s'.rootCell c').size := h.size_eq
  have hoff : (s.rootCell c).offset = (s'.rootCell c').offset := h.offset_eq
  simp only [window, h.buffer?_eq, hsize, hoff]

theorem lanes_eq (h : s.Alike c s' c') : s.lanes c = s'.lanes c' := by
  simp only [lanes, h.window_eq]

theorem scalarAs_eq (h : s.Alike c s' c') (operation : String) :
    s.scalarAs operation c t = s'.scalarAs operation c' t := by
  simp only [scalarAs, h.type_eq, h.buffer?_eq, h.offset_eq, h.bufferSize_eq]

theorem int_eq (h : s.Alike c s' c') : s.int c = s'.int c' := by
  simp only [int, scalar, h.scalarAs_eq]

theorem string_eq (h : s.Alike c s' c') : s.string c = s'.string c' := by
  simp only [string, scalar, h.scalarAs_eq]

theorem isAllocated_eq (h : s.Alike c s' c') (lengths : List Int) :
    s.isAllocated c t lengths = s'.isAllocated c' t lengths := by
  simp only [isAllocated, h.type_eq, h.offset_eq, h.lengths_eq, h.bufferSize_eq, h.size_eq]

/-! ### Elements -/

theorem readInts_eq (h : s.Alike c s' c') : s.readInts c = s'.readInts c' := by
  simp only [readInts, h.type_eq, h.shape_eq, h.lanes_eq]

theorem readFloats_eq (h : s.Alike c s' c') : s.readFloats c = s'.readFloats c' := by
  simp only [readFloats, h.type_eq, h.shape_eq, h.lanes_eq]

theorem readBools_eq (h : s.Alike c s' c') : s.readBools c = s'.readBools c' := by
  simp only [readBools, h.type_eq, h.shape_eq, h.lanes_eq]

theorem readStrings_eq (h : s.Alike c s' c') : s.readStrings c = s'.readStrings c' := by
  simp only [readStrings, h.isVoid_eq, h.shape_eq, h.lanes_eq]

theorem readAs_eq (h : s.Alike c s' c') : s.readAs t c = s'.readAs t c' := by
  simp only [readAs, h.readInts_eq, h.readFloats_eq, h.readBools_eq, h.readStrings_eq]

theorem castLanes_eq (h : s.Alike c s' c') : s.castLanes t c = s'.castLanes t c' := by
  simp only [castLanes, h.lanes_eq, h.readStrings_eq]

theorem readLength_eq (h : s.Alike c s' c') : s.readLength c = s'.readLength c' := by
  simp only [readLength, h.type_eq, h.size_eq, h.shape_eq, h.int_eq]

theorem branches_eq (h : s.Alike c s' c') (on : Bool) : s.branches on c = s'.branches on c' := by
  simp only [branches, h.readBools_eq]

/-! ### Results -/

theorem broadcastLengths_eq (ha : s.Alike a s' a') (hb : s.Alike b s' b') :
    s.broadcastLengths a b = s'.broadcastLengths a' b' := by
  simp only [broadcastLengths, ha.rank_eq, hb.rank_eq, ha.lengths_eq, hb.lengths_eq, ha.shape_eq,
    hb.shape_eq]

theorem arithmeticResult_eq (ha : s.Alike a s' a') (hb : s.Alike b s' b') (op : Arithmetic) :
    s.arithmeticResult op t a b = s'.arithmeticResult op t a' b' := by
  simp only [arithmeticResult, ha.broadcastLengths_eq hb, ha.readInts_eq, hb.readInts_eq,
    ha.readFloats_eq, hb.readFloats_eq, ha.readStrings_eq, hb.readStrings_eq]

theorem compareResult_eq (ha : s.Alike a s' a') (hb : s.Alike b s' b') (op : Comparison) :
    s.compareResult op t a b = s'.compareResult op t a' b' := by
  simp only [compareResult, ha.broadcastLengths_eq hb, ha.readInts_eq, hb.readInts_eq,
    ha.readFloats_eq, hb.readFloats_eq, ha.readStrings_eq, hb.readStrings_eq, ha.readBools_eq,
    hb.readBools_eq]

theorem connectResult_eq (ha : s.Alike a s' a') (hb : s.Alike b s' b') (op : Connective) :
    s.connectResult op t a b = s'.connectResult op t a' b' := by
  simp only [connectResult, ha.broadcastLengths_eq hb, ha.readBools_eq, hb.readBools_eq,
    ha.lengths_eq]

theorem negateResult_eq (h : s.Alike a s' a') : s.negateResult t a = s'.negateResult t a' := by
  simp only [negateResult, h.lengths_eq, h.readInts_eq, h.readFloats_eq]

theorem complementResult_eq (h : s.Alike a s' a') :
    s.complementResult t a = s'.complementResult t a' := by
  simp only [complementResult, h.lengths_eq, h.readBools_eq]

theorem moveResult_eq (h : s.Alike a s' a') (intoScalar : Bool) :
    s.moveResult t intoScalar a = s'.moveResult t intoScalar a' := by
  simp only [moveResult, h.isVoid_eq, h.type_eq, h.size_eq, h.shape_eq, h.readAs_eq, h.lengths_eq]

theorem castResult_eq (h : s.Alike a s' a') (into : Shape) :
    s.castResult t into a = s'.castResult t into a' := by
  simp only [castResult, h.isVoid_eq, h.rank_eq, h.shape_eq, h.castLanes_eq, h.lengths_eq]

theorem fillResult_eq (h : s.Alike a s' a') (into : Shape) :
    s.fillResult t into a = s'.fillResult t into a' := by
  simp only [fillResult, h.size_eq, h.shape_eq, h.readAs_eq]

end Alike

/-- Cells of two stores that show the same, position by position. -/
abbrev AlikeAll (s s' : Store) (cs cs' : List CellId) : Prop :=
  List.Forall₂ (fun c c' => s.Alike c s' c') cs cs'

theorem readLengths_eq {cs cs' : List CellId} (h : AlikeAll s s' cs cs') :
    cs.mapM s.readLength = cs'.mapM s'.readLength := by
  induction h with
  | nil => rfl
  | cons hc _ ih => rw [List.mapM_cons, List.mapM_cons, hc.readLength_eq, ih]

theorem flatIndexFrom_eq {cs cs' : List CellId} (h : AlikeAll s s' cs cs') (flat : Int)
    (lengths : List Int) :
    s.flatIndexFrom flat lengths cs = s'.flatIndexFrom flat lengths cs' := by
  induction h generalizing flat lengths with
  | nil => cases lengths <;> rfl
  | cons hc _ ih =>
    cases lengths with
    | nil => rfl
    | cons n lengths =>
      simp only [flatIndexFrom, hc.type_eq, hc.size_eq, hc.shape_eq, hc.int_eq, ih]

theorem Alike.flatIndex_eq {cs cs' : List CellId} (h : s.Alike a s' a')
    (hcs : AlikeAll s s' cs cs') : s.flatIndex a cs = s'.flatIndex a' cs' := by
  simp only [flatIndex, hcs.length_eq, h.rank_eq, h.shape_eq, h.lengths_eq, flatIndexFrom_eq hcs]

end VectorMachine.Store
