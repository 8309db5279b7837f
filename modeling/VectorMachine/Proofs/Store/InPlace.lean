import VectorMachine.Proofs.Store.Delivery

/-!
# Computing in place

A result can be stored lane by lane where its destination shows it, each lane computed from what the
sources show by then.  If no two containers show parts of one buffer that overlap without being the
same, this stores what is computed of the sources as they were before, however destination and
sources share their data.
-/

namespace VectorMachine
set_option autoImplicit false

namespace Lanes

variable {xs ys : Lanes} {lo k : Nat}

theorem overwrite_extract_succ {v : Scalar} (hv : ys.get? k = some v) :
    overwrite (lo + k) (overwrite lo xs (ys.extract 0 k)) (ofScalar v) =
      overwrite lo xs (ys.extract 0 (k + 1)) := by
  have harray : ∀ {α : Type} (xs ys : Array α) (y : α), ys[k]? = some y →
      overwriteArray (overwriteArray xs lo (ys.extract 0 (0 + k))) (lo + k) #[y] =
        overwriteArray xs lo (ys.extract 0 (0 + (k + 1))) := by
    intro α xs ys y hy
    obtain ⟨hlt, hy⟩ := Array.getElem?_eq_some_iff.mp hy
    apply Array.ext
    · simp
    · intro i hi _
      simp only [size_overwriteArray] at hi
      simp only [overwriteArray, Array.getElem_mapIdx, Array.getElem?_extract]
      obtain hi | hi | hi | hi : i < lo ∨ lo ≤ i ∧ i < lo + k ∨ i = lo + k ∨ lo + k < i := by omega
      · have h₁ : ¬ lo ≤ i := by omega
        have h₂ : ¬ lo + k ≤ i := by omega
        simp [h₁, h₂]
      · have h₁ : ¬ lo + k ≤ i := by omega
        have h₂ : i - lo < min k ys.size := by omega
        have h₃ : i - lo < min (k + 1) ys.size := by omega
        simp [hi.1, h₁, h₂, h₃]
      · subst hi
        simp [hy, hlt]
      · have h₁ : lo + k ≤ i := by omega
        have h₂ : lo ≤ i := by omega
        have h₃ : i - (lo + k) ≠ 0 := by omega
        have h₄ : ¬ i - lo < min k ys.size := by omega
        have h₅ : ¬ i - lo < min (k + 1) ys.size := by omega
        simp [h₁, h₂, h₃, h₄, h₅]
  cases ys <;> simp only [get?, Option.map_eq_some_iff] at hv <;> obtain ⟨y, hy, rfl⟩ := hv <;>
    cases xs <;> first | rfl | exact congrArg _ (harray _ _ y hy)

theorem get?_extract {i n : Nat} (hi : i < n) : (xs.extract lo n).get? i = xs.get? (lo + i) := by
  have harray : ∀ {α : Type} (xs : Array α), (xs.extract lo (lo + n))[i]? = xs[lo + i]? := by
    intro α xs
    rw [Array.getElem?_extract]
    split
    · rfl
    · rw [Array.getElem?_eq_none (by omega)]
  cases xs <;> simp only [extract, get?, harray]

theorem overwrite_extract_zero : overwrite lo xs (ys.extract 0 0) = xs := by
  have harray : ∀ {α : Type} (xs ys : Array α), overwriteArray xs lo (ys.extract 0 (0 + 0)) = xs := by
    intro α xs ys
    apply Array.ext
    · simp
    · intro i hi _
      simp [overwriteArray]
  cases xs <;> cases ys <;> first | rfl | exact congrArg _ (harray _ _)

theorem extract_size : xs.extract 0 xs.size = xs := by
  cases xs <;> simp [extract, size]

end Lanes

theorem Scalar.as?_type (v : Scalar) : v.as? v.type = some v := by
  cases v <;> rfl

namespace Store

variable {s t u : Store} {a b c d : CellId} {cs : List CellId} {op : Lanewise} {ty : DataType}
  {lengths : List Int} {data : Lanes}

/-! ### Parts that overlap -/

/-- Two cells show equally many elements of one buffer, and some of these but not all are the same. -/
structure Staggers (x y : Cell) : Prop where
  buffer : ∃ i, x.buffer = some i ∧ y.buffer = some i
  size_eq : x.size = y.size
  offset_lt : x.offset < y.offset
  overlaps : (y.offset : Int) < x.offset + x.size

/-- No two cells show parts of one buffer that overlap without being the same. -/
def Aligned (s : Store) : Prop := ∀ c d, ¬ Staggers (s.cell c) (s.cell d)

theorem aligned_empty : ({} : Store).Aligned := by
  intro c d h
  obtain ⟨i, hi, -⟩ := h.buffer
  simp [cell] at hi

/-- A single element overlaps with nothing but itself. -/
theorem not_staggers_of_size {x y : Cell} (h : x.size ≤ 1) : ¬ Staggers x y := by
  intro hxy
  have hlt := hxy.offset_lt
  have hover := hxy.overlaps
  omega

theorem Aligned.of_same (h : s.Aligned) (hx : ∀ c, (t.cell c).buffer = none ∨
    (t.cell c).size ≤ 1 ∨ ((t.cell c).buffer = (s.cell c).buffer ∧
      (t.cell c).size = (s.cell c).size ∧ (t.cell c).offset = (s.cell c).offset)) :
    t.Aligned := by
  intro c d hcd
  have hsize := hcd.size_eq
  obtain ⟨i, hc, hd⟩ := hcd.buffer
  rcases hx c with hnone | hone | ⟨hbc, hsc, hoc⟩
  · rw [hnone] at hc
    cases hc
  · exact not_staggers_of_size hone hcd
  · rcases hx d with hnone | hone | ⟨hbd, hsd, hod⟩
    · rw [hnone] at hd
      cases hd
    · exact not_staggers_of_size (hsize ▸ hone) hcd
    · refine h c d ⟨⟨i, hbc ▸ hc, hbd ▸ hd⟩, by omega, ?_, ?_⟩
      · have hlt := hcd.offset_lt
        omega
      · have hover := hcd.overlaps
        omega

theorem Aligned.renew (h : s.Aligned) (hs : s.Sound) (data : Lanes) :
    (s.renew c data lengths).Aligned := by
  intro a b hab
  simp only [Store.renew, present_eq, cell_setCell, root_pushBuffer, cell_pushBuffer] at hab
  split at hab <;> split at hab
  · rename_i ha hb
    have hlt := hab.offset_lt
    simp only [presented] at hlt
    omega
  · obtain ⟨i, hi, hb⟩ := hab.buffer
    cases hi
    exact Nat.lt_irrefl _ (hs.buffer_lt hb)
  · obtain ⟨i, ha, hi⟩ := hab.buffer
    cases hi
    exact Nat.lt_irrefl _ (hs.buffer_lt ha)
  · exact h a b hab

/-- Whatever keeps a store well formed and leaves no parts of buffers that stagger. -/
def aligning : Grant :=
  { forming with hosts := fun s t => forming.hosts s t ∧ (s.Formed → s.Aligned → t.Aligned) }

theorem Edit.of_aligning (he : Edit aligning s t) : Edit forming s t := by
  cases he with
  | fresh => exact .fresh
  | renew hc hn hfit => exact .renew hc hn hfit
  | clear hc hn => exact .clear hc hn
  | write hc => exact .write hc
  | free hc => exact .free hc
  | link hl => exact .link hl
  | view hv hb hfit => exact .view hv hb hfit
  | host ht => exact .host ht.1

theorem Edit.aligned (he : Edit aligning s t) (hs : s.Formed) (h : s.Aligned) : t.Aligned := by
  cases he with
  | fresh => exact h.of_same fun c => .inr (.inr (by simp))
  | renew _ _ _ => exact h.renew hs.sound _
  | clear _ _ =>
    refine h.of_same fun c => ?_
    rw [present_eq, cell_setCell]
    split
    · exact .inl rfl
    · exact .inr (.inr ⟨rfl, rfl, rfl⟩)
  | write _ => exact h.of_same fun c => .inr (.inr (by simp))
  | free _ =>
    refine h.of_same fun c => ?_
    rw [Store.free, cell_setCell]
    split
    · exact .inl rfl
    · exact .inr (.inr ⟨rfl, rfl, rfl⟩)
  | link _ =>
    unfold Store.link
    dsimp only
    split
    · exact h
    · refine h.of_same fun c => .inr (.inr ?_)
      rw [cell_setCell]
      split <;> exact ⟨rfl, rfl, rfl⟩
  | view _ _ _ =>
    refine h.of_same fun c => ?_
    rw [present_eq, cell_setCell]
    split
    · exact .inr (.inl (by simp [presented, elementCount_nil]))
    · exact .inr (.inr ⟨rfl, rfl, rfl⟩)
  | host ht => exact ht.2 hs h

theorem Aligned.unlinkAll (h : s.Aligned) (cs : List CellId) :
    (cs.foldl Store.unlink s).Aligned := by
  induction cs generalizing s with
  | nil => exact h
  | cons c cs ih =>
    refine ih (h.of_same fun d => .inr (.inr ?_))
    rw [Store.unlink, cell_setCell]
    split <;> exact ⟨rfl, rfl, rfl⟩

/-! ### Lane after lane -/

/-- The elements of a source while a result is stored: still in their buffer, or converted. -/
inductive Feed where
  | live (b : BufferId) (offset size : Nat)
  | copied (data : Lanes)

def Feed.size : Feed → Nat
  | .live _ _ n => n
  | .copied data => data.size

def Feed.get? (x : Feed) (s : Store) (i : Nat) : Option Scalar :=
  match x with
  | .live b offset _ => s.element? b (offset + i)
  | .copied data => data.get? i

/-- Elements of the type that is asked for are not copied. -/
def feed (s : Store) (ty : DataType) (c : CellId) : Except Failure Feed :=
  match (s.rootCell c).buffer with
  | some b =>
    if s.type c = ty then .ok (.live b (s.offset c) (s.size c).toNat)
    else (s.readAs ty c).map .copied
  | none => (s.readAs ty c).map .copied

/-- What a source gives to a lane: its element there as it is now, or the first one, read before all
lanes, if it has not as many elements as the result. -/
def Feed.give? (u now : Store) (n i : Nat) (x : Feed) : Option Scalar :=
  if x.size = n then x.get? now i else x.get? u 0

/-- Stores one of the elements that a container shows. -/
def put (s : Store) (d : CellId) (i : Nat) (v : Scalar) : Store :=
  match (s.rootCell d).buffer with
  | none => s
  | some b =>
    { s with buffers :=
        s.buffers.modify b (Lanes.overwrite (s.offset d + i) · (Lanes.ofScalar v)) }

/-- Computes a lane by `f` from what the sources give now and stores it. -/
def storeLane (u : Store) (f : List Scalar → Option Scalar) (d : CellId) (n : Nat)
    (fs : List Feed) (now : Store) (i : Nat) : Store :=
  match (fs.mapM (Feed.give? u now n i)).bind f with
  | some v => now.put d i v
  | none => now

/-- Computes a lane from what the sources give now and stores it. -/
def putLane (u : Store) (op : Lanewise) (d : CellId) (n : Nat) (fs : List Feed) (now : Store)
    (i : Nat) : Store :=
  match (fs.mapM (Feed.give? u now n i)).bind op.on? with
  | some v => now.put d i v
  | none => now

/-- Shapes the destination and then stores its lanes one after another. -/
def lanewiseInPlace (s : Store) (op : Lanewise) (ty : DataType) (d : CellId) (cs : List CellId) :
    Except Failure Store := do
  let fs ← cs.mapM (s.feed ty)
  let u ← s.prepare d (op.resultType ty) (s.arrayLengths cs)
  let n := (u.size d).toNat
  .ok ((List.range n).foldl (u.putLane op d n fs) u)

/-- The feed of a container gives what is read of it. -/
structure Feeds (s : Store) (ty : DataType) (c : CellId) (x : Feed) : Prop where
  size_eq : x.size = (elementCount (s.lengths c)).toNat
  get?_eq : ∀ i < x.size, x.get? s i = (s.shown? c i).bind (Scalar.as? ty)
  live : ∀ {b o n}, x = .live b o n → (s.rootCell c).buffer = some b ∧ o = s.offset c ∧
    (n : Int) = s.size c

theorem Formed.decides_readAs (hs : s.Formed) :
    Decides ((s.type c).readsAs ty = false) (fun data => s.Counted c data.size ∧
      ∀ i, (s.shown? c i).bind (Scalar.as? ty) = data.get? i) (s.readAs ty c) := by
  cases ty with
  | int => exact decides_map hs.decides_readInts fun xs h => ⟨h.counted, h.lane⟩
  | float => exact decides_map hs.decides_readFloats fun xs h => ⟨h.counted, h.lane⟩
  | bool => exact decides_map hs.decides_readBools fun xs h => ⟨h.counted, h.lane⟩
  | string => exact decides_map hs.decides_readStrings fun xs h => ⟨h.counted, h.lane⟩
  | void | any =>
    apply decides_refuse
    simp [DataType.readsAs, DataType.isConcrete]

theorem Decides.exists_ok {α : Type} {R : Prop} {V : α → Prop} {x : Except Failure α}
    (hx : Decides R V x) (h : ¬ R) : ∃ a, x = .ok a ∧ V a := by
  rcases x with (_ | _) | a
  · exact absurd hx h
  · exact hx.elim
  · exact ⟨a, rfl, hx.2⟩

theorem Formed.exists_feed (hs : s.Formed) (h : (s.type c).readsAs ty = true) :
    ∃ x, s.feed ty c = .ok x ∧ s.Feeds ty c x := by
  have hcopied : ∃ x, (s.readAs ty c).map .copied = .ok x ∧ s.Feeds ty c x := by
    have hnot : ¬ (s.type c).readsAs ty = false := by simp [h]
    obtain ⟨data, hdata, hcount, hlane⟩ := hs.decides_readAs.exists_ok hnot
    refine ⟨.copied data, by rw [hdata]; rfl, hcount.eq_lengths, fun i _ => (hlane i).symm, ?_⟩
    intro b o n hlive
    cases hlive
  unfold feed
  cases hb : (s.rootCell c).buffer with
  | none => exact hcopied
  | some b =>
    by_cases hty : s.type c = ty
    · have hvoid : s.type c ≠ .void := by
        intro hv
        rw [hv] at h
        cases h
      obtain ⟨i, data, hi, hdata, hbuffer, htype⟩ := buffer_of_type hvoid
      obtain ⟨shown, hw, -, hcount⟩ := hs.exists_window hvoid
      rw [hb] at hi
      cases hi
      have hnonneg := (hs.sized _).nonneg hb
      have hshown : ∀ i < (s.size c).toNat, s.shown? c i = data.get? (s.offset c + i) := by
        intro i hi
        have hextract := hw
        simp only [window, hbuffer] at hextract
        split at hextract
        · cases hextract
        · cases hextract
          rw [shown?_of_window hw]
          exact Lanes.get?_extract hi
      simp only [hty, if_true]
      refine ⟨_, rfl, ?_, ?_, ?_⟩
      · exact hcount.eq_size.symm.trans hcount.eq_lengths
      · intro i hi
        rw [hshown i hi]
        simp only [Feed.get?, element?, hdata, Option.bind_some]
        cases hv : data.get? (s.offset c + i) with
        | none => rfl
        | some v =>
          rw [← hty, ← htype, ← Lanes.type_of_get? hv]
          exact (Scalar.as?_type v).symm
      · intro b' o n hlive
        cases hlive
        exact ⟨hb, rfl, Int.toNat_of_nonneg hnonneg⟩
    · simp only [hty, if_false]
      exact hcopied

/-- A source gives to a lane what it contributed to it before, as long as the elements that it is
read from are as before. -/
theorem Feeds.give?_eq {x : Feed} {now : Store} {n i : Nat} (hx : s.Feeds ty c x) (hs : s.Sound)
    (hn : n = (elementCount lengths).toNat) (hc : s.rank c = 0 ∨ lengths = s.lengths c) (hi : i < n)
    (hold : ∀ {b j}, b < s.buffers.size → u.element? b j = s.element? b j)
    (hnow : ∀ {b o}, x = .live b o n → now.element? b (o + i) = s.element? b (o + i)) :
    x.give? u now n i = s.contribution? ty i c := by
  have hone : s.rank c = 0 → x.size = 1 := by
    intro hr
    rw [hx.size_eq, List.eq_nil_of_length_eq_zero hr, elementCount_nil]
    rfl
  unfold Feed.give? contribution?
  by_cases hsize : x.size = n
  · rw [if_pos hsize]
    have hindex : (if s.rank c = 0 then 0 else i) = i := by
      split
      · rename_i hr
        have := hone hr
        omega
      · rfl
    rw [hindex, ← hx.get?_eq i (by omega)]
    cases x with
    | live b o m =>
      cases hsize
      exact hnow rfl
    | copied data => rfl
  · have hr : s.rank c = 0 := by
      rcases hc with hr | rfl
      · exact hr
      · exact absurd (hx.size_eq.trans hn.symm) hsize
    rw [if_neg hsize, if_pos hr, ← hx.get?_eq 0 (by have := hone hr; omega)]
    cases x with
    | live b o m =>
      obtain ⟨hb, -, -⟩ := hx.live rfl
      exact hold (hs.buffer_lt hb)
    | copied data => rfl

/-- The first lanes that are stored do not reach the element of a source that the next one needs. -/
theorem Shaped.element?_live {x : Feed} {n k o : Nat} {b : BufferId}
    (h : s.Shaped d data.type lengths u) (hs : s.Sound) (ha : s.Aligned) (hx : s.Feeds ty c x)
    (hlive : x = .live b o n) (hn : n = (elementCount lengths).toNat) (hk : k < n) :
    (u.write d (data.extract 0 k)).element? b (o + k) = s.element? b (o + k) := by
  obtain ⟨hb, rfl, hsize⟩ := hx.live hlive
  have hwritten : (data.extract 0 k).size ≤ k := by
    cases data <;> simp [Lanes.extract, Lanes.size]
  rcases h.place with rfl | ⟨hnew, hold⟩
  · refine element?_write ?_
    rintro ⟨hd, hle, hlt⟩
    have hcount := h.size_eq
    have hnonneg := h.nonneg
    simp only [size, offset] at hsize hcount hle hlt
    -- the source begins before the destination, so it would reach into it
    refine ha (u.root c) (u.root d) ⟨⟨b, hb, hd⟩, ?_, ?_, ?_⟩
    · exact hsize.symm.trans (by rw [hn]; exact (Int.toNat_of_nonneg hnonneg).trans hcount.symm)
    · simp only [rootCell] at hle hlt
      omega
    · simp only [rootCell] at hle hlt hsize
      omega
  · have hlt := hs.buffer_lt hb
    refine (element?_write ?_).trans (hold hlt)
    rintro ⟨hd, -⟩
    rw [hnew] at hd
    cases hd
    exact Nat.lt_irrefl _ hlt

theorem put_write {k : Nat} {v : Scalar} (hv : data.get? k = some v) :
    (u.write d (data.extract 0 k)).put d k v = u.write d (data.extract 0 (k + 1)) := by
  have hroot : (u.write d (data.extract 0 k)).rootCell d = u.rootCell d := by
    rw [rootCell, root_of_cells_eq (cells_write _), cell_write]
    rfl
  unfold put
  simp only [hroot, offset]
  unfold Store.write
  cases hb : (u.rootCell d).buffer with
  | none => rfl
  | some b =>
    simp only [offset]
    congr 1
    apply Array.ext_getElem?
    intro i
    simp only [Array.getElem?_modify]
    split
    · cases u.buffers[i]? with
      | none => rfl
      | some old => exact congrArg some (Lanes.overwrite_extract_succ hv)
    · rfl

theorem write_extract_zero : u.write d (data.extract 0 0) = u := by
  unfold Store.write
  split
  · rfl
  · rename_i b _
    have hsame : u.buffers.modify b (Lanes.overwrite (u.offset d) · (data.extract 0 0)) =
        u.buffers := by
      apply Array.ext_getElem?
      intro i
      rw [Array.getElem?_modify]
      split
      · cases u.buffers[i]? with
        | none => rfl
        | some old => exact congrArg some Lanes.overwrite_extract_zero
      · rfl
    rw [hsame]

theorem mapM_congr_of_forall₂ {α β γ : Type} {R : α → β → Prop} {f : α → Option γ}
    {g : β → Option γ} {xs : List α} {ys : List β} (h : List.Forall₂ R xs ys)
    (hfg : ∀ x y, x ∈ xs → R x y → f x = g y) : ys.mapM g = xs.mapM f := by
  induction h with
  | nil => rfl
  | cons hr _ ih =>
    rw [List.mapM_cons, List.mapM_cons, hfg _ _ (by simp) hr,
      ih fun x y hx => hfg x y (by simp [hx])]

theorem Formed.exists_feeds (hs : s.Formed) (h : ∀ c ∈ cs, (s.type c).readsAs ty = true) :
    ∃ fs, cs.mapM (s.feed ty) = .ok fs ∧ List.Forall₂ (s.Feeds ty) cs fs := by
  induction cs with
  | nil => exact ⟨[], rfl, .nil⟩
  | cons c cs ih =>
    obtain ⟨x, hx, hfeeds⟩ := hs.exists_feed (h c (by simp))
    obtain ⟨fs, hfs, hall⟩ := ih fun c' hc' => h c' (by simp [hc'])
    refine ⟨x :: fs, ?_, .cons hfeeds hall⟩
    rw [List.mapM_cons, hx, hfs]
    rfl

/-- If all arrays have the same lengths, each source is a scalar or has the lengths of the result. -/
theorem lengths_of_agree (h : ∀ a ∈ cs, ∀ b ∈ cs, s.rank a ≠ 0 → s.rank b ≠ 0 →
    s.lengths a = s.lengths b) (hc : c ∈ cs) :
    s.rank c = 0 ∨ s.arrayLengths cs = s.lengths c := by
  rw [or_iff_not_imp_left]
  intro hr
  have hne : s.lengths c ≠ [] := by
    intro hnil
    exact hr (by rw [rank, hnil]; rfl)
  unfold arrayLengths
  cases hf : (cs.map s.lengths).find? (· ≠ []) with
  | none =>
    rw [List.find?_eq_none] at hf
    exact absurd hne (by simpa using hf _ (List.mem_map_of_mem hc))
  | some ls =>
    obtain ⟨a, ha, rfl⟩ := List.mem_map.mp (List.mem_of_find?_eq_some hf)
    have hra : s.rank a ≠ 0 := by
      intro hra
      have hsome := List.find?_some hf
      rw [List.eq_nil_of_length_eq_zero hra] at hsome
      simp at hsome
    exact h a ha c hc hra hr

/-- The sources of a result are scalars or arrays of its lengths. -/
theorem lengths_of_not_refuses (h : ¬ s.Refuses op ty cs) (hc : c ∈ cs) :
    s.rank c = 0 ∨ s.arrayLengths cs = s.lengths c :=
  lengths_of_agree (fun _ ha _ hb hra hrb =>
    not_not.mp fun hdiffer => h (.lengths ha hb hra hrb hdiffer)) hc

/-- After some lanes, exactly these are stored. -/
theorem Shaped.storeLanes {f : List Scalar → Option Scalar} {fs : List Feed} {n k : Nat}
    (h : s.Shaped d data.type lengths u) (hs : s.Formed) (ha : s.Aligned)
    (hcs : ∀ c ∈ cs, s.rank c = 0 ∨ lengths = s.lengths c)
    (hlane : ∀ i < n, ∃ xs v, cs.mapM (s.contribution? ty i) = some xs ∧ f xs = some v ∧
      data.get? i = some v)
    (hfs : List.Forall₂ (s.Feeds ty) cs fs) (hn : n = (elementCount lengths).toNat) (hk : k ≤ n) :
    (List.range k).foldl (u.storeLane f d n fs) u = u.write d (data.extract 0 k) := by
  induction k with
  | zero => exact write_extract_zero.symm
  | succ k ih =>
    have hkn : k < n := by omega
    rw [List.range_succ, List.foldl_append, ih (by omega), List.foldl_cons, List.foldl_nil]
    obtain ⟨xs, v, hxs, hf, hv⟩ := hlane k hkn
    have hgive : fs.mapM (Feed.give? u (u.write d (data.extract 0 k)) n k) = some xs := by
      rw [← hxs]
      refine mapM_congr_of_forall₂ hfs fun c x hc hx => ?_
      symm
      refine hx.give?_eq hs.sound hn (hcs c hc) hkn (fun {b j} hb => ?_) fun {b o} hlive => ?_
      · rcases h.place with rfl | ⟨-, hold⟩
        · rfl
        · exact hold hb
      · exact h.element?_live hs.sound ha hx hlive hn hkn
    unfold storeLane
    rw [hgive, Option.bind_some, hf]
    exact put_write hv

/-- After some lanes of an elementwise instruction, exactly these are stored. -/
theorem Shaped.putLanes {fs : List Feed} {n k : Nat} (h : s.Shaped d data.type lengths u)
    (hs : s.Formed) (ha : s.Aligned) (hno : ¬ s.Refuses op ty cs)
    (hr : s.Computes op ty cs (lengths, data)) (hfs : List.Forall₂ (s.Feeds ty) cs fs)
    (hn : n = (elementCount lengths).toNat) (hk : k ≤ n) :
    (List.range k).foldl (u.putLane op d n fs) u = u.write d (data.extract 0 k) := by
  have hlengths : lengths = s.arrayLengths cs := hr.lengths_eq
  have hsize : data.size = n := hr.size_eq.trans hn.symm
  refine h.storeLanes hs ha (fun c hc => ?_) (fun i hi => hr.lane i (hsize ▸ hi)) hfs hn hk
  rw [hlengths]
  exact lengths_of_not_refuses hno hc

/-- Storing the lanes one after another, each computed from what the sources show by then, gives what
is computed of the sources as they were before. -/
theorem Formed.lanewiseInPlace_eq (hs : s.Formed) (ha : s.Aligned) (hd : d < s.cells.size)
    (hcs : cs.length = op.sources) (hno : ¬ s.Refuses op ty cs) :
    s.lanewiseInPlace op ty d cs = s.receive d (s.lanewise op ty cs) := by
  obtain ⟨⟨lengths, data⟩, hr, hcomputes⟩ := (hs.decides_lanewise ty hcs).exists_ok hno
  have hlengths : lengths = s.arrayLengths cs := hcomputes.lengths_eq
  have htype : data.type = op.resultType ty := hcomputes.type_eq
  have hreads : ∀ c ∈ cs, (s.type c).readsAs ty = true := by
    intro c hc
    by_contra hnot
    exact hno (.unreadable hc (by simpa using hnot))
  obtain ⟨fs, hfs, hfeeds⟩ := hs.exists_feeds hreads
  unfold lanewiseInPlace receive deliver
  rw [hr, hfs, ok_bind, ok_bind, ← htype, ← hlengths]
  rcases hs.prepare_cases lengths hd data.isConcrete_type with
    ⟨-, u, hu, hshaped⟩ | ⟨-, e, he, -⟩
  · have hn : (u.size d).toNat = (elementCount lengths).toNat := by rw [hshaped.size_eq]
    have hall : (u.size d).toNat = data.size := hn.trans hcomputes.size_eq.symm
    simp only [hu, ok_bind]
    rw [hshaped.putLanes hs ha hno hcomputes hfeeds hn (Nat.le_refl _), hall, Lanes.extract_size]
  · simp only [he, error_bind]

end Store

end VectorMachine
