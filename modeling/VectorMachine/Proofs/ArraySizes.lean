import VectorMachine.Proofs.Elementwise
import VectorMachine.Proofs.Machine.Refusals
import VectorMachine.Proofs.Store.RowMajor

/-!
# Sizes of allocated arrays

An allocation that succeeds makes an array with the lengths that were asked for.  Its size, and the
size of its buffer, is the product of these lengths in 64 bit arithmetic; so it is the product itself
if that fits 64 bits.  Whether it succeeds depends on that size too, and one that fails changes
nothing.
-/

namespace VectorMachine
set_option autoImplicit false

namespace Store

variable {s t : Store} {c d like : CellId} {cs : List CellId} {ty : DataType} {lengths : List Int}

def length? (s : Store) (c : CellId) : Option Int := (s.subscript? c).filter (0 ≤ ·)

/-- The array that an allocation with the lengths of another container asks for. -/
def likeness? (s : Store) (ty : DataType) (like : CellId) : Option (DataType × List Int) :=
  let ty := if ty.isConcrete then ty else s.type like
  if ty.isConcrete then some (ty, s.lengths like) else none

/-- An array of a type and lengths is there already, or no length is negative and that many elements
can be allocated. -/
def Allocates (s : Store) (d : CellId) (ty : DataType) (lengths : List Int) : Prop :=
  s.isAllocated d ty lengths = true ∨
    (∀ n ∈ lengths, 0 ≤ n) ∧ isAllocatable ty (elementCount lengths) = true

/-- A container is an array in a buffer of its own size. -/
structure IsArray (s : Store) (d : CellId) (ty : DataType) (lengths : List Int) : Prop where
  type_eq : s.type d = ty
  lengths_eq : s.lengths d = lengths
  size_eq : s.size d = wrap (elementTotal lengths)
  bufferSize_eq : (s.bufferSize d : Int) = s.size d

theorem IsArray.size_eq_total (h : s.IsArray d ty lengths) (hn : ∀ n ∈ lengths, 0 ≤ n)
    (hfits : elementTotal lengths < 2 ^ 63) : s.size d = elementTotal lengths := by
  rw [h.size_eq, wrap_of_lt (elementTotal_nonneg hn) hfits]

theorem Formed.isArray_of_isAllocated (hs : s.Formed) (hty : ty.isConcrete = true)
    (h : s.isAllocated d ty lengths = true) : s.IsArray d ty lengths := by
  simp only [isAllocated, Bool.and_eq_true, beq_iff_eq] at h
  obtain ⟨⟨⟨htype, -⟩, hlengths⟩, hbuffer⟩ := h
  have hvoid : s.type d ≠ .void := by
    intro hv
    rw [← htype, hv] at hty
    cases hty
  refine ⟨htype, hlengths, ?_, hbuffer⟩
  rw [hs.sound.size_eq hvoid, hlengths]
  rfl

/-- A new buffer for an array has the size of the array. -/
theorem Formed.isArray_renew (hs : s.Formed) (hd : d < s.cells.size) {data : Lanes}
    (hn : 0 ≤ elementCount lengths) (hdata : data.size = (elementCount lengths).toNat) :
    (s.renew d data lengths).IsArray d data.type lengths := by
  have hshaped := shaped_renew hs.sound hd hn hdata
  refine ⟨hshaped.type_eq, hshaped.lengths_eq, hshaped.size_eq, ?_⟩
  rw [hshaped.size_eq, bufferSize, buffer?_renew hs.sound hd, Option.elim_some, hdata]
  omega

/-- An allocation makes an array, or is impossible. -/
theorem Formed.alloc_outcome (hs : s.Formed) (hd : d < s.cells.size) (hty : ty.isConcrete = true)
    (lengths : List Int) :
    (s.Allocates d ty lengths ∧ ∃ t, s.alloc d ty lengths = .ok t ∧ t.IsArray d ty lengths) ∨
    (¬ s.Allocates d ty lengths ∧ ∃ e, s.alloc d ty lengths = .error e ∧ Unallocatable e) := by
  by_cases hthere : s.isAllocated d ty lengths = true
  · exact .inl ⟨.inl hthere, s, by rw [alloc, if_pos hthere], hs.isArray_of_isAllocated hty hthere⟩
  · rcases alloc_cases hty (Bool.eq_false_iff.mpr hthere) with
      ⟨hn, hfits, data, rfl, hsize, hcount, h⟩ | ⟨hno, e, he⟩
    · exact .inl ⟨.inr ⟨hn, hfits⟩, _, h, hs.isArray_renew hd hcount hsize⟩
    · exact .inr ⟨fun h => h.elim hthere hno, e, he, alloc_error hty he⟩

/-! ### Requests -/

theorem Formed.readLength_cases (hs : s.Formed) (c : CellId) :
    (∃ n, s.length? c = some n ∧ s.readLength c = .ok n) ∨
    (s.length? c = none ∧ ∃ cause, s.readLength c = .error (.data cause)) := by
  unfold length? readLength
  by_cases hshape : s.type c = .int ∧ s.size c = 1
  · obtain ⟨v, hv, hsub⟩ := hs.exists_subscript hshape.1 hshape.2
    rw [if_neg (by simp [hshape]), hv, hsub]
    by_cases hneg : v.toInt < 0
    · exact .inr ⟨by simp [Option.filter, hneg], .negativeLength v.toInt,
        by simp [Except.mapError, hneg, refuse]⟩
    · exact .inl ⟨v.toInt, by simp [Option.filter]; omega, by simp [Except.mapError, hneg]⟩
  · rw [if_pos (by rwa [← Classical.not_and_iff_not_or_not]), subscript?_eq_none hshape]
    exact .inr ⟨rfl, _, rfl⟩

theorem Formed.readLengths_cases (hs : s.Formed) (cs : List CellId) :
    (∃ ns, cs.mapM s.length? = some ns ∧ cs.mapM s.readLength = .ok ns) ∨
    (cs.mapM s.length? = none ∧ ∃ cause, cs.mapM s.readLength = .error (.data cause)) := by
  induction cs with
  | nil => exact .inl ⟨[], rfl, rfl⟩
  | cons c cs ih =>
    simp only [List.mapM_cons]
    rcases hs.readLength_cases c with ⟨n, hn, h⟩ | ⟨hn, cause, h⟩
    · rw [hn, h]
      rcases ih with ⟨ns, hns, h⟩ | ⟨hns, cause, h⟩
      · exact .inl ⟨n :: ns, by simp [hns], by simp [h, pure, Except.pure]⟩
      · exact .inr ⟨by simp [hns], cause, by simp [h]⟩
    · exact .inr ⟨by simp [hn], cause, by rw [h]; rfl⟩

/-- The outcome of an allocation that was asked for, or of one that was not. -/
def Fulfils (s : Store) (d : CellId) : Option (DataType × List Int) → Except Failure Store → Prop
  | some (ty, lengths), r => ty.isConcrete = true ∧ r = (s.alloc d ty lengths).mapError .abort
  | none, r => ∃ e, r = .error e

theorem Formed.fulfils_allocate (hs : s.Formed) :
    s.Fulfils d (if ty.isConcrete then (cs.mapM s.length?).map (ty, ·) else none)
      (s.allocate ty d cs) := by
  unfold allocate
  by_cases hty : ty.isConcrete = true
  · rw [if_pos hty, if_neg (by simp [hty])]
    rcases hs.readLengths_cases cs with ⟨ns, hns, h⟩ | ⟨hns, cause, h⟩
    · rw [hns, h]
      exact ⟨hty, rfl⟩
    · rw [hns, h]
      exact ⟨_, rfl⟩
  · rw [if_neg hty, if_pos (by simp [hty])]
    exact ⟨_, rfl⟩

theorem fulfils_allocateLike : s.Fulfils d (s.likeness? ty like) (s.allocateLike ty d like) := by
  unfold likeness? allocateLike
  simp only
  generalize (if ty.isConcrete = true then ty else s.type like) = ty
  by_cases hty : ty.isConcrete = true
  · rw [if_pos hty, if_neg (by simp [hty])]
    exact ⟨hty, rfl⟩
  · rw [if_neg hty, if_pos (by simp [hty])]
    exact ⟨_, rfl⟩

section

variable (h : ∀ c, s.Alike c t c)
include h

theorem length?_congr : s.length? = t.length? :=
  funext fun c => by rw [length?, (h c).subscript?_eq, length?]

theorem likeness?_congr (ty : DataType) : s.likeness? ty = t.likeness? ty :=
  funext fun c => by simp only [likeness?, (h c).type_eq, (h c).lengths_eq]

theorem allocates_congr : s.Allocates d ty lengths ↔ t.Allocates d ty lengths := by
  simp only [Allocates, isAllocated, (h d).type_eq, (h d).offset_eq, (h d).lengths_eq,
    (h d).bufferSize_eq, (h d).size_eq]

end

end Store

namespace Machine

variable {m n : Machine} {z : Instruction} {d : CellId} {cs : List CellId}

/-- The array that an allocation asks for, if its operands, or the top of the stack, say so. -/
def requested? (m : Machine) (z : Instruction) (cs : List CellId) : Option (DataType × List Int) :=
  match z.opcode, cs with
  | .alloc, lengths =>
    if z.type.isConcrete then (lengths.mapM m.store.length?).map (z.type, ·) else none
  | .allocLike, like :: _ => m.store.likeness? z.type like
  | .allocTop, _ => m.memory.stack.back?.bind (m.store.likeness? z.type)
  | _, _ => none

/-- A step at an allocation makes what is asked for, and changes nothing else. -/
theorem step_allocates (env : Environment) {pc : Int} (hs : n.store.Formed)
    (hz : instructionAt? env.program pc = some z) (hop : z.opcode.allocates = true)
    (hf : fetchAll z.operands m = .ok (d :: cs) n) : ∃ r,
    n.store.Fulfils d (n.requested? z cs) r ∧ step env pc m = conclude pc z (d :: cs) n r := by
  unfold requested?
  cases hcode : z.opcode <;> simp only [hcode, Opcode.allocates, Bool.false_eq_true] at hop
  case alloc =>
    refine ⟨_, hs.fulfils_allocate, step_eq_conclude hz hf ?_⟩
    simp only [execute, change?, hcode]
    exact onStore_eq
  case allocLike =>
    cases cs with
    | nil =>
      have habort : execute env pc z [d] n = .error (.abort .breakdown) n := by
        simp only [execute, change?, control, hcode]
        rfl
      exact ⟨.error _, ⟨_, rfl⟩, step_eq_conclude (r := .error _) hz hf habort⟩
    | cons like cs =>
      refine ⟨_, Store.fulfils_allocateLike, step_eq_conclude hz hf ?_⟩
      simp only [execute, change?, hcode]
      exact onStore_eq
  case allocTop =>
    cases htop : n.memory.stack.back? with
    | none =>
      have hempty : execute env pc z (d :: cs) n =
          .error (.abort (Memory.underflow "peek")) n := by
        simp only [execute, change?, control, hcode, bind, EStateM.bind, peek, consult,
          Memory.peek, htop, Except.mapError]
      exact ⟨.error _, ⟨_, rfl⟩, step_eq_conclude (r := .error _) hz hf hempty⟩
    | some like =>
      refine ⟨_, Store.fulfils_allocateLike, step_eq_conclude hz hf ?_⟩
      simp only [execute, change?, control, hcode, bind, EStateM.bind, peek, consult, Memory.peek,
        htop, Except.mapError, onDestination]
      exact onStore_eq

theorem requested?_grown (hs : m.store.Sound) (k : Nat) :
    (m.grown k).requested? z cs = m.requested? z cs := by
  have halike := alike_grown hs k
  simp only [requested?, Store.length?_congr halike, Store.likeness?_congr halike, memory_grown]

end Machine

namespace Launch

variable {l : Launch} {m : Machine} {z : Instruction} {pc : Int} {accelerated : Bool}
  {stage : Stage} {ops : List CellId}

/-- At every stage an allocation that succeeds makes an array of the type and the lengths that were
asked for, whose size and buffer have as many elements as the product of the lengths in 64 bit
arithmetic: the product itself, if the lengths are not negative and it fits.  It succeeds if the
array is there already, or no length is negative and that many elements can be allocated; one that
fails changes no container. -/
theorem sizes_of_allocation (hl : l.Orderly) (h : Reached l accelerated stage)
    (hz : Machine.instructionAt? l.program pc = some z) (hop : z.opcode.allocates = true)
    (hf : Machine.fetchAll z.operands stage.machine = .ok ops m) :
    ∃ d cs, ops = d :: cs ∧
      (∀ next m', Machine.step l.environment pc stage.machine = .ok next m' →
        next = pc + 1 ∧ ∃ ty lengths, stage.machine.requested? z cs = some (ty, lengths) ∧
          stage.machine.store.Allocates d ty lengths ∧ m'.store.IsArray d ty lengths ∧
          ((∀ n ∈ lengths, 0 ≤ n) → Store.elementTotal lengths < 2 ^ 63 →
            m'.store.size d = Store.elementTotal lengths)) ∧
      (∀ ty lengths, stage.machine.requested? z cs = some (ty, lengths) →
        stage.machine.store.Allocates d ty lengths →
          ∃ m', Machine.step l.environment pc stage.machine = .ok (pc + 1) m') ∧
      ∀ e m', Machine.step l.environment pc stage.machine = .error e m' →
        (∀ c, m'.store.cell c = stage.machine.store.cell c) ∧
          m'.store.buffers = stage.machine.store.buffers ∧ m'.memory = stage.machine.memory := by
  have hp := (preserves_of_reached hl.valid.sparing h).1
  obtain ⟨k, rfl, hops⟩ := Machine.fetchAll_ok hp.guarded.addressable hf
  have hfetching := hl.fetching h hz hops
  have hleast := hfetching.least_le
  obtain ⟨d, cs, rfl⟩ : ∃ d cs, ops = d :: cs := by
    refine List.exists_cons_of_length_pos (Nat.lt_of_lt_of_le ?_ hleast)
    revert hop
    cases z.opcode <;> simp [Opcode.allocates, Opcode.arity]
  have hd : d < (stage.machine.grown k).store.cells.size := hops.lt d (by simp)
  obtain ⟨r, hr, hstep⟩ :=
    Machine.step_allocates l.environment hfetching.formed_grown hz hop hf
  have hcell : ∀ c, (stage.machine.grown k).store.cell c = stage.machine.store.cell c :=
    fun c => Store.cell_freshMany k
  refine ⟨d, cs, rfl, ?_⟩
  -- fetching only adds cells, so what is asked for after it was asked for before
  rw [Machine.requested?_grown hfetching.formed.sound] at hr
  simp only [← Store.allocates_congr (Machine.alike_grown hfetching.formed.sound k)]
  rw [hstep]
  cases hrequest : stage.machine.requested? z cs with
  | none =>
    rw [hrequest] at hr
    obtain ⟨e, rfl⟩ := hr
    cases e <;> refine ⟨fun _ _ h => (by cases h), fun _ _ h => (by cases h), fun _ _ h => ?_⟩ <;>
      cases h <;> exact ⟨hcell, rfl, rfl⟩
  | some request =>
    obtain ⟨ty, lengths⟩ := request
    rw [hrequest] at hr
    obtain ⟨hty, rfl⟩ := hr
    rcases hfetching.formed_grown.alloc_outcome hd hty lengths with ⟨hallocates, t, ht, harray⟩ |
      ⟨hno, a, ha, -⟩
    · rw [ht]
      refine ⟨?_, fun _ _ _ _ => ⟨_, rfl⟩, fun _ _ h => (by cases h)⟩
      intro next m' h
      cases h
      exact ⟨rfl, ty, lengths, rfl, hallocates, harray, harray.size_eq_total⟩
    · rw [ha]
      refine ⟨fun _ _ h => (by cases h), fun _ _ h hallocates => ?_, fun _ _ h => ?_⟩
      · cases h
        exact absurd hallocates hno
      · cases h
        exact ⟨hcell, rfl, rfl⟩

def allocatesArray (pool : SymbolTable) (second : Int) : Program where
  code := #[
    { opcode := .alloc, types := [.int],
      operands := [⟨.locals, 0⟩, ⟨.constants, 0⟩, ⟨.constants, second⟩] },
    { opcode := .finish, types := [.void] }]
  constants := pool
  extent := { locals := 0, constants := second }

theorem sizes_of_allocation_table :
    let l := Launch.on (allocatesArray ⟨[("~int:3", 1), ("~int:2", 0)]⟩ 1) none {} #[]
    let z : Instruction :=
      { opcode := .alloc, types := [.int],
        operands := [⟨.locals, 0⟩, ⟨.constants, 0⟩, ⟨.constants, 1⟩] }
    l.Orderly ∧ Reached l false (.idle l.machine) ∧ z.opcode.allocates = true ∧
      Machine.instructionAt? l.program 0 = some z ∧
      (success? (Machine.fetchAll z.operands l.machine)).isSome ∧
      ∃ m', Machine.step l.environment 0 l.machine = .ok 1 m' ∧
        m'.store.IsArray 0 .int [2, 3] ∧ m'.store.size 0 = 6 := by
  intro l z
  have hasm : (Assembler.assemble "ALLOC int L0 ~int:2 ~int:3; END void;" {}).toOption =
      some (allocatesArray ⟨[("~int:3", 1), ("~int:2", 0)]⟩ 1) := by decide +kernel
  have hvalid : l.Valid := valid_on hasm Store.sound_empty (by simp) (by decide +kernel) nofun
  have hl : l.Orderly :=
    ⟨hvalid, fun c => by simpa [l, on, Store.cell] using Store.sized_empty, by simp [l, on]⟩
  have hfetch : (success? (Machine.fetchAll z.operands l.machine)).any
      (fun x => x.1 = [0, 1, 2]) = true := by decide +kernel
  obtain ⟨ops, m, hf, hops⟩ := exists_ok hfetch
  obtain rfl : ops = [0, 1, 2] := of_decide_eq_true hops
  have hrequest : l.machine.requested? z [1, 2] = some (.int, [2, 3]) := by decide +kernel
  have hstart : Reached l false (.idle l.machine) := .allocated
  have hz : Machine.instructionAt? l.program 0 = some z := rfl
  obtain ⟨d, cs, hcs, hok, hgrants, -⟩ := sizes_of_allocation hl hstart hz rfl hf
  cases hcs
  obtain ⟨m', hm'⟩ := hgrants _ _ hrequest (.inr ⟨by decide, by decide⟩)
  obtain ⟨-, ty, lengths, hsame, -, harray, htotal⟩ := hok _ _ hm'
  obtain ⟨rfl, rfl⟩ : ty = .int ∧ lengths = [2, 3] := by
    rw [Stage.machine, hrequest] at hsame
    cases hsame
    exact ⟨rfl, rfl⟩
  exact ⟨hl, hstart, rfl, hz, by rw [hf]; rfl, m', hm', harray, htotal (by decide) (by decide)⟩

-- the lengths of an array need not describe its size: here their product wraps to 0
example :
    let l := Launch.on (allocatesArray ⟨[("~int:4294967296", 0)]⟩ 0) none {} #[]
    (success? (Machine.step l.environment 0 l.machine)).any (fun x =>
      x.1 = 1 ∧ x.2.store.lengths 0 = [4294967296, 4294967296] ∧ x.2.store.size 0 = 0 ∧
        x.2.store.bufferSize 0 = 0 ∧
        Store.elementTotal (x.2.store.lengths 0) = 18446744073709551616) = true := by
  decide +kernel

end Launch

end VectorMachine
