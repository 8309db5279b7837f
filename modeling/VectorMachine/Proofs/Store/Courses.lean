import VectorMachine.Proofs.Store.Changes

/-!
# Courses of changes

An operation on containers that takes place step by step only looks at them and changes them, and
what it has changed stays changed when it fails afterwards.  Each operation is such a course in
which everything that can fail comes before the first change.  So that a failure leaves all
containers as they were is no matter of how operations are written down here, but of the order in
which they check and change.
-/

namespace VectorMachine.Store
set_option autoImplicit false

/-- A computation that keeps its changes when it fails. -/
abbrev Course := EStateM Failure Store

variable {s t : Store} {c d : CellId} {α β : Type}

namespace Course

/-- Computes something from the store, which may fail. -/
def look (f : Store → Except Failure α) : Course α := fun s =>
  match f s with
  | .ok a => .ok a s
  | .error e => .error e s

/-- Changes the store, which cannot fail. -/
def edit (f : Store → Store) : Course Unit := modify f

def setData (c : CellId) (data : Lanes) (lengths : List Int) : Course Unit := do
  if elementCount lengths > data.size then
    throw (.abort (exceedsBuffer (elementCount lengths) 0 data.size))
  edit (·.renew c data lengths)

def setVoid (c : CellId) (lengths : List Int) : Course Unit := do
  if elementCount lengths > 0 then throw (.abort (exceedsBuffer (elementCount lengths) 0 0))
  edit (·.present c none 0 lengths)

def alloc (c : CellId) (t : DataType) (lengths : List Int) : Course Unit := do
  let s ← get
  if s.isAllocated c t lengths then return
  if let some n := lengths.find? (· < 0) then
    throw (.abort (.fault { operation := "alloc", detail := "negative length " ++ toString n }))
  if !t.isConcrete then setVoid c lengths
  else
    if !isAllocatable t (elementCount lengths) then throw (.abort .oversized)
    match Lanes.zeros? t (elementCount lengths).toNat with
    | some data => setData c data lengths
    | none => throw (.abort .oversized)

def prepare (c : CellId) (t : DataType) (lengths : List Int) : Course Unit := do
  let s ← get
  if s.type c = t ∧ s.lengths c = lengths then return
  alloc c t lengths

/-- Stores elements that are computed from the store, after everything that refuses the data. -/
def receive (c : CellId) (r : Store → Except Failure (List Int × Lanes)) : Course Unit := do
  let (lengths, data) ← look r
  prepare c data.type lengths
  edit (·.write c data)

def allocate (t : DataType) (dst : CellId) (lengths : List CellId) : Course Unit := do
  if !t.isConcrete then throw (.data (.allocationOf t))
  alloc dst t (← look fun s => lengths.mapM s.readLength)

def allocateLike (t : DataType) (dst like : CellId) : Course Unit := do
  let s ← get
  let t := if t.isConcrete then t else s.type like
  if !t.isConcrete then throw (.data (.allocationOf t))
  alloc dst t (s.lengths like)

def setElementView (c array : CellId) (index : Int) : Course Unit := do
  let s ← get
  let a := s.rootCell array
  if index < 0 ∨ a.size ≤ index then
    throw (.abort (.fault { operation := "element view",
                            detail := "index " ++ toString index ++ " outside size " ++
                              toString a.size }))
  let offset := a.offset + index.toNat
  if s.bufferSize array < offset + 1 then
    throw (.abort (exceedsBuffer 1 offset (s.bufferSize array)))
  edit (·.present c a.buffer offset [])

def referElement (dst array : CellId) (indices : List CellId) : Course Unit := do
  setElementView dst array (← look (·.flatIndex array indices))

/-- A course carries out an operation, and where this fails, it has changed nothing. -/
def Carries (x : Course Unit) (f : Store → Except Failure Store) : Prop :=
  ∀ s, x s = match f s with
    | .ok t => .ok () t
    | .error e => .error e s

theorem carries_edit (f : Store → Store) : Carries (edit f) fun s => .ok (f s) := fun _ => rfl

theorem carries_setData {data : Lanes} {lengths : List Int} :
    Carries (setData c data lengths) fun s => (s.setData c data lengths).mapError .abort := by
  intro s
  simp only [setData, Store.setData]
  split <;> rfl

theorem carries_setVoid {lengths : List Int} :
    Carries (setVoid c lengths) fun s => (s.setVoid c lengths).mapError .abort := by
  intro s
  simp only [setVoid, Store.setVoid]
  split <;> rfl

theorem get_bind {x : Store → Course α} {s : Store} : (get >>= x) s = x s s := rfl

/-- What is computed first changes nothing. -/
theorem Carries.look_bind {f : Store → Except Failure α} {x : α → Course Unit}
    {g : α → Store → Except Failure Store} (h : ∀ a, Carries (x a) (g a)) :
    Carries (look f >>= x) fun s => f s >>= (g · s) := by
  intro s
  simp only [look, bind, EStateM.bind]
  cases f s with
  | error e => rfl
  | ok a => exact h a s

/-- What is changed last cannot fail. -/
theorem Carries.bind_edit {x : Course Unit} {f : Store → Except Failure Store}
    (h : Carries x f) (g : Store → Store) :
    Carries (x >>= fun _ => edit g) fun s => f s >>= fun t => .ok (g t) := by
  intro s
  simp only [bind, EStateM.bind, h s]
  cases f s <;> rfl

theorem carries_alloc {ty : DataType} {lengths : List Int} :
    Carries (alloc c ty lengths) fun s => (s.alloc c ty lengths).mapError .abort := by
  intro s
  simp only [alloc, Store.alloc, get_bind]
  split
  · rfl
  · cases lengths.find? (· < 0) with
    | some n => rfl
    | none =>
      by_cases hty : ty.isConcrete = true
      · by_cases hfit : isAllocatable ty (elementCount lengths) = true
        · cases hz : Lanes.zeros? ty (elementCount lengths).toNat with
          | none => simp [hty, hfit]; rfl
          | some data => simpa [hty, hfit] using carries_setData s
        · simp [hty, hfit]; rfl
      · simpa [hty] using carries_setVoid s

theorem carries_prepare {ty : DataType} {lengths : List Int} :
    Carries (prepare c ty lengths) (·.prepare c ty lengths) := by
  intro s
  simp only [prepare, Store.prepare, get_bind]
  split
  · rfl
  · exact carries_alloc s

/-- What is computed and delivered in one course is received as a whole. -/
theorem carries_receive {r : Store → Except Failure (List Int × Lanes)} :
    Carries (receive d r) fun s => s.receive d (r s) :=
  .look_bind fun result => carries_prepare.bind_edit (·.write d result.2)

theorem carries_allocate {ty : DataType} {cs : List CellId} :
    Carries (allocate ty d cs) (·.allocate ty d cs) := by
  intro s
  simp only [allocate, Store.allocate]
  split
  · rfl
  · exact Carries.look_bind (fun _ => carries_alloc) s

theorem carries_allocateLike {ty : DataType} {like : CellId} :
    Carries (allocateLike ty d like) (·.allocateLike ty d like) := by
  intro s
  simp only [allocateLike, Store.allocateLike, get_bind]
  split
  · split
    · rfl
    · exact carries_alloc s
  · split
    · rfl
    · exact carries_alloc s

theorem carries_setElementView {array : CellId} {index : Int} :
    Carries (setElementView c array index) fun s =>
      (s.setElementView c array index).mapError .abort := by
  intro s
  simp only [setElementView, Store.setElementView, get_bind]
  split
  · rfl
  · split <;> rfl

theorem carries_referElement {array : CellId} {indices : List CellId} :
    Carries (referElement d array indices) (·.referElement d array indices) :=
  .look_bind fun _ => carries_setElementView

end Course
end VectorMachine.Store
