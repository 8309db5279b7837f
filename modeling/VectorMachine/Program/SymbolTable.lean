/-!
# Symbol tables

A table of names and addresses, kept as the list of its definitions, the latest one first.  A
later definition hides an earlier one of the same name, and an earlier one of the same address.
-/

namespace VectorMachine
set_option autoImplicit false

structure SymbolTable where
  definitions : List (String × Int) := []
  deriving DecidableEq, Repr, Inhabited

namespace SymbolTable

def addr? (t : SymbolTable) (name : String) : Option Int := t.definitions.lookup name

/-- The name last given to an address, empty if there is none. -/
def name (t : SymbolTable) (addr : Int) : String :=
  ((t.definitions.find? (·.2 == addr)).map (·.1)).getD ""

def isEmpty (t : SymbolTable) : Bool := t.definitions.isEmpty

/-- The greatest address, -1 for an empty table. -/
def greatest (t : SymbolTable) : Int :=
  match t.definitions.map (·.2) with
  | [] => -1
  | a :: rest => rest.foldl max a

def define (t : SymbolTable) (name : String) (addr : Int) : SymbolTable :=
  ⟨(name, addr) :: t.definitions⟩

/-- Keeps the address of a known name and gives the next free one to a new name. -/
def intern (t : SymbolTable) (name : String) : Int × SymbolTable :=
  match t.addr? name with
  | some a => (a, t)
  | none => (t.greatest + 1, t.define name (t.greatest + 1))

/-- Each name with its address, by address and then by name. -/
def entries (t : SymbolTable) : List (String × Int) :=
  let names := (t.definitions.map (·.1)).eraseDups
  let named := names.filterMap fun n => (t.addr? n).map fun a => (n, a)
  named.mergeSort fun x y => x.2 < y.2 || (x.2 == y.2 && x.1 ≤ y.1)

@[simp] theorem addr?_define_self (t : SymbolTable) (name : String) (addr : Int) :
    (t.define name addr).addr? name = some addr := by
  simp [define, addr?]

theorem addr?_define_of_ne (t : SymbolTable) {m n : String} (addr : Int) (h : m ≠ n) :
    (t.define n addr).addr? m = t.addr? m := by
  have : (m == n) = false := by simpa using h
  simp [define, addr?, List.lookup_cons, this]

theorem addr?_intern (t : SymbolTable) (name : String) :
    (t.intern name).2.addr? name = some (t.intern name).1 := by
  unfold intern
  split <;> simp_all

end SymbolTable

end VectorMachine
