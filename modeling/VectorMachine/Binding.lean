import VectorMachine.Interpreter.Machine
import VectorMachine.Assembler.Basic

/-!
# Bindings

A table of bindings gives programs access to their host: the n-th variable is the global at
address n, and the n-th function is the external function with index n.  Bindings are only ever
added, so an address keeps its meaning.
-/

namespace VectorMachine.Binding
set_option autoImplicit false

/-- Code of the host. -/
abbrev HostAction := EStateM CallStop World Unit

def HostAction.onStore (f : Store → Except Abort Store) : HostAction := fun w =>
  match f w.store with
  | .ok s => .ok () { w with store := s }
  | .error a => .error (.abort a) w

def HostAction.note (line : String) : HostAction :=
  modify fun w => { w with journal := w.journal.push line }

/-- What the host does when a table is activated or deactivated. -/
structure Hooks where
  activate : Option HostAction := none
  deactivate : Option HostAction := none
  deriving Inhabited

structure Variable where
  name : String
  cell : CellId
  readOnly : Bool := false
  /-- Receives the variable's cell after every successful run, unless it is read only. -/
  writeBack : Option (CellId → HostAction) := none
  hooks : Hooks := {}
  deriving Inhabited

structure Function where
  name : String
  call : Option (List CellId → CellId → HostAction) := none
  hooks : Hooks := {}
  deriving Inhabited

/-- The bindings in the order in which they were added, with the numbers of their names. -/
structure Table where
  vars : Array Variable := #[]
  varIndex : List (String × Nat) := []
  funcs : Array Function := #[]
  funcIndex : List (String × Nat) := []
  /-- The number of bindings added so far, which tells an older table from a newer one. -/
  version : Nat := 0
  active : Bool := false
  deriving Inhabited

inductive Error where
  | duplicateVariable (name : String)
  | duplicateFunction (name : String)
  | noVariable (name : String)
  | activating (name : String) (e : CallError)
  /-- The failures of all deactivation hooks, in their order. -/
  | deactivating (failures : List (String × CallError))
  | writingBack (name : String) (e : CallError)
  deriving DecidableEq, Repr

def Error.message : Error → String
  | .duplicateVariable name => "duplicate binding: variable " ++ Text.quote name
  | .duplicateFunction name => "duplicate binding: function " ++ Text.quote name
  | .noVariable name => "no such binding: variable " ++ Text.quote name
  | .activating name e => "activating " ++ name ++ ": " ++ e.message
  | .deactivating failures =>
    "\n".intercalate (failures.map fun (name, e) => "deactivating " ++ name ++ ": " ++ e.message)
  | .writingBack name e => "writing back " ++ name ++ ": " ++ e.message

/-- Why the hooks of a table stop. -/
inductive Stop where
  | error (e : Error)
  | abort (a : Abort)
  deriving DecidableEq, Repr

/-- Runs host code; its error becomes one of the table. -/
def HostAction.within (f : HostAction) (wrap : CallError → Error) : EStateM Stop World Unit :=
  fun w =>
    match f w with
    | .ok _ w => .ok () w
    | .error (.error e) w => .error (.error (wrap e)) w
    | .error (.abort a) w => .error (.abort a) w

namespace Table

/-- Numbers a name that has no number yet. -/
def symbolicate (index : List (String × Nat)) (name : String) (n : Nat) :
    Option (List (String × Nat)) :=
  if (index.lookup name).isSome then none else some ((name, n) :: index)

def variableIndex? (t : Table) (name : String) : Option Nat := t.varIndex.lookup name

def functionIndex? (t : Table) (name : String) : Option Nat := t.funcIndex.lookup name

def find? (t : Table) (name : String) : Option Variable :=
  (t.variableIndex? name).bind fun i => t.vars[i]?

def addVariable (t : Table) (v : Variable) : Except Error (Nat × Table) :=
  match symbolicate t.varIndex v.name t.vars.size with
  | none => .error (.duplicateVariable v.name)
  | some index =>
    .ok (t.vars.size,
      { t with vars := t.vars.push v, varIndex := index, version := t.version + 1 })

def addFunction (t : Table) (f : Function) : Except Error (Nat × Table) :=
  match symbolicate t.funcIndex f.name t.funcs.size with
  | none => .error (.duplicateFunction f.name)
  | some index =>
    .ok (t.funcs.size,
      { t with funcs := t.funcs.push f, funcIndex := index, version := t.version + 1 })

def set (t : Table) (name : String) (c : CellId) : Except Error Table :=
  match t.variableIndex? name with
  | none => .error (.noVariable name)
  | some i => .ok { t with vars := t.vars.modify i fun v => { v with cell := c } }

/-- The name that an identifier of a program stands for: one underscore in front is dropped. -/
def plainName (identifier : String) : String :=
  match identifier.toList with
  | '_' :: rest => String.ofList rest
  | _ => identifier

/-- The names that programs see. -/
def symbols (t : Table) : Assembler.Symbols where
  global? ident := (t.variableIndex? (plainName ident)).map Int.ofNat
  function? ident := (t.functionIndex? (plainName ident)).map Int.ofNat

/-- The cells of all variables by address. -/
def globals (t : Table) : Array CellId := t.vars.map (·.cell)

/-- Calls the function with an index. -/
def link (t : Table) : Linker := fun index args result =>
  match if index < 0 then none else t.funcs[index.toNat]? with
  | none => throw (.error (.noFunction index))
  | some f =>
    match f.call with
    | none => throw (.error (.noImplementation f.name))
    | some call => call args result

/-- The hooks of all bindings with their names, variables first. -/
def hooks (t : Table) : List (String × Hooks) :=
  t.vars.toList.map (fun v => (v.name, v.hooks)) ++
    t.funcs.toList.map (fun f => (f.name, f.hooks))

/-- Runs the activation hooks up to the first that fails. -/
def activationHooks : List (String × Hooks) → EStateM Stop World Unit
  | [] => pure ()
  | (name, h) :: rest => do
    match h.activate with
    | some f => HostAction.within f (.activating name)
    | none => pure ()
    activationHooks rest

/-- Runs every deactivation hook and gives the failures. -/
def deactivationHooks : List (String × Hooks) → EStateM Stop World (List (String × CallError))
  | [] => pure []
  | (name, h) :: rest => do
    let failed ← (match h.deactivate with
      | none => pure []
      | some f => fun w =>
        match f w with
        | .ok _ w => .ok [] w
        | .error (.error e) w => .ok [(name, e)] w
        | .error (.abort a) w => .error (.abort a) w)
    return failed ++ (← deactivationHooks rest)

/-- Activates the bindings; if a hook fails, nothing changes but what the hooks did. -/
def activate (t : Table) : EStateM Stop World Table := do
  activationHooks t.hooks
  return { t with active := true }

/-- The table once its deactivation has begun. -/
def inactive (t : Table) : Table := { t with active := false }

/-- Runs all deactivation hooks, and fails if any of them does. -/
def deactivate (t : Table) : EStateM Stop World Unit := do
  match ← deactivationHooks t.hooks with
  | [] => pure ()
  | failures => throw (.error (.deactivating failures))

def writeBackAll : List Variable → EStateM Stop World Unit
  | [] => pure ()
  | v :: rest => do
    match v.writeBack with
    | some f => if !v.readOnly then HostAction.within (f v.cell) (.writingBack v.name)
    | none => pure ()
    writeBackAll rest

/-- Hands the cell of every variable that is not read only to its host. -/
def writeBack (t : Table) : EStateM Stop World Unit := writeBackAll t.vars.toList

end Table

end VectorMachine.Binding
