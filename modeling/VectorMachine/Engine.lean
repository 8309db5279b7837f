import VectorMachine.Binding
import VectorMachine.Host.Value
import VectorMachine.Processor
import VectorMachine.Program.Listing
import VectorMachine.Recovery
import VectorMachine.Sink

/-!
# Engines

An engine assembles and runs programs against a table of bindings.  It keeps the program and the
memory of its last run, so that running the same source again needs no assembly; a failure of any
kind drops them.
-/

namespace VectorMachine
set_option autoImplicit false

namespace Engine

structure Options where
  /-- Whether programs run by plans of the accelerator. -/
  accelerate : Bool := true
  /-- Whether such plans keep scalars in caches. -/
  scalarCache : Bool := true
  /-- Whether every run activates and deactivates the bindings itself. -/
  autoActivate : Bool := true
  /-- Whether the last program and its memory are kept. -/
  reexecute : Bool := true
  deriving DecidableEq, Repr, Inhabited

def Options.processor (o : Options) : Processor :=
  if o.accelerate then .accelerator o.scalarCache else .interpreter

inductive Error where
  | notActivated
  | assembly (e : Assembler.Error)
  | immediate (e : Literal.ImmediateError)
  | binding (e : Binding.Error)
  | sink (e : Sink.Error)
  | data (e : DataError)
  | canceled
  | deadline
  | abort (a : Abort)
  /-- An abort that the engine caught. -/
  | recovered (a : Abort)

def Error.message : Error → String
  | .notActivated => "bindings are not activated"
  | .assembly e => e.message
  | .immediate e => e.message
  | .binding e => e.message
  | .sink e => e.message
  | .data e => e.message
  | .canceled => "context canceled"
  | .deadline => "context deadline exceeded"
  | .abort a => a.message
  | .recovered a => Recovery.message "vril" a.message

/-- Whether an error comes from a broken contract rather than from the data of a program. -/
def Error.isFault : Error → Bool
  | .recovered _ => true
  | _ => false

def Error.recover : Error → Error
  | .abort a => .recovered a
  | e => e

def Error.ofStop : Stop → Error
  | .data e => .data e
  | .abort a => .abort a
  | .canceled => .canceled
  | .deadline => .deadline

def Error.ofBindingStop : Binding.Stop → Error
  | .error e => .binding e
  | .abort a => .abort a

def Error.ofAllocation : AllocationError → Error
  | .abort a => .abort a
  | .literal e => .immediate e

/-- What a kept program depends on: its source, by digest, and the bindings. -/
structure Key where
  source : List UInt8
  bindings : Nat
  deriving DecidableEq, Repr

structure Kept where
  key : Key
  program : Program
  memory : Memory

structure RunStats where
  counts : VectorMachine.Stats := {}
  /-- Whether the last run used a kept program. -/
  cacheHit : Bool := false
  /-- The number of runs so far. -/
  runs : Nat := 0
  deriving DecidableEq, Repr, Inhabited

end Engine

structure Engine where
  options : Engine.Options := {}
  table : Binding.Table := {}
  world : World := {}
  processor : Processor := options.processor
  kept : Option Engine.Kept := none
  stats : Engine.RunStats := {}
  trace : Log.Trace := {}
  /-- Where the listings of assembled programs go. -/
  sinks : List Sink := []

namespace Engine

abbrev Action := EStateM Error Engine

def onWorld {α : Type} (f : EStateM Binding.Stop World α) : Action α := fun e =>
  match f e.world with
  | .ok x w => .ok x { e with world := w }
  | .error s w => .error (.ofBindingStop s) { e with world := w }

def activate : Action Unit := do
  let t ← onWorld (← get).table.activate
  modify fun e => { e with table := t }

def deactivate : Action Unit := do
  modify fun e => { e with table := e.table.inactive }
  onWorld (← get).table.deactivate

/-- Deactivates the bindings if they are active. -/
def close : Action Unit := do
  if (← get).table.active then deactivate

/-- Adds a line to the trace. -/
def note (text : String) : Action Unit :=
  modify fun e => { e with trace := (e.trace.add 0 "#" text).2 }

def key (e : Engine) (src : String) : Key := ⟨Blake2b.digest src.toUTF8, e.table.version⟩

/-- The kept program for a source, if it is still the right one. -/
def lookup (e : Engine) (src : String) : Option Kept :=
  e.kept.filter fun k => k.key = e.key src

/-- Writes the listing of a program to all sinks. -/
def dump (p : Program) : Action Unit := fun e =>
  if e.sinks.isEmpty then .ok () e
  else match Sink.writePieces e.sinks p.listingPieces with
    | (.error x, sinks) => .error (.sink x) { e with sinks := sinks }
    | (.ok _, sinks) =>
      match Sink.flushAll sinks with
      | (.error x, sinks) => .error (.sink x) { e with sinks := sinks }
      | (.ok _, sinks) => .ok () { e with sinks := sinks }

/-- Prepares a kept memory for another run. -/
def reuse (k : Kept) : Action Memory := fun e =>
  let (m, s) := k.memory.rewind e.world.store
  .ok (m.bindGlobals e.table.globals) { e with world.store := s }

def allocate (p : Program) : Action Memory := fun e =>
  match Memory.allocate e.world.store p.layout e.table.globals with
  | .ok (m, s) => .ok m { e with world.store := s }
  | .error x => .error (.ofAllocation x) e

def assemble (src : String) : Action Program := fun e =>
  match Assembler.assemble src e.table.symbols with
  | .ok p => .ok p e
  | .error x => .error (.assembly x) e

/-- Keeps a program and its memory, if the engine is to keep any, and forgets the plan of the
program before. -/
def keep (src : String) (p : Program) (m : Memory) : Action Unit :=
  modify fun e =>
    { e with kept := if e.options.reexecute then some ⟨e.key src, p, m⟩ else e.kept,
             processor := e.processor.forget }

/-- The program of a source with a memory to run it on, and whether they were kept. -/
def load (src : String) : Action (Program × Memory × Bool) := do
  match (← get).lookup src with
  | some k => return (k.program, ← reuse k, true)
  | none =>
    let p ← assemble src
    dump p
    let m ← allocate p
    keep src p m
    return (p, m, false)

/-- Runs a program; the result is the memory that the run leaves. -/
def process (p : Program) (m : Memory) (patience : Patience) : Action Memory := fun e =>
  let (r, proc) := e.processor.process ⟨p, some e.table.link⟩ patience e.world m e.trace
  let e :=
    { e with world := r.world, trace := r.trace, processor := proc, stats.counts := r.stats,
             kept := e.kept.map fun k => { k with memory := r.memory } }
  match r.outcome with
  | .ok _ => .ok r.memory e
  | .error s => .error (.ofStop s) e

/-- The cell at an operand of a memory. -/
def cellAt (m : Memory) (x : Operand) : Action CellId := fun e =>
  match m.get e.world.store x with
  | .ok (c, s) => .ok c { e with world.store := s }
  | .error a => .error (.abort a) e

/-- Loads and runs a source and hands changed variables back to the host. -/
def perform (src : String) (patience : Patience) : Action (Option CellId) := do
  let (p, m, hit) ← load src
  modify fun e => { e with stats := { cacheHit := hit, runs := e.stats.runs + 1 } }
  note ("run " ++ toString (← get).stats.runs ++ " cache hit:" ++ toString hit)
  let m ← process p m patience
  note ("ran " ++ toString (← get).stats.counts.steps ++ " steps")
  onWorld (← get).table.writeBack
  if p.result.isAbsent then return none
  else return some (← cellAt m p.result)

/-- Deactivates the bindings after `f`, whatever its outcome; an error of `f` outweighs one of
the deactivation. -/
def thenDeactivate {α : Type} (f : Action α) : Action α := fun e =>
  match f e with
  | .ok x e =>
    match deactivate e with
    | .ok _ e => .ok x e
    | .error d e => .error d e
  | .error x e =>
    match deactivate e with
    | .error (.abort a) e => .error (.abort a) e
    | .ok _ e | .error _ e => .error x e

/-- Runs `f` with active bindings. -/
def withBindings {α : Type} (f : Action α) : Action α := do
  let e ← get
  if e.options.autoActivate && !e.table.active then
    activate
    thenDeactivate f
  else f

/-- Assembles and runs a source.  The result is the cell of the program's result operand, which
is the engine's own and valid until the next run. -/
def exec (src : String) (patience : Patience) : Action (Option CellId) := fun e =>
  if !e.options.autoActivate && !e.table.active then .error .notActivated e
  else match withBindings (perform src patience) e with
    | .ok x e => .ok x e
    | .error x e => .error x.recover { e with kept := none }

/-- Assembles and runs a source and gives the host value of its result, if it has one. -/
def run (src : String) (patience : Patience) : Action (Option Host.Value) := do
  match ← exec src patience with
  | none => return none
  | some c => fun e =>
    match Host.ofContainer e.world.store c with
    | .ok v => .ok v e
    | .error a => .error (.abort a) e

end Engine

end VectorMachine
