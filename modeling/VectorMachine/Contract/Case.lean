import VectorMachine.Contract.Datum
import VectorMachine.Engine
import VectorMachine.Log.Lines

/-!
# Cases

A case is a program with its bindings and with what is expected of its runs.  Every processor has
to meet the same cases.
-/

namespace VectorMachine.Contract
set_option autoImplicit false

/-- An error that a case may ask for. -/
inductive Wanted where
  | assembly (k : Assembler.ErrorKind)
  | data (k : DataErrorKind)
  /-- A function that is not there, or has no implementation. -/
  | noBinding
  /-- The error of a host function with this text. -/
  | host (text : String)
  | canceled
  | deadline
  /-- An error that no run ends with. -/
  | other

/-- What a case looks at after a run. -/
inductive Check where
  | result (d : Datum)
  | resultNear (x : Float)
  | global (name : String) (d : Datum)
  | steps (n : Nat)

structure Case where
  name : String
  source : String
  globals : List (String × Datum) := []
  functions : List Binding.Function := []
  /-- How often the program runs again on its used memory. -/
  repeats : Nat := 0
  /-- Whether the runs are canceled from the start. -/
  canceled : Bool := false
  /-- Whether only this case and its like are run. -/
  exclusive : Bool := false
  checks : List Check := []
  wanted : Option Wanted := none
  wantsFault : Bool := false
  /-- What the text of an error has to contain. -/
  wantedText : String := ""

inductive RunError where
  | assembly (e : Assembler.Error)
  | stop (s : Stop)

namespace RunError

def message : RunError → String
  | .assembly e => e.message
  | .stop (.abort a) => Recovery.message "process" a.message
  | .stop s => (Engine.Error.ofStop s).message

def isFault : RunError → Bool
  | .stop (.abort (.fault _)) => true
  | _ => false

/-- Whether an error is what a case asks for, or was caused by it. -/
def isWanted : Wanted → RunError → Bool
  | .assembly k, .assembly e => k == e.cause.kind
  | .data k, .stop (.data e) => k == e.cause.kind
  | .noBinding, .stop (.data e) =>
    match e.cause with
    | .external _ (.noFunction _) | .external _ (.noImplementation _) => true
    | _ => false
  | .host text, .stop (.data e) =>
    match e.cause with
    | .external _ (.failed t) => t == text
    | _ => false
  | .canceled, .stop .canceled => true
  | .deadline, .stop .deadline => true
  | _, _ => false

end RunError

/-- Whether `sub` stands somewhere in a text. -/
def contains (sub : List Char) : List Char → Bool
  | [] => sub.isEmpty
  | c :: r => sub.isPrefixOf (c :: r) || contains sub r

/-- Whether a run ended as the case asks, with an error or without. -/
def Case.endsAsWanted (c : Case) (e : Option RunError) : Bool :=
  let asWanted :=
    if c.wantsFault then e.any RunError.isFault
    else match c.wanted with
      | some w => e.any (RunError.isWanted w)
      | none => e.isNone
  asWanted && e.all fun e => contains c.wantedText.toList e.message.toList

/-- One run of a case and what it left. -/
structure RunReport where
  program : Program
  memory : Memory
  world : World
  stats : Stats
  outcome : Except Stop Unit

namespace RunReport

def error? (r : RunReport) : Option RunError :=
  match r.outcome with
  | .ok _ => none
  | .error s => some (.stop s)

def result (r : RunReport) : Except Abort (Option Host.Value) :=
  if r.program.result.isAbsent then .ok none
  else do
    let (c, s) ← r.memory.get r.world.store r.program.result
    Host.ofContainer s c

end RunReport

/-- The distance of a number that still counts as near. -/
def tolerance : Float := 1e-9

/-- Whether two floats are near each other; two that are no numbers are. -/
def isNear (x y : Float) : Bool :=
  if x.isNaN || y.isNaN then x.isNaN && y.isNaN
  else !(x - y < -tolerance || x - y > tolerance)

def isNearValue (x : Float) : Option Host.Value → Bool
  | some ⟨_, _, .leaf (.int v)⟩ => isNear x (intToFloat v)
  | some ⟨_, _, .leaf (.float v)⟩ => isNear x v
  | _ => false

def Check.holds (t : Binding.Table) (r : RunReport) : Check → Bool
  | .result d => (r.result.map d.isValue).toOption.getD false
  | .resultNear x => (r.result.map (isNearValue x)).toOption.getD false
  | .global name d =>
    match t.find? name with
    | none => false
    | some v => ((Host.ofContainer r.world.store v.cell).map d.isValue).toOption.getD false
  | .steps n => r.stats.steps == n

structure CaseReport where
  name : String
  passed : Bool
  log : List String := []
  runs : List RunReport := []

/-- The table of a case, if its bindings can be made. -/
def Case.table? (c : Case) : Option (Binding.Table × Store) := do
  let (t, s) ← c.globals.foldlM (fun (t, s) (name, d) => do
    let (cell, s) ← d.toContainer? s
    let (_, t) ← (Binding.Table.addVariable t { name := name, cell := cell }).toOption
    some (t, s)) (({}, {}) : Binding.Table × Store)
  let t ← c.functions.foldlM (fun t f => do
    let (_, t) ← (Binding.Table.addFunction t f).toOption
    some t) t
  some (t, s)

/-- How long the runs of a case go on: one that is not over after this many polls has missed its
deadline. -/
def Case.patience (c : Case) : Patience :=
  if c.canceled then ⟨0, .canceled⟩ else ⟨512, .deadline⟩

/-- What the log of a failed case shows of its program and its last run. -/
def programLog (p : Program) (trace : Log.Trace) : List String :=
  let (lines, rest) := Log.LineBuffer.write {} p.listing
  lines ++ rest.close.1 ++ trace.lines.toList

/-- Runs a program `n + 1` times, `number` counting them, until one fails or is not as
expected. -/
def Case.runAll (c : Case) (p : Program) (t : Binding.Table) :
    Nat → Nat → Processor → World → Memory → List RunReport → CaseReport
  | n, number, proc, world, memory, runs =>
    let (r, proc) := proc.process ⟨p, some t.link⟩ c.patience world memory { enabled := true }
    let report : RunReport := ⟨p, r.memory, r.world, r.stats, r.outcome⟩
    let runs := runs ++ [report]
    let failed (head : List String) : CaseReport :=
      ⟨c.name, false, head ++ programLog p r.trace, runs⟩
    if !c.endsAsWanted report.error? then failed []
    else if report.error?.isSome then ⟨c.name, true, [], runs⟩
    else if !c.checks.all (Check.holds t report) then
      failed ["failed on run " ++ toString (number + 1)]
    else match n with
      | 0 => ⟨c.name, true, [], runs⟩
      | n + 1 =>
        let (m, s) := r.memory.rewind r.world.store
        c.runAll p t n (number + 1) proc { r.world with store := s } (m.bindGlobals t.globals) runs

def Case.run (proc : Processor) (c : Case) : CaseReport :=
  match c.table? with
  | none => ⟨c.name, false, [], []⟩
  | some (t, s) =>
    match Assembler.assemble c.source t.symbols with
    | .error e => ⟨c.name, c.endsAsWanted (some (.assembly e)), [], []⟩
    | .ok p =>
      match Memory.allocate s p.layout t.globals with
      | .error _ => ⟨c.name, false, programLog p {}, []⟩
      | .ok (m, s) => c.runAll p t c.repeats 0 proc { store := s } m []

/-- Runs cases, only the exclusive ones if there are any. -/
def runCases (proc : Processor) (cases : List Case) : List CaseReport :=
  let chosen := if cases.any (·.exclusive) then cases.filter (·.exclusive) else cases
  chosen.map (Case.run proc)

end VectorMachine.Contract
