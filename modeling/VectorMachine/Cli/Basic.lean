import VectorMachine.Cli.Flags
import VectorMachine.Host.Pretty
import VectorMachine.Log.Console
import VectorMachine.Log.Lines

/-!
# The command

The command runs programs, each file on an engine of its own, and prints their results.  Errors
and traces go to its log; an error makes the exit code one.
-/

namespace VectorMachine.Cli
set_option autoImplicit false

/-- What the command has given so far. -/
structure Output where
  printed : String := ""
  log : Log.Records := {}
  /-- The last words of a command that broke down. -/
  crash : Option String := none
  deriving Inhabited

namespace Output

def print (o : Output) (text : String) : Output := { o with printed := o.printed ++ text }

def record (o : Output) (level : Log.Level) (message : String) : Output :=
  { o with log := o.log.add level message }

def exitCode (o : Output) : Nat := if o.crash.isSome then 2 else o.log.exitCode

def errors (o : Output) : String :=
  o.log.consoleText ++ (o.crash.map fun text => text ++ "\n").getD ""

end Output

/-- Settings with the configuration that they name. -/
structure Setup where
  settings : Settings := {}
  config : Config := {}
  /-- How many arguments there are besides the flags. -/
  argumentCount : Nat := 0

namespace Setup

def trace (s : Setup) : Bool := s.settings.trace || s.config.trace

def dump (s : Setup) : Bool := s.settings.dump || s.config.dump

/-- An engine with cells of its own for the configured globals. -/
def engine (s : Setup) : Except Binding.Error Engine :=
  let options := s.config.options
  let (r, table, store) := bindGlobals (s.config.globals ++ s.settings.globals) {} {}
  r.map fun _ =>
    { options := { options with accelerate := options.accelerate && !s.settings.interpret }
      table := table
      world.store := store
      trace := { enabled := s.trace }
      sinks := if s.dump then [Sink.buffered] else [] }

end Setup

/-- Runs are not canceled; this many polls outlast every one of them. -/
def enduring : Patience := ⟨Nat.pow 2 40, .canceled⟩

def ranRecord (name : String) (s : Engine.RunStats) : Log.Record where
  level := .debug
  message := "ran"
  fields :=
    [("program", name), ("run", toString s.runs), ("steps", toString s.counts.steps),
      ("cache_hit", toString s.cacheHit), ("specialized", toString s.counts.specialized),
      ("fallback", toString s.counts.fallback), ("cached_scalars", toString s.counts.cachedScalars)]

/-- The text of an error; one that was caught also says that it has a place. -/
def errorText (e : Engine.Error) : String :=
  if e.isFault then e.message ++ "\nPanic stack: " else e.message

/-- Moves the listings and the trace of an engine to the log. -/
def collect (name : String) (e : Engine) (o : Output) : Engine × Output :=
  let lines := e.sinks.flatMap fun s => Log.completeLines s.content.received
  let log := o.log.addAll .info (lines.map fun line => name ++ ": " ++ line)
  let log := log.addAll .debug (e.trace.lines.toList.map fun line => name ++ ": " ++ line)
  ({ e with trace.lines := #[], sinks := e.sinks.map fun s => { s with content.received := "" } },
    { o with log := log })

/-- The last words after a result that is too large to be shown. -/
def resultTooLarge : String := "panic: runtime: allocation size out of range"

/-- Runs a source once, and logs what the run has to say. -/
def runOnce (setup : Setup) (name src : String) (e : Engine) (o : Output) :
    Except Engine.Error (Option Host.Value) × Engine × Output :=
  let (r, e) : Except Engine.Error (Option Host.Value) × Engine :=
    match Engine.run src enduring e with
    | .ok v e => (.ok v, e)
    | .error x e => (.error x, e)
  let (e, o) := collect name e o
  match r with
  | .error (.abort _) => (r, e, { o with crash := some resultTooLarge })
  | _ =>
    let ran := if setup.trace then [ranRecord name e.stats] else []
    (r, e, { o with log.records := o.log.records ++ ran })

def printResult (setup : Setup) (name : String) (v : Option Host.Value) (o : Output) : Output :=
  let head := if 1 < setup.argumentCount then name ++ ": " else ""
  o.print (head ++ Host.resultText v ++ "\n")

/-- Shows the outcome of a run. -/
def report (setup : Setup) (name : String) (r : Except Engine.Error (Option Host.Value))
    (o : Output) : Output :=
  match r with
  | .ok v => printResult setup name v o
  | .error e => if o.crash.isSome then o else o.record .error (name ++ ": " ++ errorText e)

/-- Runs a source `n + 1` times; only the last result is shown. -/
def runRepeatedly (setup : Setup) (name src : String) : Nat → Engine → Output → Output
  | n, e, o =>
    let (r, e, o) := runOnce setup name src e o
    match n, r with
    | n + 1, .ok _ => runRepeatedly setup name src n e o
    | _, r => report setup name r o

def runSource (setup : Setup) (name src : String) (o : Output) : Output :=
  match setup.engine with
  | .error e => o.record .error (name ++ ": " ++ e.message)
  | .ok e => runRepeatedly setup name src (setup.settings.repeats.toNat - 1) e o

def missingFile (name : String) : String := "open " ++ name ++ ": no such file or directory"

def runFiles (setup : Setup) (files : String → Option String) (names : List String) (o : Output) :
    Output :=
  names.foldl (fun o name =>
    if o.crash.isSome then o
    else match files name with
      | none => o.record .error (missingFile name)
      | some src => runSource setup name src o) o

/-- The configuration that settings name, or why there is none. -/
def loadConfig (settings : Settings) (files : String → Option String) : Except String Config :=
  if settings.config = "" then .ok {}
  else match files settings.config with
    | none => .error (missingFile settings.config)
    | some text => (Config.ofText text).mapError fun e => settings.config ++ ": " ++ e.message

end VectorMachine.Cli
