import VectorMachine.Cli.Basic
import VectorMachine.Text.Blank

/-!
# The prompt

At the prompt, lines make up a program until an empty line runs it.  All programs run on one
engine.  Lines are kept in a history, except the empty ones and commands.
-/

namespace VectorMachine.Cli
set_option autoImplicit false

/-- The lines of past programs, the oldest first. -/
abbrev History := Array String

namespace History

/-- No history has more lines. -/
def limit : Nat := 1000

def push (h : History) (line : String) : History :=
  let h := Array.push h line
  if limit < h.size then h.extract 1 h.size else h

def add (h : History) (line : String) : History := if h.back? = some line then h else push h line

/-- Drops a carriage return at the end. -/
def dropReturn (line : String) : String :=
  match line.toList.reverse with
  | '\r' :: r => String.ofList r.reverse
  | _ => line

def ofText (text : String) : History :=
  let (lines, rest) := Log.LineBuffer.write {} text
  ((lines ++ rest.close.1).map dropReturn).foldl push #[]

def text (h : History) : String := String.join (h.toList.map fun line => line ++ "\n")

end History

structure Session where
  setup : Setup
  engine : Engine
  /-- The lines of the program so far. -/
  lines : List String := []
  history : History := #[]
  output : Output := {}
  finished : Bool := false

namespace Session

def prompt (s : Session) : String := if s.lines.isEmpty then "vril> " else "....> "

/-- Runs a program, unless it is empty or the word that ends the session. -/
def submit (s : Session) (src : String) : Session :=
  let s := { s with lines := [] }
  match Text.trimBlank src with
  | "" => s
  | ":quit" => { s with finished := true }
  | _ =>
    let (r, e, o) := runOnce s.setup "repl" src s.engine s.output
    let o := report s.setup "repl" r o
    { s with engine := e, output := o, finished := o.crash.isSome }

/-- Whether a line ends a program: an empty one does, and a command is one by itself. -/
def endsProgram (s : Session) (line : String) : Bool :=
  Text.trimBlank line == "" || (s.lines.isEmpty && line.startsWith ":")

def enter (s : Session) (line : String) : Session :=
  if s.endsProgram line then s.submit ("\n".intercalate (s.lines ++ [line]))
  else { s with lines := s.lines ++ [line], history := s.history.add line }

/-- The end of the input runs a program that is not complete, and else ends the session. -/
def endInput (s : Session) : Session :=
  if s.lines.isEmpty then { s with finished := true } else s.submit ("\n".intercalate s.lines)

def showPrompt (s : Session) : Session := { s with output := s.output.print s.prompt }

/-- One turn: shows the prompt and takes what follows. -/
def turn (s : Session) (line : Option String) : Session :=
  if s.finished then s
  else match line with
    | some line => s.showPrompt.enter line
    | none => s.showPrompt.endInput

/-- Takes all lines; the input ends behind them, however often it is asked for. -/
def takeLines (s : Session) (lines : List String) : Session :=
  ((lines.foldl (fun s line => s.turn (some line)) s).turn none).turn none

end Session

/-- The name of the file that keeps the history. -/
def historyFile : String := ".vril_history"

/-- A session with the history of the sessions before. -/
def startSession (setup : Setup) (past : Option String) (o : Output) :
    Except Binding.Error Session :=
  setup.engine.map fun e =>
    { setup := setup, engine := e, history := (past.map History.ofText).getD #[], output := o }

end VectorMachine.Cli
