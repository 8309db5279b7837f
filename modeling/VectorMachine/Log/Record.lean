import VectorMachine.Text.Format

/-!
# Records

A log of records with levels.  It remembers whether an error was logged, which decides the exit
code of a program.
-/

namespace VectorMachine.Log
set_option autoImplicit false

inductive Level where
  | debug | info | error
  deriving DecidableEq, Repr, Inhabited

def Level.name : Level → String
  | .debug => "debug"
  | .info => "info"
  | .error => "error"

structure Record where
  level : Level
  message : String
  /-- Further facts as names and values. -/
  fields : List (String × String) := []
  deriving DecidableEq, Repr, Inhabited

structure Records where
  records : Array Record := #[]
  failed : Bool := false
  deriving Inhabited, Repr

namespace Records

def add (l : Records) (level : Level) (message : String) : Records :=
  { records := l.records.push { level := level, message := message }
    failed := l.failed || level == .error }

def addAll (l : Records) (level : Level) (messages : List String) : Records :=
  messages.foldl (·.add level ·) l

/-- Logs a pattern with texts put in. -/
def addf (l : Records) (level : Level) (pattern : String) (args : List String) : Records :=
  l.add level (Text.formatAny pattern args)

def exitCode (l : Records) : Nat := if l.failed then 1 else 0

end Records

end VectorMachine.Log
