import VectorMachine.Cli.Prompt

/-!
# Runs of the command

A run of the command as a function of its arguments, the files that it can see, and its input.
-/

namespace VectorMachine.Cli
set_option autoImplicit false

/-- Where the command reads from. -/
inductive Input where
  | piped (text : String)
  | typed (lines : List String)

structure Result where
  exitCode : Nat := 0
  printed : String := ""
  errors : String := ""
  /-- The new text of the history file, if the run wrote it. -/
  history : Option String := none

def Output.result (o : Output) : Result :=
  { exitCode := o.exitCode, printed := o.printed, errors := o.errors }

def FlagError.result : FlagError → Result
  | .help => { errors := usage }
  | e => { exitCode := 2, errors := e.message ++ "\n" ++ usage }

def runPrompt (setup : Setup) (past : Option String) (lines : List String) : Result :=
  match startSession setup past {} with
  | .error e => (Output.record {} .error e.message).result
  | .ok s =>
    let s := s.takeLines lines
    { s.output.result with history := some s.history.text }

def run (files : String → Option String) (args : List String) (input : Input) : Result :=
  match readFlags args {} with
  | .error e => e.result
  | .ok (settings, names) =>
    match loadConfig settings files with
    | .error e => (Output.record {} .error e).result
    | .ok config =>
      let setup : Setup := ⟨settings, config, names.length⟩
      if names.isEmpty then
        match input with
        | .piped text => (runSource setup "<stdin>" text {}).result
        | .typed lines => runPrompt setup (files historyFile) lines
      else (runFiles setup files names {}).result

end VectorMachine.Cli
