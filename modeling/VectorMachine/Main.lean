import VectorMachine.Cli.Run

/-!
# The program

Reads what the command needs, and lets it run.
-/

namespace VectorMachine.Cli
set_option autoImplicit false

def readText? (name : String) : IO (Option String) := do
  try
    return some (← IO.FS.readFile name)
  catch _ =>
    return none

def printNews (before after : Output) : IO Unit := do
  let stdout ← IO.getStdout
  stdout.putStr (String.ofList (after.printed.toList.drop before.printed.length))
  stdout.flush
  IO.eprint (String.ofList (after.errors.toList.drop before.errors.length))

/-- Goes on with a session until it is over. -/
partial def converse (s : Session) : IO Session := do
  if s.finished then return s
  IO.print s.prompt
  (← IO.getStdout).flush
  let line ← (← IO.getStdin).getLine
  let next :=
    if line.isEmpty then s.endInput
    else s.enter (History.dropReturn (String.ofList (line.toList.filter (· != '\n'))))
  printNews s.output next.output
  converse next

def historyPath? : IO (Option String) := do
  return (← IO.getEnv "HOME").map fun home => home ++ "/" ++ historyFile

def runInteractively (setup : Setup) : IO UInt32 := do
  let path ← historyPath?
  let past ← match path with
    | some p => readText? p
    | none => pure none
  match startSession setup past {} with
  | .error e =>
    IO.eprint (Output.record {} .error e.message).errors
    return 1
  | .ok s =>
    let s ← converse s
    match path with
    | some p => try IO.FS.writeFile p s.history.text catch _ => pure ()
    | none => pure ()
    return s.output.exitCode.toUInt32

def readTexts (names : List String) : IO (String → Option String) := do
  let texts ← names.mapM fun name => do return (name, ← readText? name)
  return fun name => (texts.lookup name).join

partial def readInput (text : String) : IO String := do
  let line ← (← IO.getStdin).getLine
  if line.isEmpty then return text else readInput (text ++ line)

def runBatch (args names : List String) (usesInput : Bool) : IO UInt32 := do
  let files ← readTexts names
  let input ← if usesInput then readInput "" else pure ""
  let r := run files args (.piped input)
  IO.print r.printed
  IO.eprint r.errors
  return r.exitCode.toUInt32

def command (args : List String) : IO UInt32 := do
  match readFlags args {} with
  | .error _ => runBatch args [] false
  | .ok (settings, names) =>
    let needed := settings.config :: names
    let config := loadConfig settings (← readTexts needed)
    match config with
    | .error _ => runBatch args needed false
    | .ok config =>
      if names.isEmpty && (← (← IO.getStdin).isTty) then runInteractively ⟨settings, config, 0⟩
      else runBatch args needed names.isEmpty

end VectorMachine.Cli

def main (args : List String) : IO UInt32 := VectorMachine.Cli.command args
