import VectorMachine.Engine
import VectorMachine.Yaml.Reading

/-!
# Configurations

A configuration sets the switches of an engine and defines global variables.  Globals keep the
order in which they are written, since it gives them their addresses.
-/

namespace VectorMachine
set_option autoImplicit false

/-- A global variable with its first value. -/
structure Global where
  name : String
  value : Scalar

structure Config where
  accelerator : Option Bool := none
  scalarCache : Option Bool := none
  autoActivation : Option Bool := none
  reexecutionCache : Option Bool := none
  trace : Bool := false
  dump : Bool := false
  globals : List Global := []

/-- Why a text defines no global variable. -/
inductive Global.Error where
  | malformed (text : String)
  | immediate (e : Literal.ImmediateError)

def Global.Error.message : Global.Error → String
  | .malformed text => "invalid global " ++ Text.quote text ++ ", want name=type:value"
  | .immediate e => e.message

/-- Reads a literal without the mark of an immediate in front. -/
def decodeUnmarked (text : String) : Except Literal.ImmediateError Scalar :=
  Literal.decodeImmediate ("~" ++ text)

/-- Reads a definition of the form `name=type:value`. -/
def Global.ofText (text : String) : Except Global.Error Global :=
  let name := text.toList.takeWhile (· != '=')
  match text.toList.dropWhile (· != '=') with
  | [] => .error (.malformed text)
  | _ :: rest =>
    if name.isEmpty then .error (.malformed text)
    else match decodeUnmarked (String.ofList rest) with
      | .ok x => .ok ⟨String.ofList name, x⟩
      | .error e => .error (.immediate e)

namespace Config

inductive Error where
  /-- The text is no document, or its keys or switches are not those of a configuration. -/
  | malformed
  | globalsForm
  | global (name : String) (line : Nat) (e : Literal.ImmediateError)

def Error.message : Error → String
  | .malformed => "config: malformed document"
  | .globalsForm => "config: config: globals must be a mapping"
  | .global name line e =>
    "config: config: global " ++ name ++ " (line " ++ toString line ++ "): " ++ e.message

inductive Key where
  | accelerator | scalarCache | autoActivation | reexecutionCache | trace | dump | globals
  deriving DecidableEq, Repr

def Key.ofName? : String → Option Key
  | "accelerator" => some .accelerator
  | "scalar_cache" => some .scalarCache
  | "auto_activation" => some .autoActivation
  | "reexecution_cache" => some .reexecutionCache
  | "trace" => some .trace
  | "dump" => some .dump
  | "globals" => some .globals
  | _ => none

def setSwitch (c : Config) (b : Bool) : Key → Config
  | .accelerator => { c with accelerator := some b }
  | .scalarCache => { c with scalarCache := some b }
  | .autoActivation => { c with autoActivation := some b }
  | .reexecutionCache => { c with reexecutionCache := some b }
  | .trace => { c with trace := b }
  | .dump => { c with dump := b }
  | .globals => c

def readGlobal (entry : Yaml.Node × Yaml.Node) : Except Error Global :=
  match decodeUnmarked entry.2.text with
  | .ok x => .ok ⟨entry.1.text, x⟩
  | .error e => .error (.global entry.1.text entry.1.line e)

def readGlobals : Yaml.Node → Except Error (List Global)
  | .mapping _ entries => entries.mapM readGlobal
  | _ => .error .globalsForm

/-- What is known after some entries: the configuration, unless a key or a switch was bad. -/
abbrev Progress := Option Config

/-- Takes one entry in.  Bad globals are reported at once, all else at the end. -/
def readEntry (p : Progress) (entry : Yaml.Node × Yaml.Node) : Except Error Progress :=
  let (key, value) := entry
  if key.isNull then .ok p
  else match if key.isScalar then Key.ofName? key.text else none with
    | none => .ok none
    | some .globals =>
      if value.isNull then .ok p
      else (readGlobals value).map fun gs => p.map fun c => { c with globals := gs }
    | some k =>
      if value.isNull then .ok p
      else match value.bool? with
        | none => .ok none
        | some b => .ok (p.map (·.setSwitch b k))

def sameKey (a b : Yaml.Node) : Bool := a.isScalar == b.isScalar && a.text == b.text

def hasDuplicate : List Yaml.Node → Bool
  | [] => false
  | a :: rest => rest.any (sameKey a) || hasDuplicate rest

def ofDocument : Yaml.Node → Except Error Config
  | .mapping _ entries =>
    if hasDuplicate (entries.map (·.1)) then .error .malformed
    else do
      match ← entries.foldlM readEntry (some {}) with
      | some c => .ok c
      | none => .error .malformed
  | node => if node.isNull then .ok {} else .error .malformed

/-- Reads a configuration; a text without a document is the empty one. -/
def ofText (text : String) : Except Error Config :=
  match Yaml.readDocument text with
  | none => .error .malformed
  | some none => .ok {}
  | some (some node) => ofDocument node

/-- The number of engine switches that are set. -/
def switchCount (c : Config) : Nat :=
  [c.accelerator, c.scalarCache, c.autoActivation, c.reexecutionCache].countP Option.isSome

/-- The engine options; a switch that is not set keeps its default. -/
def options (c : Config) : Engine.Options :=
  let o : Engine.Options := {}
  { accelerate := c.accelerator.getD o.accelerate
    scalarCache := c.scalarCache.getD o.scalarCache
    autoActivate := c.autoActivation.getD o.autoActivate
    reexecute := c.reexecutionCache.getD o.reexecute }

end Config

/-- Adds globals to a table, each with a cell of its own, up to the first that fails. -/
def bindGlobals : List Global → Binding.Table → Store →
    Except Binding.Error Unit × Binding.Table × Store
  | [], t, s => (.ok (), t, s)
  | g :: rest, t, s =>
    let (c, s) := s.ofScalar g.value
    match t.addVariable { name := g.name, cell := c } with
    | .ok (_, t) => bindGlobals rest t s
    | .error e => (.error e, t, s)

end VectorMachine
