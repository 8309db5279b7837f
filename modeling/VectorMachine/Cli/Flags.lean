import VectorMachine.Config

/-!
# Command line flags

Flags come before all other arguments, with one or two dashes.  A flag's value follows behind an
equals sign or as the next argument; a switch needs none.
-/

namespace VectorMachine.Cli
set_option autoImplicit false

open Binary64 (digitValue isDigitOf splitSign)

structure Settings where
  /-- The time limit of a run in nanoseconds, none if it is not positive. -/
  timeout : Int := 0
  trace : Bool := false
  dump : Bool := false
  interpret : Bool := false
  /-- How often each program runs. -/
  repeats : Int := 1
  jobs : Int := 1
  config : String := ""
  globals : List Global := []

inductive Flag where
  | timeout | trace | dump | interpret | repeats | jobs | config | global
  deriving DecidableEq, Repr

def Flag.ofName? : String → Option Flag
  | "timeout" => some .timeout
  | "trace" => some .trace
  | "dump" => some .dump
  | "interpret" => some .interpret
  | "repeat" => some .repeats
  | "j" => some .jobs
  | "config" => some .config
  | "global" => some .global
  | _ => none

def Flag.isSwitch : Flag → Bool
  | .trace | .dump | .interpret => true
  | _ => false

inductive NumberError where
  | malformed
  | outOfRange
  deriving DecidableEq, Repr

def NumberError.message : NumberError → String
  | .malformed => "parse error"
  | .outOfRange => "value out of range"

inductive FlagError where
  | malformed (arg : String)
  | unknown (name : String)
  | noValue (name : String)
  | switchValue (value name : String)
  | badValue (value name reason : String)
  | help

def usage : String :=
  "Usage of vril:\n" ++
  "  -config file\n    \tload options and globals from a YAML file\n" ++
  "  -dump\n    \tlog a listing of every assembled program\n" ++
  "  -global name=type:value\n" ++
  "    \tbind a global variable given as name=type:value; may be repeated\n" ++
  "  -interpret\n    \tuse the reference interpreter instead of the accelerator\n" ++
  "  -j N\n    \trun up to N files in parallel (default 1)\n" ++
  "  -repeat N\n    \trun each program N times, reusing its assembly (default 1)\n" ++
  "  -timeout duration\n    \tspecify a time limit for each run\n" ++
  "  -trace\n    \tenable trace logging\n"

def FlagError.message : FlagError → String
  | .malformed arg => "bad flag syntax: " ++ arg
  | .unknown name => "flag provided but not defined: -" ++ name
  | .noValue name => "flag needs an argument: -" ++ name
  | .switchValue value name =>
    "invalid boolean value " ++ Text.quote value ++ " for -" ++ name ++ ": parse error"
  | .badValue value name reason =>
    "invalid value " ++ Text.quote value ++ " for flag -" ++ name ++ ": " ++ reason
  | .help => ""

def readSwitch? (s : String) : Option Bool :=
  if s ∈ ["1", "t", "T", "true", "TRUE", "True"] then some true
  else if s ∈ ["0", "f", "F", "false", "FALSE", "False"] then some false
  else none

/-- Reads digits of a base, from left to right, with underscores between them. -/
def readDigits (base : Nat) : Nat → List Char → Except NumberError Nat
  | n, [] => .ok n
  | n, '_' :: cs => readDigits base n cs
  | n, c :: cs =>
    if isDigitOf base c then
      let n := n * base + digitValue c
      if n < Nat.pow 2 64 then readDigits base n cs else .error .outOfRange
    else .error .malformed

/-- The base and the digits of an unsigned number; a zero in front alone means octal. -/
def splitNumber : List Char → Nat × List Char
  | '0' :: c :: d :: cs =>
    match Literal.markedBase? c with
    | some base => (base, d :: cs)
    | none => (8, c :: d :: cs)
  | '0' :: cs => (8, cs)
  | cs => (10, cs)

def readInteger (s : String) : Except NumberError Int := do
  let (negative, cs) := splitSign s.toList
  if cs.isEmpty then throw .malformed
  let (base, digits) := splitNumber cs
  let n ← readDigits base 0 digits
  if cs.contains '_' && !Binary64.underscoresFit cs then throw .malformed
  if negative then
    if n ≤ Nat.pow 2 63 then return -(n : Int) else throw .outOfRange
  else if n < Nat.pow 2 63 then return n else throw .outOfRange

/-- The nanoseconds of a unit of time. -/
def unitLength? : String → Option Nat
  | "ns" => some 1
  | "us" | "µs" | "μs" => some 1000
  | "ms" => some 1000000
  | "s" => some 1000000000
  | "m" => some 60000000000
  | "h" => some 3600000000000
  | _ => none

/-- The sum of at most `n` amounts with units, in nanoseconds, rounded down one by one. -/
def readAmounts : Nat → Nat → List Char → Option Nat
  | 0, _, _ => none
  | n + 1, total, cs =>
    if cs.isEmpty then some total
    else
      let whole := cs.takeWhile Char.isDigit
      let rest := cs.dropWhile Char.isDigit
      let (fraction, rest, dotted) := match rest with
        | '.' :: r => (r.takeWhile Char.isDigit, r.dropWhile Char.isDigit, true)
        | r => ([], r, false)
      let unit := rest.takeWhile fun c => c != '.' && !c.isDigit
      if whole.isEmpty && !(dotted && !fraction.isEmpty) then none
      else match unitLength? (String.ofList unit) with
        | none => none
        | some length =>
          let value (ds : List Char) : Nat := ds.foldl (fun n c => n * 10 + digitValue c) 0
          let amount := value whole * length + value fraction * length / Nat.pow 10 fraction.length
          if total + amount ≤ Nat.pow 2 63 then
            readAmounts n (total + amount) (rest.dropWhile fun c => c != '.' && !c.isDigit)
          else none

/-- Reads a span of time such as `1m30s`, in nanoseconds. -/
def readDuration? (s : String) : Option Int :=
  let (negative, cs) := splitSign s.toList
  if cs = ['0'] then some 0
  else if cs.isEmpty then none
  else match readAmounts (cs.length + 1) 0 cs with
    | none => none
    | some n =>
      if negative then some (-(n : Int)) else if n < Nat.pow 2 63 then some n else none

/-- Takes the value of a flag in; the error says why it does not fit. -/
def setFlag (s : Settings) (f : Flag) (value : String) : Except String Settings :=
  match f with
  | .timeout =>
    match readDuration? value with
    | some n => .ok { s with timeout := n }
    | none => .error NumberError.malformed.message
  | .repeats => ((readInteger value).mapError (·.message)).map fun n => { s with repeats := n }
  | .jobs => ((readInteger value).mapError (·.message)).map fun n => { s with jobs := n }
  | .config => .ok { s with config := value }
  | .global =>
    match Global.ofText value with
    | .ok g => .ok { s with globals := s.globals ++ [g] }
    | .error e => .error e.message
  | .trace | .dump | .interpret => .ok s

def setSwitch (s : Settings) (b : Bool) : Flag → Settings
  | .trace => { s with trace := b }
  | .dump => { s with dump := b }
  | .interpret => { s with interpret := b }
  | _ => s

/-- What an argument is to the flags. -/
inductive Word where
  /-- No flag, so that the flags are over. -/
  | other
  /-- Two dashes alone, which end the flags. -/
  | stop
  | malformed
  | flag (name : String) (value : Option String)

/-- The name in front of the first equals sign, which cannot come first, and the value behind. -/
def splitValue (cs : List Char) : Word :=
  match cs with
  | [] | '-' :: _ | '=' :: _ => .malformed
  | c :: r =>
    let name := c :: r.takeWhile (· != '=')
    match r.dropWhile (· != '=') with
    | [] => .flag (String.ofList name) none
    | _ :: value => .flag (String.ofList name) (some (String.ofList value))

def classify (arg : String) : Word :=
  match arg.toList with
  | ['-', '-'] => .stop
  | '-' :: '-' :: r => splitValue r
  | '-' :: c :: r => splitValue (c :: r)
  | _ => .other

/-- Reads the flags; the result has the arguments behind them. -/
def readFlags : List String → Settings → Except FlagError (Settings × List String)
  | [], s => .ok (s, [])
  | arg :: rest, s =>
    match classify arg with
    | .other => .ok (s, arg :: rest)
    | .stop => .ok (s, rest)
    | .malformed => .error (.malformed arg)
    | .flag name value =>
      match Flag.ofName? name with
      | none => .error (if name = "help" ∨ name = "h" then .help else .unknown name)
      | some f =>
        if f.isSwitch then
          match readSwitch? (value.getD "true") with
          | some b => readFlags rest (setSwitch s b f)
          | none => .error (.switchValue (value.getD "") name)
        else match value, rest with
          | some v, rest =>
            match setFlag s f v with
            | .ok s => readFlags rest s
            | .error e => .error (.badValue v name e)
          | none, v :: rest =>
            match setFlag s f v with
            | .ok s => readFlags rest s
            | .error e => .error (.badValue v name e)
          | none, [] => .error (.noValue name)

end VectorMachine.Cli
