import VectorMachine.Fault

/-!
# Recovery

A computation that raises something instead of returning is stopped; the report of it names the
computation and what was raised.
-/

namespace VectorMachine.Recovery
set_option autoImplicit false

/-- What can be raised. -/
inductive Raised where
  | fault (f : Fault)
  | error (text : String)
  | text (s : String)
  | number (n : Int)
  deriving DecidableEq, Repr

def Raised.message : Raised → String
  | .fault f => f.message
  | .error s | .text s => s
  | .number n => toString n

/-- Whether what was raised is an error in itself. -/
def Raised.isError : Raised → Bool
  | .fault _ | .error _ => true
  | .text _ | .number _ => false

def message (name raised : String) : String :=
  if name = "" then "paniced: " ++ raised else name ++ " paniced: " ++ raised

inductive Report where
  | plain (text : String)
  | recovered (name : String) (r : Raised)
  /-- A report passed on with a word about where. -/
  | within (place : String) (inner : Report)
  deriving DecidableEq, Repr

namespace Report

def message : Report → String
  | .plain text => text
  | .recovered name r => Recovery.message name r.message
  | .within place inner => place ++ ": " ++ inner.message

/-- What was raised, if the report comes from a recovery. -/
def raised? : Report → Option Raised
  | .plain _ => none
  | .recovered _ r => some r
  | .within _ inner => inner.raised?

def isRecovered (r : Report) : Bool := r.raised?.isSome

def isFault (r : Report) : Bool :=
  match r.raised? with
  | some (.fault _) => true
  | _ => false

/-- Whether there is an error inside of the report. -/
def hasInner : Report → Bool
  | .plain _ => false
  | .recovered _ r => r.isError
  | .within _ _ => true

/-- Whether a detailed report shows where the computation stopped: only the recovery itself
knows. -/
def showsPlace : Report → Bool
  | .recovered _ _ => true
  | .plain _ | .within _ _ => false

end Report

/-- The outcome of a computation: it returns, fails, or raises something that is recovered. -/
inductive Outcome where
  | returned
  | failed (r : Report)
  | raised (r : Raised)

/-- The report of a computation with a name, none if it returns. -/
def recover (name : String) : Outcome → Option Report
  | .returned => none
  | .failed r => some r
  | .raised r => some (.recovered name r)

end VectorMachine.Recovery
