import VectorMachine.Log.Trace
import VectorMachine.Text.Format

/-!
# Channels

A channel is a log that can be off.  Its lines start with a mark, as those of a trace do, and a
lead can be put in front of them for a while.
-/

namespace VectorMachine.Log
set_option autoImplicit false

structure Channel where
  /-- What stands in front of the pattern of every line, nothing if the channel is off. -/
  lead : Option String := none
  /-- The width of the widest mark so far. -/
  width : Nat := 0
  deriving DecidableEq, Repr, Inhabited

namespace Channel

def isEnabled (c : Channel) : Bool := c.lead.isSome

def enable (c : Channel) : Channel := { c with lead := some "" }

def disable (c : Channel) : Channel := { c with lead := none }

/-- Adds a lead and gives the way back to the leads before; on a channel that is off, both change
nothing. -/
def withLead (c : Channel) (text : String) : Channel × (Channel → Channel) :=
  match c.lead with
  | none => (c, id)
  | some before =>
    ({ c with lead := some (before ++ text) }, fun later => { later with lead := some before })

/-- Writes a line behind a mark; the result has the line, if the channel is on. -/
def write (c : Channel) (mark pattern : String) (args : List String) : Option String × Channel :=
  match c.lead with
  | none => (none, c)
  | some lead =>
    let text := Text.format (lead ++ "%v %v") [paddedMark c.width mark, Text.formatAny pattern args]
    (some text, { c with width := max c.width mark.utf8ByteSize })

end Channel

end VectorMachine.Log
