/-!
# Traces

A trace is a sequence of lines.  Each line starts with a mark, such as an instruction address;
marks are filled up on the left with their first character to the width of the widest mark so
far, so that the texts line up.
-/

namespace VectorMachine.Log
set_option autoImplicit false

/-- A mark filled up to `width` bytes. -/
def paddedMark (width : Nat) (mark : String) : String :=
  match mark.toList with
  | [] => mark
  | c :: _ => String.ofList (List.replicate (width - mark.utf8ByteSize) c) ++ mark

/-- The lines of a trace, none if tracing is off. -/
structure Trace where
  enabled : Bool := false
  lines : Array String := #[]
  deriving Inhabited, Repr

namespace Trace

def line (width : Nat) (mark text : String) : String := paddedMark width mark ++ " " ++ text

/-- Adds a line behind a mark; `width` is that of the widest mark before, and the result has that
of the widest mark so far. -/
def add (t : Trace) (width : Nat) (mark text : String) : Nat × Trace :=
  if t.enabled then
    (max width mark.utf8ByteSize, { t with lines := t.lines.push (line width mark text) })
  else (width, t)

end Trace

end VectorMachine.Log
