/-!
# Lines from pieces

Text that comes in pieces is cut into lines; the start of a line waits for its end.
-/

namespace VectorMachine.Log
set_option autoImplicit false

/-- The start of a line whose end has not come yet. -/
structure LineBuffer where
  pending : List Char := []
  deriving DecidableEq, Repr, Inhabited

/-- The complete lines of a text and the rest behind them. -/
def splitLines : List Char → List Char → List String × List Char
  | pending, [] => ([], pending)
  | pending, c :: r =>
    if c = '\n' then
      let (lines, rest) := splitLines [] r
      (String.ofList pending :: lines, rest)
    else splitLines (pending ++ [c]) r

namespace LineBuffer

/-- Takes a piece and gives the lines that it completes. -/
def write (b : LineBuffer) (text : String) : List String × LineBuffer :=
  let (lines, rest) := splitLines b.pending text.toList
  (lines, ⟨rest⟩)

/-- Gives what is pending as a last line, if there is anything. -/
def close (b : LineBuffer) : List String × LineBuffer :=
  (if b.pending.isEmpty then [] else [String.ofList b.pending], {})

end LineBuffer

/-- The lines of a text; an unfinished last one is left out. -/
def completeLines (text : String) : List String := (LineBuffer.write {} text).1

end VectorMachine.Log
