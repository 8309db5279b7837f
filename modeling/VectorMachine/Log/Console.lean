import VectorMachine.Log.Record
import VectorMachine.Text.Quoted

/-!
# Records on a console

A record is a line with its level, its message and its fields by name.
-/

namespace VectorMachine.Log
set_option autoImplicit false

def Level.mark : Level → String
  | .debug => "DBG"
  | .info => "INF"
  | .error => "ERR"

/-- Whether a value stands between quotes: it has blanks, quotes, or characters that are not
plain. -/
def needsQuotes (s : String) : Bool :=
  s.any fun c => c.toNat ≤ 0x20 || 0x7e < c.toNat || c == '\\' || c == '"'

def fieldText (name value : String) : String :=
  " " ++ name ++ "=" ++ if needsQuotes value then Text.quote value else value

def Record.consoleLine (r : Record) : String :=
  r.level.mark ++ " " ++ r.message ++
    String.join ((r.fields.mergeSort fun a b => a.1 ≤ b.1).map fun (k, v) => fieldText k v) ++ "\n"

def Records.consoleText (l : Records) : String :=
  String.join (l.records.toList.map Record.consoleLine)

end VectorMachine.Log
