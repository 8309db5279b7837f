/-!
# Sinks

A sink takes text.  What it takes may stay pending until it is flushed.  Text for several sinks
goes to every one of them, also after one has failed.
-/

namespace VectorMachine
set_option autoImplicit false

namespace Sink

/-- What a sink holds: text that waits for a flush, and text that has arrived. -/
structure Content where
  pending : String := ""
  received : String := ""
  deriving DecidableEq, Repr, Inhabited

inductive Error where
  | failed (text : String)
  /-- Fewer bytes were taken than given. -/
  | short
  deriving DecidableEq, Repr

def Error.message : Error → String
  | .failed text => text
  | .short => "short write"

end Sink

/-- A sink with its way to write, which tells how many bytes it took, and its way to flush. -/
structure Sink where
  content : Sink.Content := {}
  onWrite : Sink.Content → String → Except Sink.Error Nat × Sink.Content
  onFlush : Sink.Content → Except Sink.Error Unit × Sink.Content

namespace Sink

/-- Takes everything and keeps nothing. -/
def discarding : Sink where
  onWrite c text := (.ok text.utf8ByteSize, c)
  onFlush c := (.ok (), c)

/-- Text arrives as it is written. -/
def immediate : Sink where
  onWrite c text := (.ok text.utf8ByteSize, { c with received := c.received ++ text })
  onFlush c := (.ok (), c)

/-- Text arrives when the sink is flushed. -/
def buffered : Sink where
  onWrite c text := (.ok text.utf8ByteSize, { c with pending := c.pending ++ text })
  onFlush c := (.ok (), { pending := "", received := c.received ++ c.pending })

def write (s : Sink) (text : String) : Except Error Nat × Sink :=
  let (r, c) := s.onWrite s.content text
  (r, { s with content := c })

def flush (s : Sink) : Except Error Unit × Sink :=
  let (r, c) := s.onFlush s.content
  (r, { s with content := c })

/-- The error of a sink among several, which has to take all of the text. -/
def shortfall (text : String) : Except Error Nat → Option Error
  | .ok n => if n = text.utf8ByteSize then none else some .short
  | .error e => some e

/-- Writes to every sink.  A sink on its own answers for itself; of several, the first error
counts. -/
def writeAll (sinks : List Sink) (text : String) : Except Error Nat × List Sink :=
  match sinks with
  | [s] =>
    let (r, s) := s.write text
    (r, [s])
  | _ =>
    let written := sinks.map (·.write text)
    let r := match written.findSome? fun (r, _) => shortfall text r with
      | some e => .error e
      | none => .ok text.utf8ByteSize
    (r, written.map (·.2))

/-- Flushes every sink; the first error counts. -/
def flushAll (sinks : List Sink) : Except Error Unit × List Sink :=
  let flushed := sinks.map flush
  let failed := flushed.findSome? fun
    | (.error e, _) => some e
    | (.ok _, _) => none
  (failed.elim (.ok ()) .error, flushed.map (·.2))

/-- Writes pieces of text up to the first that fails. -/
def writePieces : List Sink → List String → Except Error Unit × List Sink
  | sinks, [] => (.ok (), sinks)
  | sinks, text :: rest =>
    match writeAll sinks text with
    | (.ok _, sinks) => writePieces sinks rest
    | (.error e, sinks) => (.error e, sinks)

end Sink

end VectorMachine
