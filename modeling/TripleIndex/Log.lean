import TripleIndex.Record.Entry
import TripleIndex.Text.Lines
import TripleIndex.Text.Blank

/-! # Logs

A log is UTF-8 text with one JSON record per line. Blank lines mean nothing. A log in which one line
is not a record of its shape is refused as a whole.
-/

namespace TripleIndex.Log

open Text

/-- The lines that hold records. -/
def recordLines (cs : List Char) : List (List Char) := (lines cs).filter fun l => !allBlank l

def readLine {α : Type} (reader : Json.Reader α) (line : List Char) : Except Error α :=
  match Json.decode reader line with
  | .ok a => .ok a
  | .error _ => .error .serialization

/-- The records of a log. -/
def read {α : Type} (reader : Json.Reader α) (octets : List UInt8) : Except Error (List α) :=
  match Utf8.decode octets with
  | .error f => .error (.storage (.notText f))
  | .ok cs => (recordLines cs).mapM (readLine reader)

/-- The line of an entry, with its line feed. -/
def line (e : Entry) : List Char := e.record ++ ['\n']

/-- What an entry adds to a log. -/
def octets (e : Entry) : List UInt8 := Utf8.encode (line e)

end TripleIndex.Log
