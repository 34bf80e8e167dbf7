import TripleIndex.Iri
import TripleIndex.Resolution

/-! # N-Triples

One line per triple. A triple whose subject and predicate are valid IRIs, and whose object is a
literal or one as well, is written in N-Triples; any other triple is displayed as it is.
-/

namespace TripleIndex

open Text

namespace NTriples

/-- A character inside a literal: six letters behind a backslash, the quote and the backslash
escaped, and code points for the other control characters and the two noncharacters that end the
first plane. -/
def escape (c : Char) : List Char :=
  if c = '\x08' then ['\\', 'b']
  else if c = '\t' then ['\\', 't']
  else if c = '\n' then ['\\', 'n']
  else if c = '\x0c' then ['\\', 'f']
  else if c = '\r' then ['\\', 'r']
  else if c = '"' ∨ c = '\\' then ['\\', c]
  else if c.toNat < 0x20 ∨ c.toNat = 0x7F ∨ c.toNat = 0xFFFE ∨ c.toNat = 0xFFFF then
    ['\\', 'u'] ++ fourHex upperHex c.toNat
  else [c]

def term : Term → List Char
  | .iri v => '<' :: v.toList ++ ['>']
  | .literal v => '"' :: v.toList.flatMap escape ++ ['"']

def triple (t : Triple) : List Char :=
  term t.subject ++ ' ' :: term t.predicate ++ ' ' :: term t.object ++ [' ', '.']

end NTriples

namespace Term

/-- An IRI that is valid as one. -/
def isValidIri : Term → Bool
  | .iri v => Iri.isAbsolute v.toList
  | .literal _ => false

end Term

namespace Triple

/-- Whether N-Triples can express the triple. -/
def isExpressible (t : Triple) : Bool :=
  t.subject.isValidIri && t.predicate.isValidIri && (t.object.isValidIri || !t.object.isIri)

/-- The line of a triple, without the line feed. -/
def line (t : Triple) : List Char := if t.isExpressible then NTriples.triple t else t.display

/-- The lines of triples, each with its line feed. -/
def lines (ts : List Triple) : List Char := ts.flatMap fun t => t.line ++ ['\n']

end Triple

end TripleIndex
