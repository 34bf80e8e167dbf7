import TripleIndex.Text.Percent

/-! # Form data in query strings

Pairs of a name and a value, separated by ampersands. The first equals sign of a pair parts the two,
and a pair without one has an empty value. A plus stands for a space; everything else is
percent-encoded UTF-8, in which faults are replaced.
-/

namespace TripleIndex.Http.Form

open Text

def unplus (b : UInt8) : UInt8 := if b = 0x2B then 0x20 else b

/-- The text that part of a pair spells. -/
def spelled (cs : List Char) : String :=
  String.ofList (Utf8.decodeLossy (Percent.decode ((Utf8.encode cs).map unplus)))

def pair (cs : List Char) : String × String :=
  (spelled (cs.takeWhile (· ≠ '=')), spelled ((cs.dropWhile (· ≠ '=')).drop 1))

/-- The pairs of a query string. -/
def pairs (query : List Char) : List (String × String) :=
  ((query.splitOn '&').filter fun p => !p.isEmpty).map pair

end TripleIndex.Http.Form
