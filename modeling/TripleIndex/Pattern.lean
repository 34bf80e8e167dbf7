import TripleIndex.Term

/-! # Patterns

A pattern asks for triples: each position holds a spelled term, or is free. Some spellings leave a
position free, too. A term pattern is a pattern whose spelled terms have been resolved.
-/

namespace TripleIndex

structure Pattern where
  subject : Option String := none
  predicate : Option String := none
  object : Option String := none
deriving DecidableEq, Repr, Inhabited

/-- Spellings that leave a position free. -/
def wildcards : List String := ["", "?", "*", "_", "null", "NULL"]

def isWildcard : Option String → Bool
  | none => true
  | some s => wildcards.contains s

/-- The spelling, unless it leaves the position free. -/
def spelled (position : Option String) : Option String :=
  position.filter fun s => !isWildcard (some s)

namespace Pattern

/-- Frees the positions that are spelled as free. -/
def normalize (p : Pattern) : Pattern where
  subject := spelled p.subject
  predicate := spelled p.predicate
  object := spelled p.object

end Pattern

/-- The pattern that asks for a statement as spelled. -/
def Statement.toPattern (s : Statement) : Pattern where
  subject := some s.subject
  predicate := some s.predicate
  object := some s.object

structure TermPattern where
  subject : Option Term := none
  predicate : Option Term := none
  object : Option Term := none
deriving DecidableEq, Repr, Inhabited

end TripleIndex
