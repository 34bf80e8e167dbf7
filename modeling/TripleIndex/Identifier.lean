import TripleIndex.Term

/-! # Resource identifiers

An identifier names the resource that triples are filed under: a kind, a name, and a reference to
the parent resource. Its rendering is a path from the outermost ancestor. Two identifiers are the
same if they render alike; tokens and score take no part in that.
-/

namespace TripleIndex

structure Identifier where
  kind : String
  name : String
  parent : Option String := none
  tokens : Option UInt64 := none
  score : Option Float := none
deriving Repr, Inhabited

/-- The text behind the last occurrence of a mark. -/
def afterLast (mark : Char) (cs : List Char) : List Char :=
  (cs.reverse.takeWhile (· ≠ mark)).reverse

/-- The non-empty pieces between slashes. -/
def pathSegments (cs : List Char) : List (List Char) :=
  (cs.splitOn '/').filter fun s => !s.isEmpty

namespace Identifier

/-- The reference to the parent, if there is one: an empty text and the word `undefined` refer to
nothing. -/
def parentReference (i : Identifier) : Option String :=
  i.parent.filter fun p => p ≠ "" ∧ p ≠ "undefined"

/-- Ancestors of the resource, outermost first. A reference may begin with a scheme that ends in a
colon. -/
def ancestors (i : Identifier) : List (List Char) :=
  match i.parentReference with
  | none => []
  | some p => pathSegments (afterLast ':' p.toList)

/-- The last piece of the path. -/
def ownSegment (i : Identifier) : List Char := i.kind.toList ++ '.' :: i.name.toList

def path (i : Identifier) : List Char :=
  i.ancestors.flatMap (fun s => s ++ ['/']) ++ i.ownSegment

/-- The text that identifies the resource. -/
def rendering (i : Identifier) : String := String.ofList i.path

/-- Both identify one resource. -/
def Same (i j : Identifier) : Prop := i.rendering = j.rendering

instance (i j : Identifier) : Decidable (Same i j) :=
  inferInstanceAs (Decidable (i.rendering = j.rendering))

/-- An unknown count of tokens is none. -/
def tokenCount (i : Identifier) : UInt64 := i.tokens.getD 0

end Identifier

end TripleIndex
