import TripleIndex.Dictionary
import TripleIndex.Pattern

/-! # Triple stores

A store keeps triples as rows of numbers, in the order of insertion and as often as they are
inserted. For each position and number it keeps the posting list of the rows that have the number
there, so that a query only looks at the shortest list of its bound positions.
-/

namespace TripleIndex

/-- Row positions by number. -/
abbrev Postings := Std.TreeMap UInt32 (Array Nat)

namespace Postings

def find (p : Postings) (id : UInt32) : Array Nat := p.getD id #[]

def push (p : Postings) (id : UInt32) (position : Nat) : Postings :=
  p.insert id ((p.find id).push position)

end Postings

structure TripleStore where
  dictionary : Dictionary
  rows : Array Row
  bySubject : Postings
  byPredicate : Postings
  byObject : Postings

/-- Numbers that a row has to have, where they are given. -/
structure RowPattern where
  subject : Option UInt32
  predicate : Option UInt32
  object : Option UInt32
deriving DecidableEq, Repr

namespace RowPattern

def admits (wanted : Option UInt32) (id : UInt32) : Bool :=
  match wanted with
  | none => true
  | some w => id = w

def holds (p : RowPattern) (r : Row) : Bool :=
  admits p.subject r.subject && admits p.predicate r.predicate && admits p.object r.object

end RowPattern

/-- The first of the shortest lists. -/
def shortestOf {α : Type} : List (Array α) → Option (Array α)
  | [] => none
  | l :: ls =>
    match shortestOf ls with
    | none => some l
    | some m => if l.size ≤ m.size then some l else some m

namespace TripleStore

def empty : TripleStore := ⟨.empty, #[], ∅, ∅, ∅⟩

def insert (s : TripleStore) (t : Triple) : TripleStore :=
  let e := s.dictionary.encodeTriple t
  let row := e.1
  let position := s.rows.size
  { dictionary := e.2
    rows := s.rows.push row
    bySubject := s.bySubject.push row.subject position
    byPredicate := s.byPredicate.push row.predicate position
    byObject := s.byObject.push row.object position }

def addTriple (s : TripleStore) (subject predicate object : Term) : TripleStore :=
  s.insert ⟨subject, predicate, object⟩

/-- Removes every triple, and forgets the terms with their numbers. -/
def clear (s : TripleStore) : TripleStore :=
  { s with
    dictionary := s.dictionary.clear
    rows := #[]
    bySubject := ∅
    byPredicate := ∅
    byObject := ∅ }

@[simp] theorem clear_eq_empty (s : TripleStore) : s.clear = empty := rfl

def insertMany (s : TripleStore) (ts : List Triple) : TripleStore := ts.foldl insert s

def size (s : TripleStore) : Nat := s.rows.size

def termCount (s : TripleStore) : Nat := s.dictionary.size

def isEmpty (s : TripleStore) : Bool := s.rows.isEmpty

/-- The triples of the store in the order of insertion. -/
def toList (s : TripleStore) : List Triple := s.rows.toList.filterMap s.dictionary.decodeRow?

/-- The number of a wanted term; `none` if the store does not have the term. -/
def bind? (d : Dictionary) : Option Term → Option (Option UInt32)
  | none => some none
  | some t => (d.lookup? t).map some

/-- The numbers of a pattern; `none` if a term of it is not in the store. -/
def rowPattern? (s : TripleStore) (p : TermPattern) : Option RowPattern := do
  let subject ← bind? s.dictionary p.subject
  let predicate ← bind? s.dictionary p.predicate
  let object ← bind? s.dictionary p.object
  return ⟨subject, predicate, object⟩

/-- The posting lists of the bound positions. -/
def postings (s : TripleStore) (p : RowPattern) : List (Array Nat) :=
  [p.subject.map s.bySubject.find, p.predicate.map s.byPredicate.find,
    p.object.map s.byObject.find].filterMap id

/-- The rows that a query looks at. -/
def candidates (s : TripleStore) (p : RowPattern) : List Row :=
  match shortestOf (s.postings p) with
  | some list => list.toList.filterMap fun i => s.rows[i]?
  | none => s.rows.toList

/-- The triples that match a pattern, in the order of insertion. -/
def query (s : TripleStore) (p : TermPattern) : List Triple :=
  match s.rowPattern? p with
  | none => []
  | some rp => ((s.candidates rp).filter rp.holds).filterMap s.dictionary.decodeRow?

end TripleStore

end TripleIndex
