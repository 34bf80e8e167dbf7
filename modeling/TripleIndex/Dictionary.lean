import TripleIndex.Term

/-! # Term dictionaries

A dictionary numbers terms in the order of their first appearance. Numbers are 32 bits wide, so they
are dense and distinct for the first 2^32 terms.
-/

namespace TripleIndex

structure Dictionary where
  ids : Std.TreeMap Term UInt32
  terms : Array Term

/-- A triple of numbers. -/
structure Row where
  subject : UInt32
  predicate : UInt32
  object : UInt32
deriving DecidableEq, Repr, Inhabited

namespace Dictionary

def empty : Dictionary := ⟨∅, #[]⟩

/-- The number of a term, which is the next one if the term is new. -/
def encode (d : Dictionary) (t : Term) : UInt32 × Dictionary :=
  match d.ids[t]? with
  | some id => (id, d)
  | none =>
    let id := UInt32.ofNat d.terms.size
    (id, ⟨d.ids.insert t id, d.terms.push t⟩)

/-- The number of a term that the dictionary has. -/
def lookup? (d : Dictionary) (t : Term) : Option UInt32 := d.ids[t]?

def decode? (d : Dictionary) (id : UInt32) : Option Term := d.terms[id.toNat]?

def size (d : Dictionary) : Nat := d.terms.size

def isEmpty (d : Dictionary) : Bool := d.terms.isEmpty

/-- Forgets all terms and their numbers. -/
def clear (d : Dictionary) : Dictionary := { d with ids := ∅, terms := #[] }

@[simp] theorem clear_eq_empty (d : Dictionary) : d.clear = empty := rfl

/-- Numbers the terms of a triple, subject first. -/
def encodeTriple (d : Dictionary) (t : Triple) : Row × Dictionary :=
  let s := d.encode t.subject
  let p := s.2.encode t.predicate
  let o := p.2.encode t.object
  (⟨s.1, p.1, o.1⟩, o.2)

def decodeRow? (d : Dictionary) (r : Row) : Option Triple := do
  let s ← d.decode? r.subject
  let p ← d.decode? r.predicate
  let o ← d.decode? r.object
  return ⟨s, p, o⟩

def displayId (d : Dictionary) (id : UInt32) : List Char :=
  match d.decode? id with
  | some t => t.display
  | none => "unknown".toList

/-- The terms of a row between parentheses, `unknown` for a number that was not issued. -/
def displayRow (d : Dictionary) (r : Row) : List Char :=
  '(' :: d.displayId r.subject ++ [',', ' '] ++ d.displayId r.predicate ++ [',', ' '] ++
    d.displayId r.object ++ [')']

end Dictionary

end TripleIndex
