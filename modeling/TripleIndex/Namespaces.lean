import Std.Data.TreeMap

/-! # Namespaces

A table from prefixes to the namespaces that they abbreviate.
-/

namespace TripleIndex

structure Namespaces where
  table : Std.TreeMap String String

namespace Namespaces

def empty : Namespaces := ⟨∅⟩

/-- The table with one more prefix, or with a prefix redefined. -/
def insert (ns : Namespaces) (pre iri : String) : Namespaces :=
  ⟨ns.table.insert pre iri⟩

/-- Adds pairs one by one, so a later pair redefines the prefix of an earlier one. -/
def insertMany (ns : Namespaces) (pairs : List (String × String)) : Namespaces :=
  pairs.foldl (fun ns p => ns.insert p.1 p.2) ns

def ofList (pairs : List (String × String)) : Namespaces := empty.insertMany pairs

/-- The namespace that a prefix stands for. -/
def expand? (ns : Namespaces) (pre : String) : Option String := ns.table[pre]?

/-- Pairs in the order of their prefixes. -/
def toList (ns : Namespaces) : List (String × String) := ns.table.toList

def size (ns : Namespaces) : Nat := ns.table.size

def isEmpty (ns : Namespaces) : Bool := ns.table.isEmpty

/-- The prefixes known unless a table is given. -/
def standardPairs : List (String × String) := [
  ("schema", "https://schema.org/"),
  ("rdf", "http://www.w3.org/1999/02/22-rdf-syntax-ns#"),
  ("rdfs", "http://www.w3.org/2000/01/rdf-schema#"),
  ("foaf", "http://xmlns.com/foaf/0.1/"),
  ("ex", "https://example.invalid/")]

def standard : Namespaces := ofList standardPairs

theorem expand?_insert (ns : Namespaces) (p q n : String) :
    (ns.insert p n).expand? q = if p = q then some n else ns.expand? q := by
  simp [expand?, insert, Std.TreeMap.getElem?_insert]

end Namespaces

end TripleIndex
