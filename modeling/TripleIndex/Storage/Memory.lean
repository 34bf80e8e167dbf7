import TripleIndex.Error
import Std.Data.TreeMap

/-! # Memory

Octets under keys of any kind, gone with the process.
-/

namespace TripleIndex

structure Memory where
  cells : Std.TreeMap String (List UInt8) := ∅

namespace Memory

def contains (m : Memory) (key : String) : Bool := m.cells.contains key

def read (m : Memory) (key : String) : Option (List UInt8) := m.cells[key]?

def put (m : Memory) (key : String) (octets : List UInt8) : Memory :=
  ⟨m.cells.insert key octets⟩

/-- Adds octets behind those of a key, if it has any. -/
def append (m : Memory) (key : String) (octets : List UInt8) : Memory :=
  m.put key ((m.read key).getD [] ++ octets)

/-- The keys that begin with a text, in order. -/
def find (m : Memory) (pre : String) : List String :=
  m.cells.keys.filter fun key => pre.toList.isPrefixOf key.toList

theorem read_put (m : Memory) (k l : String) (octets : List UInt8) :
    (m.put k octets).read l = if k = l then some octets else m.read l := by
  simp [read, put, Std.TreeMap.getElem?_insert]

theorem read_append (m : Memory) (k l : String) (octets : List UInt8) :
    (m.append k octets).read l =
      if k = l then some ((m.read k).getD [] ++ octets) else m.read l := by
  simp [append, read_put]

end Memory

end TripleIndex
