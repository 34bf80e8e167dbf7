import TripleIndex.Entry
import Std.Data.TreeMap

/-! # Lists of entries

Entries in the order in which their ids appeared first. Each is keyed by its identifier when it is
put into the list; it takes the place of the entry with the same id, or the place behind the last.
-/

namespace TripleIndex

structure Entries where
  items : Array Entry
  /-- Where the entry of an id stands. -/
  positions : Std.TreeMap String Nat

namespace Entries

def empty : Entries := ⟨#[], ∅⟩

def has (es : Entries) (id : String) : Bool := es.positions.contains id

def get? (es : Entries) (id : String) : Option Entry := do
  let position ← es.positions[id]?
  es.items[position]?

def put (es : Entries) (e : Entry) : Entries :=
  match es.positions[e.keyed.id]? with
  | some position => { es with items := es.items.setIfInBounds position e.keyed }
  | none => ⟨es.items.push e.keyed, es.positions.insert e.keyed.id es.items.size⟩

def putMany (es : Entries) (list : List Entry) : Entries := list.foldl put es

def ofList (list : List Entry) : Entries := empty.putMany list

def toList (es : Entries) : List Entry := es.items.toList

def size (es : Entries) : Nat := es.items.size

def isEmpty (es : Entries) : Bool := es.items.isEmpty

@[simp] theorem toList_empty : empty.toList = [] := rfl

@[simp] theorem putMany_nil (es : Entries) : es.putMany [] = es := rfl

@[simp] theorem putMany_cons (es : Entries) (e : Entry) (list : List Entry) :
    es.putMany (e :: list) = (es.put e).putMany list := rfl

theorem putMany_append (es : Entries) (l m : List Entry) :
    es.putMany (l ++ m) = (es.putMany l).putMany m := List.foldl_append

end Entries

end TripleIndex
