import TripleIndex.Entries
import TripleIndex.Log
import TripleIndex.Settings
import TripleIndex.Storage.Basic

/-! # Catalogs

A catalog holds entries in memory and keeps a log of them under one storage key. Loading replays the
log; adding appends to the log first, and only then changes the entries. Whatever fails leaves the
entries as they are.
-/

namespace TripleIndex

structure Catalog where
  key : String
  entries : Entries := .empty
  /-- Whether the log has been read. -/
  loaded : Bool := false

namespace Catalog

/-- A catalog whose log has not been read. -/
def create (key : String) : Except Error Catalog :=
  match checkIndexKey key with
  | .error e => .error e
  | .ok () => .ok { key := key }

/-- The entries that the log records. No log records none. -/
def replay (c : Catalog) (a : Access) : Except Error Entries :=
  match a.contains c.key with
  | .error f => .error (.storage f)
  | .ok false => .ok .empty
  | .ok true =>
    match a.read c.key with
    | .error f => .error (.storage f)
    | .ok octets => (Log.read Entry.reader (octets.getD [])).map Entries.ofList

def load (c : Catalog) (a : Access) : Except Error Catalog :=
  (c.replay a).map fun es => { c with entries := es, loaded := true }

/-- Adds an entry, and tells whether it replaced one. -/
def add (c : Catalog) (a : Access) (e : Entry) : Except Error Bool × Catalog × Access :=
  let written := a.append c.key (Log.octets e.keyed)
  match written.1 with
  | .error f => (.error (.storage f), c, written.2)
  | .ok () => (.ok (c.entries.has e.keyed.id), { c with entries := c.entries.put e }, written.2)

end Catalog

end TripleIndex
