import TripleIndex.Storage.Directory
import TripleIndex.Storage.Memory

/-! # Storage

Octets under keys, in memory or in a directory. An index reaches its storage by an access, which can
refuse calls of a kind before the storage sees them.
-/

namespace TripleIndex

inductive Storage where
  | memory (cells : Memory)
  | directory (files : Directory)

namespace Storage

def contains (s : Storage) (key : String) : Except StorageFault Bool :=
  match s with
  | .memory m => .ok (m.contains key)
  | .directory d => d.contains key

def read (s : Storage) (key : String) : Except StorageFault (Option (List UInt8)) :=
  match s with
  | .memory m => .ok (m.read key)
  | .directory d => d.read key

def put (s : Storage) (key : String) (octets : List UInt8) : Except StorageFault Unit × Storage :=
  match s with
  | .memory m => (.ok (), .memory (m.put key octets))
  | .directory d => let r := d.put key octets; (r.1, .directory r.2)

def append (s : Storage) (key : String) (octets : List UInt8) :
    Except StorageFault Unit × Storage :=
  match s with
  | .memory m => (.ok (), .memory (m.append key octets))
  | .directory d => let r := d.append key octets; (r.1, .directory r.2)

/-- The keys that begin with a text, in order, where directories are listed in a given way. -/
def findBy (s : Storage) (e : FileTree.Enumeration) (pre : String) :
    Except StorageFault (List String) :=
  match s with
  | .memory m => .ok (m.find pre)
  | .directory d => d.find e pre

def find (s : Storage) (pre : String) : Except StorageFault (List String) :=
  s.findBy .byName pre

end Storage

structure Access where
  storage : Storage
  refused : List Call := []

namespace Access

/-- Lets a call through, or refuses it. -/
def permit (a : Access) (call : Call) (key : String) : Except StorageFault Unit :=
  if a.refused.contains call then .error (.refused call key) else .ok ()

def contains (a : Access) (key : String) : Except StorageFault Bool :=
  match a.permit .check key with
  | .error e => .error e
  | .ok () => a.storage.contains key

def read (a : Access) (key : String) : Except StorageFault (Option (List UInt8)) :=
  match a.permit .read key with
  | .error e => .error e
  | .ok () => a.storage.read key

def append (a : Access) (key : String) (octets : List UInt8) :
    Except StorageFault Unit × Access :=
  match a.permit .append key with
  | .error e => (.error e, a)
  | .ok () => let r := a.storage.append key octets; (r.1, { a with storage := r.2 })

end Access

end TripleIndex
