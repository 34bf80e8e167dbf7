import TripleIndex.Error
import TripleIndex.Json.Reader
import TripleIndex.Json.Writer
import TripleIndex.Namespaces
import TripleIndex.Text.Blank

/-! # Settings

What an index is opened with, and the files that settings come from.
-/

namespace TripleIndex

open Json

structure Settings where
  indexKey : String := "index.jsonl"
  storagePath : String := "data/graphs"
  namespaces : Namespaces := .standard

namespace Namespaces

def record (ns : Namespaces) : List Char :=
  object (ns.toList.map fun p => member p.1 (string p.2))

/-- A later member redefines the prefix of an earlier one. -/
def reader : Reader Namespaces := fun t => (Reader.table Reader.string t).map ofList

/-- Reads a file of prefixes. No prefix of it may be empty. -/
def ofFile (path : String) (octets : List UInt8) : Except Error Namespaces :=
  match Text.Utf8.decode octets with
  | .error _ => .error .io
  | .ok cs =>
    match decode reader cs with
    | .error _ => .error .serialization
    | .ok ns => if (ns.expand? "").isSome then .error (.settings (.emptyPrefix path)) else .ok ns

end Namespaces

/-- An index key has to have a character that is not blank. -/
def checkIndexKey (key : String) : Except Error Unit :=
  if Text.allBlank key.toList then .error (.settings .blankIndexKey) else .ok ()

namespace Settings

def check (s : Settings) : Except Error Unit := checkIndexKey s.indexKey

def record (s : Settings) : List Char :=
  object [member "index_key" (string s.indexKey), member "storage_path" (string s.storagePath),
    member "namespaces" s.namespaces.record]

structure Draft where
  indexKey : Option String := none
  storagePath : Option String := none
  namespaces : Option Namespaces := none

def fields : List (Reader.Field Draft) := [
  Reader.field ["index_key"] (·.indexKey) (fun v d => { d with indexKey := some v })
    Reader.string,
  Reader.field ["storage_path"] (·.storagePath) (fun v d => { d with storagePath := some v })
    Reader.string,
  Reader.field ["namespaces"] (·.namespaces) (fun v d => { d with namespaces := some v })
    Namespaces.reader]

/-- What is not given is as in the default settings. -/
def reader : Reader Settings :=
  Reader.record fields {} fun d =>
    let standard : Settings := {}
    some ⟨d.indexKey.getD standard.indexKey, d.storagePath.getD standard.storagePath,
      d.namespaces.getD standard.namespaces⟩

end Settings

end TripleIndex
