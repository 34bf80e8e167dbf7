import TripleIndex.Entry
import TripleIndex.Record.Statement

/-! # Records of identifiers, entries and submissions -/

namespace TripleIndex

open Json

namespace Identifier

/-- Members that are not set are left out. -/
def record (i : Identifier) : List Char :=
  Json.object ([member "type" (string i.kind), member "name" (string i.name)] ++
    member? "parent" (i.parent.map string) ++ member? "tokens" (i.tokens.map natural) ++
    member? "score" (i.score.map float))

structure Draft where
  kind : Option String := none
  name : Option String := none
  parent : Option (Option String) := none
  tokens : Option (Option UInt64) := none
  score : Option (Option Float) := none

def fields : List (Reader.Field Draft) := [
  Reader.field ["type"] (·.kind) (fun v d => { d with kind := some v }) Reader.string,
  Reader.field ["name"] (·.name) (fun v d => { d with name := some v }) Reader.string,
  Reader.field ["parent"] (·.parent) (fun v d => { d with parent := some v })
    (Reader.nullable Reader.string),
  Reader.field ["tokens"] (·.tokens) (fun v d => { d with tokens := some v })
    (Reader.nullable Reader.natural),
  Reader.field ["score"] (·.score) (fun v d => { d with score := some v })
    (Reader.nullable Reader.float)]

def reader : Reader Identifier :=
  Reader.record fields {} fun d =>
    match d.kind, d.name with
    | some k, some n => some ⟨k, n, d.parent.join, d.tokens.join, d.score.join⟩
    | _, _ => none

end Identifier

namespace Entry

def record (e : Entry) : List Char :=
  Json.object [member "id" (string e.id), member "identifier" e.identifier.record,
    member "triples" (array (e.statements.map Statement.record))]

structure Draft where
  id : Option String := none
  identifier : Option Identifier := none
  statements : Option (List Statement) := none

def fields : List (Reader.Field Draft) := [
  Reader.field ["id"] (·.id) (fun v d => { d with id := some v }) Reader.string,
  Reader.field ["identifier"] (·.identifier) (fun v d => { d with identifier := some v })
    Identifier.reader,
  Statement.listField (·.statements) fun v d => { d with statements := some v }]

/-- No statements need to be listed. -/
def reader : Reader Entry :=
  Reader.record fields {} fun d =>
    match d.id, d.identifier with
    | some id, some i => some ⟨id, i, d.statements.getD []⟩
    | _, _ => none

end Entry

namespace Submission

structure Draft where
  identifier : Option Identifier := none
  statements : Option (List Statement) := none

def fields : List (Reader.Field Draft) := [
  Reader.field ["identifier"] (·.identifier) (fun v d => { d with identifier := some v })
    Identifier.reader,
  Statement.listField (·.statements) fun v d => { d with statements := some v }]

def reader : Reader Submission :=
  Reader.record fields {} fun d => d.identifier.map fun i => ⟨i, d.statements.getD []⟩

end Submission

end TripleIndex
