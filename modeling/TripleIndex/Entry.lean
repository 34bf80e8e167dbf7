import TripleIndex.Identifier
import TripleIndex.Error

/-! # Entries

An entry files statements under an identifier. Its id is the rendering of the identifier, except in
records that somebody else has written.
-/

namespace TripleIndex

/-- What is handed in to be filed. -/
structure Submission where
  identifier : Identifier
  statements : List Statement
deriving Repr, Inhabited

structure Entry where
  id : String
  identifier : Identifier
  statements : List Statement
deriving Repr, Inhabited

namespace Entry

def ofSubmission (s : Submission) : Entry := ⟨s.identifier.rendering, s.identifier, s.statements⟩

/-- The entry with the id that belongs to its identifier. -/
def keyed (e : Entry) : Entry := { e with id := e.identifier.rendering }

@[simp] theorem keyed_id (e : Entry) : e.keyed.id = e.identifier.rendering := rfl
@[simp] theorem keyed_identifier (e : Entry) : e.keyed.identifier = e.identifier := rfl
@[simp] theorem keyed_statements (e : Entry) : e.keyed.statements = e.statements := rfl
@[simp] theorem keyed_keyed (e : Entry) : e.keyed.keyed = e.keyed := rfl

@[simp] theorem keyed_ofSubmission (s : Submission) : (ofSubmission s).keyed = ofSubmission s := rfl

end Entry

namespace Identifier

/-- Refuses an identifier without a kind or without a name. -/
def checkNonempty (kind name : String) : Except Error Identifier :=
  if kind = "" then .error (.settings .emptyKind)
  else if name = "" then .error (.settings .emptyName)
  else .ok { kind := kind, name := name }

end Identifier

end TripleIndex
