import TripleIndex.Catalog
import TripleIndex.Filter
import TripleIndex.NTriples
import TripleIndex.TripleStore
import Std.Data.TreeSet

/-! # Indexes

An index answers patterns by identifiers: of every entry that has a triple about a subject that the
pattern matches. It keeps the triples of all entries in one store, and the subjects of each entry.

The log is read at the first operation that needs the entries. If that fails the operation fails,
and the next one tries again.
-/

namespace TripleIndex

namespace Entry

/-- What the statements of an entry mean under a table of namespaces. -/
def triples (ns : Namespaces) (e : Entry) : List Triple := e.statements.map ns.triple

/-- The triples as N-Triples. -/
def text (ns : Namespaces) (e : Entry) : List Char := Triple.lines (e.triples ns)

end Entry

/-- Sizes of an index. -/
structure Stats where
  entries : Nat
  triples : Nat
  terms : Nat
deriving DecidableEq, Repr

/-- The subjects that each entry has triples about, by its id. -/
abbrev SubjectTable := Std.TreeMap String (Std.TreeSet Term)

namespace SubjectTable

def find (m : SubjectTable) (id : String) : Std.TreeSet Term := m.getD id ∅

/-- Files the subjects of triples under an id, next to those it has. -/
def file (m : SubjectTable) (id : String) (ts : List Triple) : SubjectTable :=
  m.insert id ((m.find id).insertMany (ts.map (·.subject)))

end SubjectTable

structure Index where
  namespaces : Namespaces
  catalog : Catalog
  store : TripleStore := .empty
  subjects : SubjectTable := ∅

namespace Index

def create (s : Settings) : Except Error Index :=
  (Catalog.create s.indexKey).map fun c => { namespaces := s.namespaces, catalog := c }

/-- The entries in order. -/
def entries (i : Index) : List Entry := i.catalog.entries.toList

/-- Takes up the triples of an entry, behind those that are there. -/
def take (i : Index) (e : Entry) : Index :=
  { i with
    store := i.store.insertMany (e.triples i.namespaces)
    subjects := i.subjects.file e.id (e.triples i.namespaces) }

/-- Takes up the entry that the catalog has under an id. -/
def takeFiled (i : Index) (id : String) : Index :=
  match i.catalog.entries.get? id with
  | some e => i.take e
  | none => i

/-- Takes up all entries of the catalog afresh. -/
def rebuild (i : Index) : Index :=
  i.entries.foldl take { i with store := i.store.clear, subjects := ∅ }

def load (i : Index) (a : Access) : Except Error Index :=
  (i.catalog.load a).map fun c => { i with catalog := c }.rebuild

def ensureLoaded (i : Index) (a : Access) : Except Error Index :=
  if i.catalog.loaded then .ok i else i.load a

/-! ## Adding -/

/-- Files statements under an identifier, in place of those that the identifier has. A failed call
may have loaded the index. -/
def add (i : Index) (a : Access) (s : Submission) : Except Error Unit × Index × Access :=
  match i.ensureLoaded a with
  | .error e => (.error e, i, a)
  | .ok i =>
    let entry := Entry.ofSubmission s
    let added := i.catalog.add a entry
    let next := { i with catalog := added.2.1 }
    match added.1 with
    | .error e => (.error e, i, added.2.2)
    | .ok true => (.ok (), next.rebuild, added.2.2)
    | .ok false => (.ok (), next.takeFiled entry.id, added.2.2)

/-- Adds one after the other, up to the first failure. -/
def addMany (i : Index) (a : Access) : List Submission → Except Error Unit × Index × Access
  | [] => (.ok (), i, a)
  | s :: list =>
    let added := i.add a s
    match added.1 with
    | .error e => (.error e, added.2)
    | .ok () => added.2.1.addMany added.2.2 list

/-! ## Answers of a loaded index -/

/-- Whether an entry has a triple about one of some subjects. -/
def isAbout (i : Index) (wanted : Std.TreeSet Term) (e : Entry) : Bool :=
  (i.subjects.find e.id).any wanted.contains

/-- Identifiers of the entries that a pattern finds, in the order of entries, trimmed. A pattern
without a triple finds none, and no entry is looked at. -/
def matching (i : Index) (p : Pattern) (f : Filter) : List Identifier :=
  let found := i.store.query (i.namespaces.pattern p)
  if found.isEmpty then []
  else
    let wanted := Std.TreeSet.ofList (found.map (·.subject))
    f.apply ((i.entries.filter (i.isAbout wanted)).map (·.identifier))

/-- Texts of the subjects that have a type, in order, with the text of their last type. A type that
is given, and is no wildcard, is the only one looked for. -/
def typed (i : Index) (type? : Option String) : List (String × String) :=
  let found := i.store.query ⟨none, some rdfType, i.namespaces.term? type?⟩
  let table : Std.TreeMap String String :=
    found.foldl (fun m t => m.insert t.subject.value t.object.value) ∅
  table.toList

def sizes (i : Index) : Stats := ⟨i.catalog.entries.size, i.store.size, i.store.termCount⟩

/-! ## Questions -/

/-- Answers from the loaded index, and loads it first if need be. -/
def ask {α : Type} (i : Index) (a : Access) (answer : Index → α) : Except Error α × Index :=
  match i.ensureLoaded a with
  | .error e => (.error e, i)
  | .ok i => (.ok (answer i), i)

def query (i : Index) (a : Access) (p : Pattern) (f : Filter) :
    Except Error (List Identifier) × Index := i.ask a (·.matching p f)

def has (i : Index) (a : Access) (id : String) : Except Error Bool × Index :=
  i.ask a (·.catalog.entries.has id)

def get? (i : Index) (a : Access) (id : String) : Except Error (Option Entry) × Index :=
  i.ask a (·.catalog.entries.get? id)

def identifiers (i : Index) (a : Access) : Except Error (List Identifier) × Index :=
  i.ask a fun i => i.entries.map (·.identifier)

def typedSubjects (i : Index) (a : Access) (type? : Option String) :
    Except Error (List (String × String)) × Index := i.ask a (·.typed type?)

def stats (i : Index) (a : Access) : Except Error Stats × Index := i.ask a (·.sizes)

end Index

end TripleIndex
