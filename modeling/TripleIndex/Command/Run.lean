import TripleIndex.Command.Invocation
import TripleIndex.Index

/-! # Running a command

A run reads and writes a tree of files and prints a text. It ends in one of three ways: well, with
an error, or with a refusal of the command line.
-/

namespace TripleIndex.Command

inductive Exit where
  | success
  | failure (error : Error)
  | misuse
deriving DecidableEq, Repr

namespace Exit

def code : Exit → Nat
  | success => 0
  | failure _ => 1
  | misuse => 2

end Exit

/-- What a run shows. -/
structure Report where
  exit : Exit
  output : List Char
deriving DecidableEq, Repr

/-! ## Queries -/

def exampleQueries : String :=
  "Example queries:\n" ++
  "  person:john ? ?           # Find all graphs about person:john\n" ++
  "  ? foaf:name \"John Doe\"    # Find all people with name \"John Doe\"\n" ++
  "  ? ? ?                     # Find all graphs"

/-- What is printed for a line that asks nothing. -/
def complaint (f : QueryLine.Fault) : List Char :=
  ("Error: " ++ f.message ++ "\n\n" ++ exampleQueries ++ "\n").toList

def noResults : List Char := "No results\n".toList

/-- The heading of an answer, by its number from one. -/
def heading (number : Nat) (i : Identifier) : List Char :=
  ['#', ' '] ++ Nat.toDigits 10 number ++ [':', ' '] ++ i.path ++ ['\n', '\n']

/-- The triples under an identifier. -/
def graph (x : Index) (i : Identifier) : List Char :=
  match x.catalog.entries.get? i.rendering with
  | some e =>
    if e.statements.isEmpty then "No graph data available.\n\n".toList
    else e.text x.namespaces ++ ['\n']
  | none => "No graph data available.\n\n".toList

def results (x : Index) : List Identifier → List Char
  | [] => noResults
  | is => (is.zipIdx 1).flatMap fun p => heading p.2 p.1 ++ graph x p.1

/-- Answers one line. A line that cannot be parsed is answered, too, and without the index. -/
def answerLine (f : Filter) (line : String) (x : Index) (a : Access) :
    Except Error (List Char) × Index :=
  match QueryLine.parse line with
  | .error fault => (.ok (complaint fault), x)
  | .ok s => x.ask a fun x => results x (x.matching s.toPattern f)

/-- Answers lines of input, except blank ones, up to the first failure. -/
def answerLines (f : Filter) (x : Index) (a : Access) : List (List UInt8) → Report
  | [] => ⟨.success, []⟩
  | line :: lines =>
    match Text.Utf8.decode line with
    | .error _ => ⟨.failure .io, []⟩
    | .ok cs =>
      if Text.allBlank cs then answerLines f x a lines
      else
        let answer := answerLine f (String.ofList cs) x a
        match answer.1 with
        | .error e => ⟨.failure e, []⟩
        | .ok text =>
          let rest := answerLines f answer.2 a lines
          ⟨rest.exit, text ++ rest.output⟩

/-! ## Other commands -/

/-- Prints what an index has answered. -/
def report {α : Type} (asked : Except Error α × Index) (text : α → List Char) : Report :=
  match asked.1 with
  | .ok v => ⟨.success, text v⟩
  | .error e => ⟨.failure e, []⟩

def subjectLines : List (String × String) → List Char
  | [] => noResults
  | ps => ps.flatMap fun p => p.1.toList ++ '\t' :: p.2.toList ++ ['\n']

def identifierLines (is : List Identifier) : List Char := is.flatMap fun i => i.path ++ ['\n']

def ingestedLine (count : Nat) (file : String) : List Char :=
  ("Ingested " ++ count.repr ++ " entries from " ++ file ++ "\n").toList

/-- Files the records of a file, once all of them have been read. -/
def ingest (file : String) (octets : List UInt8) (x : Index) (a : Access) : Report × Access :=
  match Log.read Submission.reader octets with
  | .error e => (⟨.failure e, []⟩, a)
  | .ok records =>
    let added := x.addMany a records
    match added.1 with
    | .error e => (⟨.failure e, []⟩, added.2.2)
    | .ok () => (⟨.success, ingestedLine records.length file⟩, added.2.2)

/-! ## Runs -/

/-- The prefixes known to a run: the standard ones and those of a file. -/
def knownNamespaces (file? : Option String) (files : FileTree) : Except Error Namespaces :=
  match file? with
  | none => .ok .standard
  | some file =>
    match files.read (Path.ofString file) with
    | .error _ => .error .io
    | .ok octets =>
      (Namespaces.ofFile file octets).map fun ns => Namespaces.standard.insertMany ns.toList

namespace Invocation

/-- The index that an invocation works on. -/
def index (v : Invocation) (files : FileTree) : Except Error Index :=
  match knownNamespaces v.namespaces files with
  | .error e => .error e
  | .ok ns => Index.create ⟨v.indexKey, v.storagePath, ns⟩

def access (v : Invocation) (files : FileTree) : Access :=
  { storage := .directory ⟨files, Path.ofString v.storagePath⟩ }

end Invocation

/-- The files that an access works on. -/
def filesOf (a : Access) (files : FileTree) : FileTree :=
  match a.storage with
  | .directory d => d.files
  | .memory _ => files

def perform (v : Invocation) (input : List UInt8) (files : FileTree) : Report × FileTree :=
  match v.index files with
  | .error e => (⟨.failure e, []⟩, files)
  | .ok x =>
    let a := v.access files
    match v.action with
    | .query (some line) f => (report (answerLine f line x a) id, files)
    | .query none f => (answerLines f x a (Text.octetLines input), files)
    | .subjects type? => (report (x.typedSubjects a type?) subjectLines, files)
    | .list => (report (x.identifiers a) identifierLines, files)
    | .ingest file =>
      match files.read (Path.ofString file) with
      | .error _ => (⟨.failure .io, []⟩, files)
      | .ok octets =>
        let r := ingest file octets x a
        (r.1, filesOf r.2 files)

/-- Runs a command line over an input and a tree of files. -/
def run (words : List String) (input : List UInt8) (files : FileTree) : Report × FileTree :=
  match Invocation.parse words with
  | .ok v => perform v input files
  | .error .misuse => (⟨.misuse, []⟩, files)
  | .error (.help page) => (⟨.success, page.text.toList⟩, files)

end TripleIndex.Command
