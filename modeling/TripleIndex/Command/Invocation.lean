import TripleIndex.Command.Level
import TripleIndex.Filter

/-! # Invocations

What a command line asks for: options that hold for every command, then the command with its own.
-/

namespace TripleIndex.Command

inductive Action where
  /-- One line, or those of the input. -/
  | query (line : Option String) (filter : Filter)
  | subjects (type? : Option String)
  | list
  | ingest (file : String)
deriving DecidableEq, Repr

structure Invocation where
  storagePath : String
  indexKey : String
  /-- A file of prefixes. -/
  namespaces : Option String
  action : Action
deriving DecidableEq, Repr

/-! ## The options for every command -/

structure Draft where
  storagePath : Option String := none
  indexKey : Option String := none
  namespaces : Option String := none

def commandNames : List String := ["query", "subjects", "list", "ingest", "help"]

def top : Level Draft where
  page := .all
  commands := commandNames
  options := [
    .kept "storage-path" (some 's') readPath (·.storagePath)
      (fun v d => { d with storagePath := some v }),
    .kept "index-key" none some (·.indexKey) (fun v d => { d with indexKey := some v }),
    .kept "namespaces" none readPath (·.namespaces) (fun v d => { d with namespaces := some v })]

namespace Draft

def finish (d : Draft) (action : Action) : Invocation where
  storagePath := d.storagePath.getD "data/graphs"
  indexKey := d.indexKey.getD "index.jsonl"
  namespaces := d.namespaces
  action := action

end Draft

/-! ## The commands -/

structure QueryDraft where
  line : Option String := none
  filter : Filter := {}

def queryLevel : Level QueryDraft where
  page := .query
  places := [.kept "" none some (·.line) (fun v d => { d with line := some v })]
  options := [
    .kept "prefix" none some (·.filter.pre)
      (fun v d => { d with filter := { d.filter with pre := some v } }),
    .kept "limit" none readCount (·.filter.limit)
      (fun v d => { d with filter := { d.filter with limit := some v } }),
    .kept "max-tokens" none readCount (·.filter.maxTokens)
      (fun v d => { d with filter := { d.filter with maxTokens := some v } })]

/-- A level with one place, for a text that is read in some way. -/
def textLevel (page : Page) (read : String → Option String) : Level (Option String) where
  page := page
  places := [.kept "" none read id (fun v _ => some v)]

/-- The action of a command. -/
def readAction (name : String) (words : List String) : Except Stop Action :=
  match name with
  | "query" => (queryLevel.readAll {} words).map fun d => .query d.line d.filter
  | "subjects" => ((textLevel .subjects some).readAll none words).map .subjects
  | "list" => (Level.readAll { page := .list } () words).map fun _ => .list
  | "ingest" =>
    match (textLevel .ingest readPath).readAll none words with
    | .error s => .error s
    | .ok (some file) => .ok (.ingest file)
    | .ok none => .error .misuse
  | _ => .error .misuse

/-- The page that words behind `help` ask for. -/
def readHelp : List String → Stop
  | [] => .help .all
  | ["query"] => .help .query
  | ["subjects"] => .help .subjects
  | ["list"] => .help .list
  | ["ingest"] => .help .ingest
  | ["help"] => .help .help
  | _ => .misuse

/-- What the words of a command line ask for. -/
def Invocation.parse (words : List String) : Except Stop Invocation :=
  match top.read { draft := {} } words with
  | .error s => .error s
  | .ok (_, none) => .error .misuse
  | .ok (r, some (name, rest)) =>
    if name = "help" then .error (readHelp rest)
    else
      match readAction name rest with
      | .error s => .error s
      | .ok action => r.finish.map fun d => d.finish action

end TripleIndex.Command
