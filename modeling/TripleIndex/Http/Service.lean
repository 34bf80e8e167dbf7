import TripleIndex.Http.Form
import TripleIndex.Http.MediaType
import TripleIndex.Http.Message
import TripleIndex.Index

/-! # The index as a service

Seven routes answer requests over one index. A request that is refused changes nothing; only a new
entry is written to the storage.
-/

namespace TripleIndex.Http

open Json

/-! ## Payloads -/

/-- A pattern with a filter. Positions that are not given are free. -/
structure PatternQuery where
  pattern : Pattern
  filter : Filter
deriving DecidableEq, Repr

namespace PatternQuery

structure Draft where
  pattern : Pattern.Draft := {}
  filter : Option Filter := none

def fields : List (Reader.Field Draft) :=
  Pattern.fieldsIn (·.pattern) (fun p d => { d with pattern := p }) ++
    [Reader.field ["filter"] (·.filter) (fun v d => { d with filter := some v }) Filter.reader]

def reader : Reader PatternQuery :=
  Reader.record fields {} fun d => some ⟨d.pattern.finish, d.filter.getD {}⟩

end PatternQuery

/-- A query line with a filter. -/
structure LineQuery where
  line : String
  filter : Filter
deriving DecidableEq, Repr

namespace LineQuery

structure Draft where
  line : Option String := none
  filter : Option Filter := none

def fields : List (Reader.Field Draft) := [
  Reader.field ["line"] (·.line) (fun v d => { d with line := some v }) Reader.string,
  Reader.field ["filter"] (·.filter) (fun v d => { d with filter := some v }) Filter.reader]

def reader : Reader LineQuery :=
  Reader.record fields {} fun d => d.line.map fun l => ⟨l, d.filter.getD {}⟩

end LineQuery

/-! ## Routes -/

inductive Route where
  | query
  | queryLine
  | items
  /-- One entry, by its percent-encoded id. -/
  | item (id : List Char)
  | subjects
  | ontology
  | health
deriving DecidableEq, Repr

namespace Route

def itemsPath : List Char := "/api/graph/items/".toList

def ofPath? (path : List Char) : Option Route :=
  match String.ofList path with
  | "/api/graph/query" => some .query
  | "/api/graph/query-line" => some .queryLine
  | "/api/graph/items" => some .items
  | "/api/graph/subjects" => some .subjects
  | "/api/graph/ontology" => some .ontology
  | "/health" => some .health
  | _ =>
    let id := path.drop itemsPath.length
    if itemsPath.isPrefixOf path && !id.isEmpty then some (.item id) else none

/-- Whether the route takes a body, by `POST`. The others are asked by `GET`. -/
def takesBody : Route → Bool
  | query | queryLine | items => true
  | item _ | subjects | ontology | health => false

end Route

/-! ## Reading requests -/

/-- Octets of the largest body. -/
def bodyLimit : Nat := 2097152

/-- Reads the JSON body that a request has to have. What stands behind the value is ignored. -/
def readBody {α : Type} (reader : Reader α) (r : Request) : Except Refusal α :=
  if !(r.contentType.any MediaType.isJson) then .error .notJson
  else if bodyLimit < r.body.length then .error .tooLarge
  else
    match decodeFirst reader r.body with
    | .ok a => .ok a
    | .error .malformed => .error .malformedBody
    | .error .misshapen => .error .misshapenBody

/-- The id that the end of a path spells. -/
def readId (encoded : List Char) : Except Refusal String :=
  match Text.Utf8.decode (Text.Percent.decode (Text.Utf8.encode encoded)) with
  | .ok cs => .ok (String.ofList cs)
  | .error _ => .error (.badPath "id")

/-- The type that a query string asks for, if it asks for one. -/
def readType (query : List Char) : Except Refusal (Option String) :=
  match (Form.pairs query).filter fun p => p.1 = "type" with
  | [] => .ok none
  | [p] => .ok (some p.2)
  | _ :: _ :: _ => .error (.badQuery "type")

/-! ## Answers -/

/-- Where the document that describes the vocabulary is kept. -/
def ontologyKey : String := "ontology.ttl"

/-- What is left after a request: the answer, the index and its storage. -/
abbrev Outcome := Except Refusal Response × Index × Access

/-- Answers from an index that has been asked. -/
def reply {α : Type} (a : Access) (asked : Except Error α × Index)
    (answer : α → Except Refusal Response) : Outcome :=
  match asked.1 with
  | .ok v => (answer v, asked.2, a)
  | .error e => (.error (.failed e), asked.2, a)

def foundResponse (is : List Identifier) : Except Refusal Response :=
  .ok (.json 200 [member "identifiers" (array (is.map fun i => string i.rendering))])

def answerQuery (r : Request) (x : Index) (a : Access) : Outcome :=
  match readBody PatternQuery.reader r with
  | .error e => (.error e, x, a)
  | .ok q => reply a (x.query a q.pattern q.filter) foundResponse

/-- The line is parsed before the index is asked. -/
def answerQueryLine (r : Request) (x : Index) (a : Access) : Outcome :=
  match readBody LineQuery.reader r with
  | .error e => (.error e, x, a)
  | .ok q =>
    match QueryLine.parse q.line with
    | .error f => (.error (.failed (.parse f)), x, a)
    | .ok s => reply a (x.query a s.toPattern q.filter) foundResponse

/-- Files an entry whose identifier has a kind and a name. -/
def answerItems (r : Request) (x : Index) (a : Access) : Outcome :=
  match readBody Submission.reader r with
  | .error e => (.error e, x, a)
  | .ok s =>
    match Identifier.checkNonempty s.identifier.kind s.identifier.name with
    | .error e => (.error (.failed e), x, a)
    | .ok _ =>
      let added := x.add a s
      match added.1 with
      | .error e => (.error (.failed e), added.2)
      | .ok () => (.ok (.json 201 [member "id" (string s.identifier.rendering)]), added.2)

def answerItem (encoded : List Char) (x : Index) (a : Access) : Outcome :=
  match readId encoded with
  | .error e => (.error e, x, a)
  | .ok id =>
    reply a (x.get? a id) fun
      | some e => .ok ⟨200, .json e.record⟩
      | none => .error (.failed (.notFound id))

def answerSubjects (query : List Char) (x : Index) (a : Access) : Outcome :=
  match readType query with
  | .error e => (.error e, x, a)
  | .ok type? =>
    reply a (x.typedSubjects a type?) fun ps =>
      .ok (.json 200 [member "subjects" (object (ps.map fun p => member p.1 (string p.2)))])

/-- The ontology is read afresh for each request, and without the index. -/
def answerOntology (x : Index) (a : Access) : Outcome :=
  match a.read ontologyKey with
  | .error f => (.error (.failed (.storage f)), x, a)
  | .ok octets =>
    let content := String.ofList (Text.Utf8.decodeLossy (octets.getD []))
    (.ok (.json 200 [member "content" (string content)]), x, a)

def statsRecord (s : Stats) : List Char :=
  object [member "entries" (count s.entries), member "triples" (count s.triples),
    member "terms" (count s.terms)]

def answerHealth (x : Index) (a : Access) : Outcome :=
  reply a (x.stats a) fun s =>
    .ok (.json 200 [member "message" (string "Graph index HTTP API is running"),
      member "stats" (statsRecord s)])

def answerRoute (route : Route) (r : Request) (x : Index) (a : Access) : Outcome :=
  match route with
  | .query => answerQuery r x a
  | .queryLine => answerQueryLine r x a
  | .items => answerItems r x a
  | .item id => answerItem id x a
  | .subjects => answerSubjects (Target.ofText r.target).query x a
  | .ontology => answerOntology x a
  | .health => answerHealth x a

/-! ## The service -/

/-- The response that an outcome is answered by. -/
def responseOf (o : Outcome) : Response :=
  match o.1 with
  | .ok response => response
  | .error refusal => refusal.response

/-- The response to a request. A request for the options of a path is granted whatever the path is,
and one for the head of an answer gets it without its body. -/
def respond (r : Request) (x : Index) (a : Access) : Response × Index × Access :=
  if r.method = "OPTIONS" then (.plain 200 "", x, a)
  else
    match Route.ofPath? (Target.ofText r.target).path with
    | none => (Refusal.noRoute.response, x, a)
    | some route =>
      if r.method = (if route.takesBody then "POST" else "GET") then
        let o := answerRoute route r x a
        (responseOf o, o.2)
      else if r.method = "HEAD" ∧ !route.takesBody then
        let o := answerRoute route r x a
        ((responseOf o).withoutBody, o.2)
      else (Refusal.wrongMethod.response, x, a)

end TripleIndex.Http
