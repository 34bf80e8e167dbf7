import TripleIndex.Filter
import TripleIndex.Json.Reader
import TripleIndex.Json.Writer
import TripleIndex.Pattern

/-! # Records of terms, statements, patterns and filters -/

namespace TripleIndex

open Json

/-! ## Terms -/

namespace Term

def record : Term → List Char
  | .iri v => Json.object [member "kind" (string "iri"), member "value" (string v)]
  | .literal v => Json.object [member "kind" (string "literal"), member "value" (string v)]

/-- A kind by its word. -/
def readKindWord : Reader (String → Term) := fun t =>
  match Reader.string t with
  | .ok "iri" => .ok iri
  | .ok "literal" => .ok literal
  | .ok _ => .error .misshapen
  | .error f => .error f

/-- A kind by its word, or by an object of one member with that name and the value `null`. -/
def readKind : Reader (String → Term)
  | .object [(some "iri", .null)] true => .ok iri
  | .object [(some "literal", .null)] true => .ok literal
  | .object _ false => .error .malformed
  | t => readKindWord t

structure Draft where
  kind : Option (String → Term) := none
  value : Option String := none

def fields (kind : Reader (String → Term)) : List (Reader.Field Draft) := [
  Reader.field ["kind"] (·.kind) (fun v d => { d with kind := some v }) kind,
  Reader.field ["value"] (·.value) (fun v d => { d with value := some v }) Reader.string]

def Draft.finish (d : Draft) : Option Term :=
  match d.kind, d.value with
  | some k, some v => some (k v)
  | _, _ => none

/-- In an array the kind is given by its word. -/
def reader : Reader Term := fun t =>
  match t with
  | .array .. => Reader.record (fields readKindWord) {} Draft.finish t
  | t => Reader.record (fields readKind) {} Draft.finish t

end Term

/-! ## Statements -/

namespace Statement

def record (s : Statement) : List Char :=
  Json.object [member "subject" (string s.subject), member "predicate" (string s.predicate),
    member "object" (string s.object)]

structure Draft where
  subject : Option String := none
  predicate : Option String := none
  object : Option String := none

def fields : List (Reader.Field Draft) := [
  Reader.field ["subject"] (·.subject) (fun v d => { d with subject := some v }) Reader.string,
  Reader.field ["predicate"] (·.predicate) (fun v d => { d with predicate := some v })
    Reader.string,
  Reader.field ["object"] (·.object) (fun v d => { d with object := some v }) Reader.string]

def reader : Reader Statement :=
  Reader.record fields {} fun d =>
    match d.subject, d.predicate, d.object with
    | some s, some p, some o => some ⟨s, p, o⟩
    | _, _, _ => none

/-- The field that lists statements, under either of its names. -/
def listField {δ : Type} (get : δ → Option (List Statement))
    (set : List Statement → δ → δ) : Reader.Field δ :=
  Reader.field ["triples", "quads"] get set (Reader.list reader)

end Statement

/-! ## Patterns -/

namespace Pattern

/-- A free position is written as `null`. -/
def record (p : Pattern) : List Char :=
  Json.object [member "subject" (nullable string p.subject),
    member "predicate" (nullable string p.predicate), member "object" (nullable string p.object)]

structure Draft where
  subject : Option (Option String) := none
  predicate : Option (Option String) := none
  object : Option (Option String) := none

namespace Draft

def finish (d : Draft) : Pattern := ⟨d.subject.join, d.predicate.join, d.object.join⟩

end Draft

/-- The three positions, as fields of any record that has a pattern in it. -/
def fieldsIn {δ : Type} (get : δ → Draft) (set : Draft → δ → δ) : List (Reader.Field δ) := [
  Reader.field ["subject"] (fun d => (get d).subject)
    (fun v d => set { get d with subject := some v } d) (Reader.nullable Reader.string),
  Reader.field ["predicate"] (fun d => (get d).predicate)
    (fun v d => set { get d with predicate := some v } d) (Reader.nullable Reader.string),
  Reader.field ["object"] (fun d => (get d).object)
    (fun v d => set { get d with object := some v } d) (Reader.nullable Reader.string)]

def reader : Reader Pattern :=
  Reader.record (fieldsIn id fun p _ => p) {} fun d => some d.finish

end Pattern

/-! ## Filters -/

namespace Filter

def record (f : Filter) : List Char :=
  Json.object [member "prefix" (nullable string f.pre), member "limit" (nullable natural f.limit),
    member "max_tokens" (nullable natural f.maxTokens)]

structure Draft where
  pre : Option (Option String) := none
  limit : Option (Option UInt64) := none
  maxTokens : Option (Option UInt64) := none

def fields : List (Reader.Field Draft) := [
  Reader.field ["prefix"] (·.pre) (fun v d => { d with pre := some v })
    (Reader.nullable Reader.string),
  Reader.field ["limit"] (·.limit) (fun v d => { d with limit := some v })
    (Reader.nullable Reader.natural),
  Reader.field ["max_tokens"] (·.maxTokens) (fun v d => { d with maxTokens := some v })
    (Reader.nullable Reader.natural)]

def reader : Reader Filter :=
  Reader.record fields {} fun d => some ⟨d.pre.join, d.limit.join, d.maxTokens.join⟩

end Filter

end TripleIndex
