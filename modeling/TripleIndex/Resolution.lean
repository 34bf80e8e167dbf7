import TripleIndex.Namespaces
import TripleIndex.Pattern

/-! # Resolution of spelled terms

The first rule that applies decides:
1. a text between double quotes is a literal;
2. a prefix that the table knows, a colon and a local part are the IRI that they abbreviate;
3. a text that begins with `http://` or `https://` is an IRI as it stands;
4. any other text is a literal.

As a predicate, `type` and `@type` are `rdf:type`, whatever the table says.
-/

namespace TripleIndex

/-- The predicate that gives a resource its type. -/
def rdfType : Term := .iri "http://www.w3.org/1999/02/22-rdf-syntax-ns#type"

/-- What stands between the double quotes that enclose a text. -/
def unquote? : List Char → Option (List Char)
  | '"' :: cs => if cs.getLast? = some '"' then some cs.dropLast else none
  | _ => none

/-- A text cut in two at its first colon. -/
def cutColon? (cs : List Char) : Option (List Char × List Char) :=
  match cs.dropWhile (· ≠ ':') with
  | [] => none
  | _ :: rest => some (cs.takeWhile (· ≠ ':'), rest)

/-- Whether a text begins with the scheme of the web. -/
def isWebAddress (cs : List Char) : Bool :=
  "http://".toList.isPrefixOf cs || "https://".toList.isPrefixOf cs

namespace Namespaces

/-- The IRI that a prefixed name abbreviates. -/
def expandName? (ns : Namespaces) (cs : List Char) : Option String := do
  let (pre, rest) ← cutColon? cs
  let base ← ns.expand? (String.ofList pre)
  return base ++ String.ofList rest

/-- The term that a text spells as a subject or an object. -/
def term (ns : Namespaces) (s : String) : Term :=
  let cs := s.toList
  match unquote? cs with
  | some text => .literal (String.ofList text)
  | none =>
    match ns.expandName? cs with
    | some iri => .iri iri
    | none => if isWebAddress cs then .iri s else .literal s

/-- The term that a text spells as a predicate. -/
def predicate (ns : Namespaces) (s : String) : Term :=
  if s = "type" ∨ s = "@type" then rdfType else ns.term s

/-- The term that a position of a pattern asks for. -/
def term? (ns : Namespaces) (position : Option String) : Option Term :=
  (spelled position).map ns.term

def pattern (ns : Namespaces) (p : Pattern) : TermPattern where
  subject := (spelled p.subject).map ns.term
  predicate := (spelled p.predicate).map ns.predicate
  object := (spelled p.object).map ns.term

/-- Statements and patterns resolve by the same rules. -/
def triple (ns : Namespaces) (s : Statement) : Triple where
  subject := ns.term s.subject
  predicate := ns.predicate s.predicate
  object := ns.term s.object

end Namespaces

end TripleIndex
