import TripleIndex.Error
import TripleIndex.Json.Writer

/-! # Requests and responses -/

namespace TripleIndex.Http

/-! ## Targets -/

/-- What a request asks for, as written: the path, and the query without its question mark. -/
structure Target where
  path : List Char
  query : List Char
deriving DecidableEq, Repr

namespace Target

/-- The text behind a scheme and its two slashes. -/
def afterScheme? : List Char → Option (List Char)
  | ':' :: '/' :: '/' :: rest => some rest
  | _ :: rest => afterScheme? rest
  | [] => none

/-- The target without scheme and host. A target that has neither a scheme nor a slash in front has
no path. -/
def withoutHost (cs : List Char) : List Char :=
  if cs.head? = some '/' then cs
  else
    match afterScheme? cs with
    | some rest => rest.dropWhile fun c => c ≠ '/' ∧ c ≠ '?' ∧ c ≠ '#'
    | none => []

/-- The path ends at the first question mark, and everything at the first hash mark. -/
def ofText (cs : List Char) : Target :=
  let cs := (withoutHost cs).takeWhile (· ≠ '#')
  ⟨cs.takeWhile (· ≠ '?'), (cs.dropWhile (· ≠ '?')).drop 1⟩

end Target

structure Request where
  method : String
  target : List Char
  contentType : Option (List Char) := none
  body : List UInt8 := []
deriving Repr

inductive Body where
  | json (text : List Char)
  | plain (text : List Char)
deriving DecidableEq, Repr

structure Response where
  status : Nat
  body : Body
deriving DecidableEq, Repr

namespace Response

def json (status : Nat) (members : List (List Char)) : Response :=
  ⟨status, .json (Json.object members)⟩

def plain (status : Nat) (text : String) : Response := ⟨status, .plain text.toList⟩

/-- The answer to somebody who asks for no body. -/
def withoutBody (r : Response) : Response :=
  match r.body with
  | .json _ => ⟨r.status, .json []⟩
  | .plain _ => ⟨r.status, .plain []⟩

end Response

/-! ## Refusals -/

/-- Why a request is not answered as asked. -/
inductive Refusal where
  | noRoute
  | wrongMethod
  | notJson
  | tooLarge
  | malformedBody
  | misshapenBody
  | badQuery (name : String)
  | badPath (name : String)
  | failed (error : Error)
deriving DecidableEq, Repr

namespace Refusal

/-- Faults of the request are told apart from those of the index. -/
def statusOf : Error → Nat
  | .parse _ | .settings _ => 400
  | .notFound _ => 404
  | .storage _ | .serialization | .io => 500

def response : Refusal → Response
  | .noRoute => .plain 404 ""
  | .wrongMethod => .plain 405 ""
  | .notJson => .plain 415 "Expected request with `Content-Type: application/json`"
  | .tooLarge => .plain 413 "Failed to buffer the request body: length limit exceeded"
  | .malformedBody => .plain 400 "Failed to parse the request body as JSON"
  | .misshapenBody => .plain 422 "Failed to deserialize the JSON body into the target type"
  | .badQuery name =>
    .plain 400 ("Failed to deserialize query string: duplicate field `" ++ name ++ "`")
  | .badPath name => .plain 400 ("Invalid URL: Invalid UTF-8 in `" ++ name ++ "`")
  | .failed e => .json (statusOf e) [Json.member "error" (Json.string e.message)]

end Refusal

end TripleIndex.Http
