import TripleIndex.Json.Tree
import TripleIndex.Text.Utf8

/-! # Reading records from JSON

A reader turns a tree into a value, walking it in text order, and reports the first fault it meets:
the text is malformed there, or well formed but not of the shape asked for. Parts that no reader
asks for are skipped; they have to be well formed, but their strings need not be text and their
numbers may have any size.

A record is given as an object whose members come in any order, or as an array of its fields in
order. Members with unknown names are skipped; a second member for a field is a fault.
-/

namespace TripleIndex.Json

inductive Fault where
  | malformed
  | misshapen
deriving DecidableEq, Repr

abbrev Reader (α : Type) := Tree → Except Fault α

namespace Reader

/-- The fault of a value of another kind. Scalars are read before their kind is refused. -/
def wrongKind : Tree → Fault
  | .broken => .malformed
  | .string none => .malformed
  | .number d => if d.toFloat?.isNone then .malformed else .misshapen
  | .null | .bool _ | .string (some _) | .array .. | .object .. => .misshapen

def skip (t : Tree) : Except Fault Unit :=
  if t.isWhole then .ok () else .error .malformed

def string : Reader String
  | .string (some s) => .ok s
  | t => .error (wrongKind t)

/-- An integer from 0 to 2^64 - 1, written without fraction and exponent. -/
def natural : Reader UInt64
  | .number d =>
    match d.toUInt64? with
    | some n => .ok n
    | none => .error (wrongKind (.number d))
  | t => .error (wrongKind t)

def float : Reader Float
  | .number d =>
    match d.toFloat? with
    | some x => .ok x
    | none => .error .malformed
  | t => .error (wrongKind t)

/-- A value, or `null` for none. -/
def nullable {α : Type} (read : Reader α) : Reader (Option α)
  | .null => .ok none
  | t => (read t).map some

/-! ## Lists and tables -/

/-- Reads items onto a list held last first. -/
def items {α : Type} (read : Reader α) (acc : List α) : List Tree → Except Fault (List α)
  | [] => .ok acc.reverse
  | t :: ts =>
    match read t with
    | .ok a => items read (a :: acc) ts
    | .error f => .error f

def list {α : Type} (read : Reader α) : Reader (List α)
  | .array ts closed =>
    match items read [] ts with
    | .ok as => if closed then .ok as else .error .malformed
    | .error f => .error f
  | t => .error (wrongKind t)

/-- Reads members onto a list of pairs held last first. -/
def pairs {α : Type} (read : Reader α) (acc : List (String × α)) :
    List Member → Except Fault (List (String × α))
  | [] => .ok acc.reverse
  | (none, _) :: _ => .error .malformed
  | (some name, t) :: ms =>
    match read t with
    | .ok a => pairs read ((name, a) :: acc) ms
    | .error f => .error f

/-- An object with names of any kind, as pairs in text order. -/
def table {α : Type} (read : Reader α) : Reader (List (String × α))
  | .object ms closed =>
    match pairs read [] ms with
    | .ok as => if closed then .ok as else .error .malformed
    | .error f => .error f
  | t => .error (wrongKind t)

/-! ## Records -/

/-- A field of a record under way `δ`: the names it goes by, whether it has been read, and how a
value is read into the record. -/
structure Field (δ : Type) where
  names : List String
  isRead : δ → Bool
  read : Reader (δ → δ)

/-- A field whose value is kept in a place of the record under way. -/
def field {δ α : Type} (names : List String) (get : δ → Option α) (set : α → δ → δ)
    (read : Reader α) : Field δ where
  names := names
  isRead d := (get d).isSome
  read t := (read t).map set

/-- Reads members into a record under way. -/
def members {δ : Type} (fields : List (Field δ)) (d : δ) : List Member → Except Fault δ
  | [] => .ok d
  | (none, _) :: _ => .error .malformed
  | (some name, t) :: ms =>
    match fields.find? (fun f => f.names.contains name) with
    | none => if t.isWhole then members fields d ms else .error .malformed
    | some f =>
      if f.isRead d then .error .misshapen
      else
        match f.read t with
        | .ok put => members fields (put d) ms
        | .error e => .error e

/-- Reads items into the fields of a record in order. An item too many is malformed. -/
def positions {δ : Type} (d : δ) : List (Field δ) → List Tree → Except Fault δ
  | _, [] => .ok d
  | [], _ :: _ => .error .malformed
  | f :: fs, t :: ts =>
    match f.read t with
    | .ok put => positions (put d) fs ts
    | .error e => .error e

/-- Ends a record: the container has to be closed, and `finish` tells whether anything is
missing. -/
def complete {δ α : Type} (finish : δ → Option α) (closed : Bool) (d : δ) : Except Fault α :=
  if closed then
    match finish d with
    | some a => .ok a
    | none => .error .misshapen
  else .error .malformed

def record {δ α : Type} (fields : List (Field δ)) (start : δ) (finish : δ → Option α) : Reader α
  | .object ms closed =>
    match members fields start ms with
    | .ok d => complete finish closed d
    | .error f => .error f
  | .array ts closed =>
    match positions start fields ts with
    | .ok d => complete finish closed d
    | .error f => .error f
  | t => .error (wrongKind t)

end Reader

/-! ## Documents -/

/-- Reads a text that consists of one value. -/
def decode {α : Type} (reader : Reader α) (text : List Char) : Except Fault α :=
  let doc := read (text.map some)
  match reader doc.1 with
  | .ok a => if doc.2 then .error .malformed else .ok a
  | .error f => .error f

/-- Reads the value that octets begin with; whatever comes behind it is ignored. -/
def decodeFirst {α : Type} (reader : Reader α) (octets : List UInt8) : Except Fault α :=
  reader (read (Text.Utf8.symbols octets)).1

end TripleIndex.Json
