import TripleIndex.Json.Token

/-! # What a JSON text says

A text is read as far as it is well formed. Its tree holds everything in front of the first
malformed spot: containers that the text does not close are open, and a value that is missing or
malformed is `broken`. So a broken value is the last thing in its tree, in text order, and all
containers around it are open.
-/

namespace TripleIndex.Json

inductive Tree where
  | null
  | bool (b : Bool)
  | number (d : Decimal)
  /-- A string, or `none` for one whose contents are not text. -/
  | string (s : Option String)
  | array (items : List Tree) (closed : Bool)
  /-- Members in text order; a name is `none` if it is not text. -/
  | object (members : List (Option String × Tree)) (closed : Bool)
  | broken
deriving Inhabited, Repr

namespace Tree

/-- Whether the text has all of the value. -/
def isWhole : Tree → Bool
  | .null | .bool _ | .number _ | .string _ => true
  | .array _ closed | .object _ closed => closed
  | .broken => false

end Tree

/-- A member of an object. -/
abbrev Member := Option String × Tree

/-- A container under way, its contents last first. -/
inductive Frame where
  | array (items : List Tree)
  | object (members : List Member)
  /-- An object that waits for the value of a name. -/
  | member (members : List Member) (name : Option String)

/-- What may come next. -/
inductive Want where
  | value
  | valueOrClose
  | name
  | nameOrClose
  | colon
  /-- A comma, or the end of the container. -/
  | next

/-- A text under way, or what has been made of it. -/
inductive Builder where
  | reading (stack : List Frame) (want : Want)
  /-- The value ended before the text did, at the end of the text, or in a malformed spot;
  `surplus` tells whether tokens came behind it. -/
  | done (tree : Tree) (surplus : Bool)

namespace Builder

/-- Leaves every container open, around the value that the text breaks off in. -/
def abandon (child : Option Tree) : List Frame → Tree
  | [] => child.getD .broken
  | .array items :: fs => abandon (some (.array (child.toList ++ items).reverse false)) fs
  | .object members :: fs =>
    abandon (some (.object members.reverse false)) fs
  | .member members name :: fs =>
    abandon (some (.object ((name, child.getD .broken) :: members).reverse false)) fs

def fail (stack : List Frame) : Builder := .done (abandon none stack) false

/-- Puts a whole value into the container around it. -/
def put (t : Tree) : List Frame → Builder
  | [] => .done t false
  | .array items :: fs => .reading (.array (t :: items) :: fs) .next
  | .member members name :: fs => .reading (.object ((name, t) :: members) :: fs) .next
  | .object members :: fs => fail (.object members :: fs)

def readValue (stack : List Frame) : Token → Builder
  | .null => put .null stack
  | .bool b => put (.bool b) stack
  | .number d => put (.number d) stack
  | .string s => put (.string s) stack
  | .openArray => .reading (.array [] :: stack) .valueOrClose
  | .openObject => .reading (.object [] :: stack) .nameOrClose
  | .closeArray | .closeObject | .colon | .comma | .malformed => fail stack

def readName (stack : List Frame) (s : Option String) : Builder :=
  match stack with
  | .object members :: fs => .reading (.member members s :: fs) .colon
  | _ => fail stack

def closeArray : List Frame → Builder
  | .array items :: fs => put (.array items.reverse true) fs
  | stack => fail stack

def closeObject : List Frame → Builder
  | .object members :: fs => put (.object members.reverse true) fs
  | stack => fail stack

def readNext (stack : List Frame) : Token → Builder
  | .comma =>
    match stack with
    | .array _ :: _ => .reading stack .value
    | _ => .reading stack .name
  | .closeArray => closeArray stack
  | .closeObject => closeObject stack
  | _ => fail stack

def step : Builder → Token → Builder
  | .done tree _, _ => .done tree true
  | .reading stack want, t =>
    match want, t with
    | .value, t => readValue stack t
    | .valueOrClose, .closeArray => closeArray stack
    | .valueOrClose, t => readValue stack t
    | .nameOrClose, .closeObject => closeObject stack
    | .nameOrClose, .string s => readName stack s
    | .name, .string s => readName stack s
    | .colon, .colon => .reading stack .value
    | .next, t => readNext stack t
    | .name, _ | .nameOrClose, _ | .colon, _ => fail stack

def finish : Builder → Tree × Bool
  | .done tree surplus => (tree, surplus)
  | .reading stack _ => (abandon none stack, false)

end Builder

/-- The first value of a text, and whether anything but blanks comes behind it. A malformed spot
ends the value. -/
def read (symbols : List (Option Char)) : Tree × Bool :=
  ((tokens symbols).foldl Builder.step (.reading [] .value)).finish

end TripleIndex.Json
