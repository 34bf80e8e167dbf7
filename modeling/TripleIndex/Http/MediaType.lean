/-! # Media types

A media type is a type and a subtype around a slash, both tokens. Parameters may follow, each behind
a semicolon and any number of spaces: a name, an equals sign, and a value that is a token or stands
between quotes. Between quotes there is at least one character, and none is escaped; spaces may
follow the closing quote. A subtype may end in a plus and a suffix that names its format.
-/

namespace TripleIndex.Http.MediaType

def isTokenChar (c : Char) : Bool := c.isAlphanum || "!#$%&'*+-.^_`|~".toList.contains c

/-- A character that may stand between quotes. -/
def isQuotedChar (c : Char) : Bool := 0x20 ≤ c.toNat && c.toNat ≤ 0x7E

/-! ## Parameters -/

/-- Where a list of parameters stands. -/
inductive Position where
  /-- Behind a semicolon, or a space after one. -/
  | gap
  | name
  /-- Behind the equals sign. -/
  | valueStart
  | value
  /-- Behind the opening quote. -/
  | quoteStart
  | quoted
  /-- Behind the closing quote. -/
  | unquoted
  | faulty
deriving DecidableEq, Repr

namespace Position

def step (p : Position) (c : Char) : Position :=
  match p with
  | gap => if c = ' ' then gap else if isTokenChar c then name else faulty
  | name => if c = '=' then valueStart else if isTokenChar c then name else faulty
  | valueStart => if c = '"' then quoteStart else if isTokenChar c then value else faulty
  | value => if c = ';' then gap else if isTokenChar c then value else faulty
  | quoteStart => if isQuotedChar c then quoted else faulty
  | quoted => if c = '"' then unquoted else if isQuotedChar c then quoted else faulty
  | unquoted => if c = ';' then gap else if c = ' ' then unquoted else faulty
  | faulty => faulty

/-- Whether the list may end here. -/
def isFinal : Position → Bool
  | gap | valueStart | value | unquoted => true
  | name | quoteStart | quoted | faulty => false

end Position

/-- Whether parameters are well formed, read behind the first semicolon. -/
def areParameters (cs : List Char) : Bool := (cs.foldl Position.step .gap).isFinal

/-! ## Types -/

/-- The type and the subtype, in lower case. -/
def parse? (cs : List Char) : Option (List Char × List Char) :=
  let kind := cs.takeWhile isTokenChar
  match cs.dropWhile isTokenChar with
  | '/' :: rest =>
    let subtype := rest.takeWhile isTokenChar
    let names := (kind.map Char.toLower, subtype.map Char.toLower)
    if kind.isEmpty then none
    else
      match rest.dropWhile isTokenChar with
      | [] => some names
      | ';' :: parameters =>
        if !subtype.isEmpty && areParameters parameters then some names else none
      | _ => none
  | _ => none

/-- The base of a subtype and its suffix, cut at the last plus that is not in front. -/
def cutSuffix? (subtype : List Char) : Option (List Char × List Char) :=
  match subtype.reverse.dropWhile (· ≠ '+') with
  | _ :: base =>
    if base.isEmpty then none
    else some (base.reverse, (subtype.reverse.takeWhile (· ≠ '+')).reverse)
  | [] => none

/-- A subtype that is JSON itself, or has its format. -/
def namesJson (subtype : List Char) : Bool :=
  let json := "json".toList
  match cutSuffix? subtype with
  | some (base, suffix) => base == json || suffix == json
  | none => subtype == json

/-- Whether a content type promises JSON. -/
def isJson (cs : List Char) : Bool :=
  match parse? cs with
  | some (kind, subtype) => kind == "application".toList && namesJson subtype
  | none => false

end TripleIndex.Http.MediaType
