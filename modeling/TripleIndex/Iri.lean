import TripleIndex.Text.Hex

/-! # Absolute IRIs

The grammar of RFC 3987 for an IRI with a scheme. The reserved characters cut an IRI into scheme,
authority, path, query and fragment; each part then admits characters of its own and octets escaped
by a percent sign.
-/

namespace TripleIndex.Iri

open Text

/-! ## Characters -/

def isAlpha (c : Char) : Bool := c.isAlpha

def isUnreserved (c : Char) : Bool :=
  c.isAlphanum || c = '-' || c = '.' || c = '_' || c = '~'

def isSubDelim (c : Char) : Bool :=
  c = '!' || c = '$' || c = '&' || c = '\'' || c = '(' || c = ')' || c = '*' || c = '+' ||
    c = ',' || c = ';' || c = '='

/-- Characters beyond ASCII for every part: no private use, no noncharacters, no tags. -/
def isUcs (c : Char) : Bool :=
  let n := c.toNat
  (0xA0 ≤ n && n ≤ 0xD7FF) || (0xF900 ≤ n && n ≤ 0xFDCF) || (0xFDF0 ≤ n && n ≤ 0xFFEF) ||
    (0x10000 ≤ n && n ≤ 0xEFFFD && n % 0x10000 ≤ 0xFFFD && !(0xE0000 ≤ n && n ≤ 0xE0FFF))

/-- Characters for private use, admitted in queries. -/
def isPrivate (c : Char) : Bool :=
  let n := c.toNat
  (0xE000 ≤ n && n ≤ 0xF8FF) || (0xF0000 ≤ n && n ≤ 0xFFFFD) || (0x100000 ≤ n && n ≤ 0x10FFFD)

def inName (c : Char) : Bool := isUnreserved c || isUcs c || isSubDelim c

def inUserInfo (c : Char) : Bool := inName c || c = ':'

def inPath (c : Char) : Bool := inName c || c = ':' || c = '@' || c = '/'

def inFragment (c : Char) : Bool := inPath c || c = '?'

def inQuery (c : Char) : Bool := inFragment c || isPrivate c

/-- Whether a text consists of the given characters and of percent-escaped octets. -/
def consistsOf (admits : Char → Bool) : List Char → Bool
  | [] => true
  | '%' :: a :: b :: cs => isHex a && isHex b && consistsOf admits cs
  | c :: cs => admits c && consistsOf admits cs

/-! ## Parts -/

/-- A text cut at the first occurrence of a mark, which belongs to neither half. -/
def cutAt (mark : Char) (cs : List Char) : List Char × Option (List Char) :=
  match cs.dropWhile (· ≠ mark) with
  | [] => (cs, none)
  | _ :: rest => (cs.takeWhile (· ≠ mark), some rest)

def isScheme : List Char → Bool
  | [] => false
  | c :: cs => isAlpha c && cs.all fun d => d.isAlphanum || d = '+' || d = '-' || d = '.'

/-- A decimal octet without leading zeros. -/
def isDecOctet (cs : List Char) : Bool :=
  !cs.isEmpty && cs.length ≤ 3 && cs.all Char.isDigit && (cs.length = 1 || cs.head? ≠ some '0') &&
    Nat.ofDigitChars 10 cs 0 ≤ 255

def isIpv4 (cs : List Char) : Bool :=
  let octets := cs.splitOn '.'
  octets.length = 4 && octets.all isDecOctet

def isHexGroup (cs : List Char) : Bool := !cs.isEmpty && cs.length ≤ 4 && cs.all isHex

/-- The count of 16-bit groups between colons; an IPv4 address may stand for the last two. -/
def countGroups (v4 : Bool) (cs : List Char) : Option Nat :=
  let pieces := cs.splitOn ':'
  match pieces.getLast? with
  | none => none
  | some last =>
    if v4 && isIpv4 last && pieces.dropLast.all isHexGroup then some (pieces.length + 1)
    else if pieces.all isHexGroup then some pieces.length
    else none

/-- Like `countGroups`, with an empty text for no groups. -/
def countGroups? (v4 : Bool) (cs : List Char) : Option Nat :=
  if cs.isEmpty then some 0 else countGroups v4 cs

/-- What stands before and behind the first pair of colons. -/
def cutDoubleColon : List Char → Option (List Char × List Char)
  | [] => none
  | ':' :: ':' :: cs => some ([], cs)
  | c :: cs => (cutDoubleColon cs).map fun p => (c :: p.1, p.2)

/-- Eight groups, or fewer with a pair of colons for at least one group of zeros. -/
def isIpv6 (cs : List Char) : Bool :=
  match cutDoubleColon cs with
  | none => countGroups true cs = some 8
  | some (before, behind) =>
    match countGroups? false before, countGroups? true behind with
    | some m, some n => m + n ≤ 7
    | _, _ => false

/-- The version is hexadecimal, and text has to follow the dot. -/
def isIpvFuture : List Char → Bool
  | [] => false
  | v :: cs =>
    match cutAt '.' cs with
    | (version, some text) =>
      (v = 'v' || v = 'V') && !version.isEmpty && version.all isHex && !text.isEmpty &&
        text.all fun c => isUnreserved c || isSubDelim c || c = ':'
    | (_, none) => false

def isIpLiteral (cs : List Char) : Bool :=
  match cs with
  | 'v' :: _ | 'V' :: _ => isIpvFuture cs
  | _ => isIpv6 cs

/-- Digits behind a colon, or nothing. -/
def isPortSuffix : List Char → Bool
  | [] => true
  | c :: cs => c = ':' && cs.all Char.isDigit

/-- A host, in brackets if it is an address of colons, and a port. -/
def isHostPort : List Char → Bool
  | '[' :: cs =>
    match cutAt ']' cs with
    | (ip, some rest) => isIpLiteral ip && isPortSuffix rest
    | (_, none) => false
  | cs =>
    match cutAt ':' cs with
    | (host, some port) => consistsOf inName host && port.all Char.isDigit
    | (host, none) => consistsOf inName host

def isAuthority (cs : List Char) : Bool :=
  match cutAt '@' cs with
  | (userInfo, some hostPort) => consistsOf inUserInfo userInfo && isHostPort hostPort
  | (hostPort, none) => isHostPort hostPort

/-- An authority between two slashes and the path, or a path alone. -/
def isHierPart : List Char → Bool
  | '/' :: '/' :: cs =>
    isAuthority (cs.takeWhile (· ≠ '/')) && consistsOf inPath (cs.dropWhile (· ≠ '/'))
  | cs => consistsOf inPath cs

def isOptional (valid : List Char → Bool) : Option (List Char) → Bool
  | none => true
  | some cs => valid cs

/-- Whether a text is an IRI with a scheme. -/
def isAbsolute (cs : List Char) : Bool :=
  match cutAt ':' cs with
  | (_, none) => false
  | (scheme, some rest) =>
    let outer := cutAt '#' rest
    let inner := cutAt '?' outer.1
    isScheme scheme && isHierPart inner.1 && isOptional (consistsOf inQuery) inner.2 &&
      isOptional (consistsOf inFragment) outer.2

end TripleIndex.Iri
