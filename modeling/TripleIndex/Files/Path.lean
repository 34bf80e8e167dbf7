import TripleIndex.Error

/-! # Paths

A path is written as names between slashes. An empty name and a point stay where they are, two
points lead one directory up, and a slash in front makes the path begin at the origin of the tree.
-/

namespace TripleIndex

abbrev FileName := List Char

/-- The names of a path as written. -/
abbrev Path := List FileName

/-- The names that lead from the origin of a tree to a place in it. -/
abbrev Place := List FileName

namespace Path

def ofText (cs : List Char) : Path := cs.splitOn '/'

def ofString (s : String) : Path := ofText s.toList

def text (p : Path) : List Char := List.intercalate ['/'] p

def toString (p : Path) : String := String.ofList p.text

/-- A name that stays where it is. -/
def isIdle (name : FileName) : Bool := name.isEmpty || name == ['.']

/-- A name that leads up. -/
def isUp (name : FileName) : Bool := name == ['.', '.']

def isAbsolute : Path → Bool
  | [] :: _ :: _ => true
  | _ => false

/-- The path without the idle names at its end. -/
def trim (p : Path) : Path := (p.reverse.dropWhile isIdle).reverse

/-- The path of the directory that holds what a path leads to. -/
def parent (p : Path) : Path := trim p.trim.dropLast

/-- A path continued by another one; a slash at the end of the first is not doubled. -/
def join (p q : Path) : Path := if p.getLast? = some [] then p.dropLast ++ q else p ++ q

/-- Octets of the longest name. -/
def nameLimit : Nat := 255

/-- Octets of the longest path. -/
def limit : Nat := 4095

def octetCount (cs : List Char) : Nat := (Text.Utf8.encode cs).length

/-- What keeps a path from being looked up at all. -/
def fault? (p : Path) : Option FileFault :=
  if p.any fun name => name.contains '\x00' then some .nul
  else if limit < octetCount p.text then some .nameTooLong
  else none

end Path

end TripleIndex
