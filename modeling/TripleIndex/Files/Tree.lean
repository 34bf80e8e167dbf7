import TripleIndex.Files.Path
import Std.Data.TreeMap

/-! # File trees

A tree of directories and files, kept flat by place. Paths are looked up from the origin or, without
a slash in front, from the working directory.
-/

namespace TripleIndex

inductive Node where
  | directory
  | file (octets : List UInt8)
deriving DecidableEq, Repr

structure FileTree where
  nodes : Std.TreeMap Place Node := ∅
  /-- The working directory. -/
  here : Place := []

/-- What stands at the end of a path. -/
inductive Spot where
  | directory (place : Place)
  | file (place : Place) (octets : List UInt8)
  /-- A free name in a directory. -/
  | vacant (place : Place)
deriving DecidableEq, Repr

namespace FileTree

/-- The origin is always a directory. -/
def node? (t : FileTree) (place : Place) : Option Node :=
  if place.isEmpty then some .directory else t.nodes[place]?

def set (t : FileTree) (place : Place) (node : Node) : FileTree :=
  { t with nodes := t.nodes.insert place node }

@[simp] theorem here_set (t : FileTree) (p : Place) (n : Node) : (t.set p n).here = t.here := rfl

theorem node?_set (t : FileTree) (p q : Place) (n : Node) (hp : p ≠ []) :
    (t.set p n).node? q = if p = q then some n else t.node? q := by
  by_cases hq : q = []
  · subst hq
    simp [node?, hp]
  · simp [node?, set, hq, Std.TreeMap.getElem?_insert]

/-! ## Looking paths up -/

/-- Follows one name from a directory. -/
def enter (t : FileTree) (place : Place) (name : FileName) : Except FileFault Spot :=
  if Path.isIdle name then .ok (.directory place)
  else if Path.isUp name then .ok (.directory place.dropLast)
  else if Path.nameLimit < Path.octetCount name then .error .nameTooLong
  else
    let next := place ++ [name]
    match t.node? next with
    | none => .ok (.vacant next)
    | some .directory => .ok (.directory next)
    | some (.file octets) => .ok (.file next octets)

/-- Follows names from a directory. All but the last one have to lead to directories. -/
def walk (t : FileTree) (place : Place) : Path → Except FileFault Spot
  | [] => .ok (.directory place)
  | name :: rest =>
    match t.enter place name with
    | .error f => .error f
    | .ok (.directory next) => t.walk next rest
    | .ok (.file next octets) =>
      if rest.isEmpty then .ok (.file next octets) else .error .notDirectory
    | .ok (.vacant next) => if rest.isEmpty then .ok (.vacant next) else .error .absent

/-- Where a path begins. -/
def start (t : FileTree) (p : Path) : Place := if p.isAbsolute then [] else t.here

def locate (t : FileTree) (p : Path) : Except FileFault Spot :=
  match p.fault? with
  | some f => .error f
  | none => t.walk (t.start p) p

/-! ## Reading and writing -/

def read (t : FileTree) (p : Path) : Except FileFault (List UInt8) :=
  match t.locate p with
  | .error f => .error f
  | .ok (.file _ octets) => .ok octets
  | .ok (.directory _) => .error .isDirectory
  | .ok (.vacant _) => .error .absent

/-- Gives a file new contents, which may depend on those it has. An absent file is created. -/
def update (t : FileTree) (p : Path) (change : List UInt8 → List UInt8) :
    Except FileFault FileTree :=
  match t.locate p with
  | .error f => .error f
  | .ok (.file place octets) => .ok (t.set place (.file (change octets)))
  | .ok (.vacant place) => .ok (t.set place (.file (change [])))
  | .ok (.directory _) => .error .isDirectory

def write (t : FileTree) (p : Path) (octets : List UInt8) : Except FileFault FileTree :=
  t.update p fun _ => octets

def append (t : FileTree) (p : Path) (octets : List UInt8) : Except FileFault FileTree :=
  t.update p (· ++ octets)

/-- Creates the directories that are missing on the way along some names. Those created before a
fault stay. -/
def createFrom (t : FileTree) (place : Place) : Path → Except FileFault Unit × FileTree
  | [] => (.ok (), t)
  | name :: rest =>
    match t.enter place name with
    | .error f => (.error f, t)
    | .ok (.directory next) => t.createFrom next rest
    | .ok (.file _ _) => (.error .notDirectory, t)
    | .ok (.vacant next) => (t.set next .directory).createFrom next rest

def createAll (t : FileTree) (p : Path) : Except FileFault Unit × FileTree :=
  match p.fault? with
  | some f => (.error f, t)
  | none => t.createFrom (t.start p) p

end FileTree

end TripleIndex
