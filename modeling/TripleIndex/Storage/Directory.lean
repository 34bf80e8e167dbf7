import TripleIndex.Files.Listing

/-! # Directories as storage

Keys are paths below a root directory, which need not exist yet. A key that is absolute or leads up
is refused before anything is looked up, so that no key leaves the root.
-/

namespace TripleIndex

/-- Whether a key stands for a path below the root: it is neither empty nor absolute, and no name of
it leads up. -/
def isValidKey (key : String) : Bool :=
  match Path.ofString key with
  | [] => false
  | name :: rest => !name.isEmpty && !(name :: rest).any Path.isUp

structure Directory where
  files : FileTree
  root : Path

namespace Directory

/-- The path of a key. -/
def path (d : Directory) (key : String) : Except StorageFault Path :=
  if isValidKey key then .ok (d.root.join (Path.ofString key)) else .error (.invalidKey key)

def fault (action : FileAction) (p : Path) (f : FileFault) : StorageFault :=
  .file action p.toString f

/-- Whether a file stands under a key. -/
def contains (d : Directory) (key : String) : Except StorageFault Bool :=
  match d.path key with
  | .error e => .error e
  | .ok p =>
    match d.files.locate p with
    | .ok (.file _ _) => .ok true
    | .ok (.directory _) | .ok (.vacant _) | .error .absent => .ok false
    | .error f => .error (fault .stat p f)

def read (d : Directory) (key : String) : Except StorageFault (Option (List UInt8)) :=
  match d.path key with
  | .error e => .error e
  | .ok p =>
    match d.files.read p with
    | .ok octets => .ok (some octets)
    | .error .absent => .ok none
    | .error f => .error (fault .read p f)

/-- Changes the file of a key after the directories on the way to it have been created. These stay
when the change itself fails. -/
def update (d : Directory) (action : FileAction) (key : String)
    (change : FileTree → Path → Except FileFault FileTree) : Except StorageFault Unit × Directory :=
  match d.path key with
  | .error e => (.error e, d)
  | .ok p =>
    let made := d.files.createAll p.parent
    match made.1 with
    | .error f => (.error (fault .createDirectory p.parent f), { d with files := made.2 })
    | .ok () =>
      match change made.2 p with
      | .error f => (.error (fault action p f), { d with files := made.2 })
      | .ok files => (.ok (), { d with files := files })

def put (d : Directory) (key : String) (octets : List UInt8) :
    Except StorageFault Unit × Directory :=
  d.update .write key fun t p => t.write p octets

def append (d : Directory) (key : String) (octets : List UInt8) :
    Except StorageFault Unit × Directory :=
  d.update .openFile key fun t p => t.append p octets

/-- What keeps a directory from being listed. It is listed under the path that leads down to it from
the root, which can be too long although every name on it is short. -/
def unlisted? (d : Directory) (way : Path) : Option StorageFault :=
  (d.root.join way).fault?.map (fault .list (d.root.join way))

/-- The keys of the files below the root that begin with a text, in order. A key is the way from the
root down to its file. The first directory that cannot be listed ends the search. An empty path is
that of no directory, though keys behind it lead somewhere. -/
def find (d : Directory) (e : FileTree.Enumeration) (pre : String) :
    Except StorageFault (List String) :=
  if d.root.text = [] then .ok []
  else
    match d.files.locate d.root with
    | .ok (.directory place) =>
      let wayTo (p : Place) : Path := p.drop place.length
      match (d.files.directoriesFrom e [place]).findSome? fun p => d.unlisted? (wayTo p) with
      | some f => .error f
      | none =>
        let keys := (d.files.filesFrom e [place]).map fun p => (wayTo p).toString
        .ok ((keys.filter fun key => pre.toList.isPrefixOf key.toList).mergeSort fun a b => a ≤ b)
    | .ok (.file _ _) => .error (fault .list d.root .notDirectory)
    | .ok (.vacant _) | .error .absent => .ok []
    | .error f => .error (fault .list d.root f)

end Directory

end TripleIndex
