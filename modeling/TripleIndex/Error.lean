import TripleIndex.QueryLine
import TripleIndex.Text.Printable

/-! # Errors

Causes, each with its wording. The wording that a platform has for a file fault is not part of the
library; messages stand in `<os error>` for it.
-/

namespace TripleIndex

/-- What is wrong with settings, or with a resource handed in. -/
inductive SettingsFault where
  | blankIndexKey
  | emptyKind
  | emptyName
  | emptyPrefix (file : String)
deriving DecidableEq, Repr

namespace SettingsFault

def message : SettingsFault → String
  | .blankIndexKey => "index key must not be empty"
  | .emptyKind => "Resource type must not be empty"
  | .emptyName => "Resource name must not be empty"
  | .emptyPrefix file => "Namespace file " ++ file ++ " declares an empty prefix ('')"

end SettingsFault

/-- The calls that an index makes on its storage. -/
inductive Call where
  | check
  | read
  | append
deriving DecidableEq, Repr

namespace Call

def name : Call → String
  | .check => "exists"
  | .read => "get"
  | .append => "append"

end Call

/-- What a file system is asked to do with a path. -/
inductive FileAction where
  | stat
  | read
  | write
  | openFile
  | list
  | createDirectory
deriving DecidableEq, Repr

namespace FileAction

def message : FileAction → String
  | .stat => "Failed to stat "
  | .read => "Failed to read "
  | .write => "Failed to write "
  | .openFile => "Failed to open "
  | .list => "Failed to list "
  | .createDirectory => "Failed to create directory "

end FileAction

/-- Why a file system does not do it. -/
inductive FileFault where
  | absent
  | notDirectory
  | isDirectory
  | nameTooLong
  /-- A path that holds the character NUL. -/
  | nul
deriving DecidableEq, Repr

namespace FileFault

def message : FileFault → String
  | .nul => "file name contained an unexpected NUL byte"
  | .absent | .notDirectory | .isDirectory | .nameTooLong => "<os error>"

end FileFault

inductive StorageFault where
  | refused (call : Call) (key : String)
  | invalidKey (key : String)
  | file (action : FileAction) (path : String) (fault : FileFault)
  /-- The stored index is not text. -/
  | notText (fault : Text.Utf8.Fault)
deriving DecidableEq, Repr

namespace StorageFault

def message : StorageFault → String
  | .refused call key => call.name ++ " refused for " ++ key
  | .invalidKey key => "Invalid storage key: " ++ Text.quoted key
  | .file action path fault => action.message ++ path ++ ": " ++ fault.message
  | .notText fault => "index content is not valid UTF-8: " ++ fault.message

end StorageFault

inductive Error where
  | settings (fault : SettingsFault)
  | parse (fault : QueryLine.Fault)
  | storage (fault : StorageFault)
  | notFound (id : String)
  /-- A record that is no JSON, or not of its shape. -/
  | serialization
  /-- A file that cannot be read as text. -/
  | io
deriving DecidableEq, Repr

namespace Error

def message : Error → String
  | .settings f => "Configuration error: " ++ f.message
  | .parse f => "Parse error: " ++ f.message
  | .storage f => "Storage error: " ++ f.message
  | .notFound id => "Not found: entry '" ++ id ++ "'"
  | .serialization => "Serialization error: "
  | .io => "IO error: "

end Error

end TripleIndex
