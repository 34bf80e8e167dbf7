import TripleIndex.Command.Run

/-! # The program

Reads the files that a command line names into a tree, runs it there, and writes back what the run
has changed.
-/

namespace TripleIndex.Program

open Command

/-- The text that names a place on the machine. -/
def machinePath (place : Place) : String := String.ofList (place.flatMap fun name => '/' :: name)

/-- What stands at a place. Whatever is there and cannot be read as a file counts as a directory. -/
def observe (place : Place) : IO (Option Node) := do
  match ← (IO.FS.readBinFile (machinePath place)).toBaseIO with
  | .ok octets => return some (.file octets.toList)
  | .error (.noFileOrDirectory ..) => return none
  | .error _ => return some .directory

/-- The tree with what stands along a path. -/
def observeAlong (files : FileTree) (place : Place) : Path → IO FileTree
  | [] => return files
  | name :: rest => do
    if Path.isIdle name then observeAlong files place rest
    else if Path.isUp name then observeAlong files place.dropLast rest
    else
      let next := place ++ [name]
      match ← observe next with
      | none => return files
      | some node => observeAlong (files.set next node) next rest

/-- The paths that an invocation can read or write. -/
def pathsOf (v : Invocation) : List Path :=
  let stored := (Path.ofString v.storagePath).join (Path.ofString v.indexKey)
  let ingested := match v.action with
    | .ingest file => [Path.ofString file]
    | .query .. | .subjects _ | .list => []
  stored :: (v.namespaces.toList.map Path.ofString ++ ingested)

/-- The part of the machine's files that words are about. -/
def filesFor (words : List String) : IO FileTree := do
  let here := (Path.ofString (← IO.currentDir).toString).filter fun name => !name.isEmpty
  let start : FileTree := { here := here }
  match Invocation.parse words with
  | .error _ => return start
  | .ok v => (pathsOf v).foldlM (fun t p => observeAlong t (t.start p) p) start

/-- Writes back the nodes that are new or changed, directories before what they hold. -/
def writeBack (before after : FileTree) : IO Unit :=
  after.nodes.toList.forM fun (place, node) => do
    if before.nodes[place]? ≠ some node then
      match node with
      | .directory => IO.FS.createDirAll (machinePath place)
      | .file octets => IO.FS.writeBinFile (machinePath place) ⟨octets.toArray⟩

partial def readToEnd (stream : IO.FS.Stream) (read : ByteArray) : IO ByteArray := do
  let octets ← stream.read 65536
  if octets.isEmpty then return read else readToEnd stream (read ++ octets)

/-- The input, if the command reads it. -/
def inputFor (words : List String) : IO (List UInt8) := do
  match Invocation.parse words with
  | .ok { action := .query none _, .. } =>
    return (← readToEnd (← IO.getStdin) .empty).toList
  | _ => return []

/-- Runs the command line on the machine's files; the result is the exit code. -/
def run (words : List String) : IO UInt32 := do
  let before ← filesFor words
  let (report, after) := Command.run words (← inputFor words) before
  writeBack before after
  let out ← IO.getStdout
  out.write ⟨(Text.Utf8.encode report.output).toArray⟩
  out.flush
  match report.exit with
  | .success => pure ()
  | .failure e => IO.eprintln ("Error: " ++ e.message)
  | .misuse => IO.eprintln "error: the command line is not understood; try '--help'"
  return UInt32.ofNat report.exit.code

end TripleIndex.Program

def main (words : List String) : IO UInt32 := TripleIndex.Program.run words
