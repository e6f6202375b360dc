import MediaSplit.CommandLine
import MediaSplit.Encoding.HostNames

/-!
The program itself. It sees the files and directories that its arguments name, those on the way to
them, and those that are listed on standard input, one path on a line, unless that is a terminal;
patterns are matched against all these. Everything else happens in a tree of files in memory, and
what is new or different in it afterwards is written back.
-/

namespace MediaSplit.Disk

def pathOf (place : Location) : String :=
  "/" ++ "/".intercalate place

/-- What stands at a path. Only a directory can be followed by a slash and a dot. -/
def probe (path : String) : IO (Option Entry) := do
  try
    let bytes ← IO.FS.readBinFile path
    return some (.file bytes.toList)
  catch _ =>
    try
      let _ ← IO.FS.Handle.mk (path ++ "/.") .read
      return some .directory
    catch _ => return none

/-- Takes a place into a tree, if something is there that the tree does not know yet. -/
def look (t : FileTree) (place : Location) : IO FileTree := do
  if (t.entry? place).isSome then return t
  match ← probe (pathOf place) with
  | some entry => return t.put place entry
  | none => return t

def see (t : FileTree) (path : String) : IO FileTree := do
  let place := (Path.absolute (t.workingDirectory.map String.toList) path.toList).names
  (List.range (place.length + 1)).foldlM (fun t n => look t ((place.take n).map String.ofList)) t

/-- The paths that arguments name: the arguments, and what follows an equals sign in them. -/
def named (arguments : List String) : List String :=
  arguments.flatMap fun argument =>
    match (CommandLine.splitValue argument.toList).2 with
    | some value => [argument, String.ofList value]
    | none => [argument]

def listed : IO (List String) := do
  let input ← IO.getStdin
  if ← input.isTty then return []
  return (← input.readToEnd).splitOn "\n"

def load (arguments : List String) : IO FileTree := do
  let here := (← IO.getEnv "PWD").getD "/"
  let place := (Path.absolute [] here.toList).names.map String.ofList
  let paths := here :: (named arguments ++ (← listed))
  (paths.filter fun path => !path.isEmpty).foldlM see ⟨[], place⟩

def save (before after : FileTree) : IO Unit :=
  after.entries.forM fun (place, entry) => do
    if before.entry? place = some entry then return
    match entry with
    | .directory => IO.FS.createDirAll (pathOf place)
    | .file content => IO.FS.writeBinFile (pathOf place) ⟨content.toArray⟩

def print (lines : List CommandLine.Line) : IO Unit :=
  lines.forM fun line => do
    let stream ← match line.channel with
      | .output => IO.getStdout
      | .errors => IO.getStderr
    stream.putStrLn (line.shown (← stream.isTty))
    stream.flush

end MediaSplit.Disk

def main (arguments : List String) : IO UInt32 := do
  let before ← MediaSplit.Disk.load arguments
  let outcome := MediaSplit.CommandLine.run (fun _ => []) before arguments
  MediaSplit.Disk.save before outcome.tree
  MediaSplit.Disk.print outcome.lines
  if let some crash := outcome.crash then
    IO.eprintln crash.message
  return outcome.exitCode.toUInt32
