import MediaSplit.Files.Path
import MediaSplit.Table
import MediaSplit.Text.Quoted

/-!
The tree of files that a run works on. A path is followed name by name from the root or from the
working directory, and each name on the way has to be that of a directory; only the last may be
missing, where something is to be made.
-/

namespace MediaSplit

abbrev Location := List String

inductive Entry where
  | file (content : List UInt8)
  | directory
  deriving DecidableEq, Repr

inductive PathTrouble where
  | noEntry
  | alreadyThere
  | notDirectory
  | isDirectory
  | nameTooLong
  deriving DecidableEq, Repr

def PathTrouble.text : PathTrouble → String
  | .noEntry => "[Errno 2] No such file or directory"
  | .alreadyThere => "[Errno 17] File exists"
  | .notDirectory => "[Errno 20] Not a directory"
  | .isDirectory => "[Errno 21] Is a directory"
  | .nameTooLong => "[Errno 36] File name too long"

inductive PathFault where
  | trouble (t : PathTrouble) (path : String)
  | nul
  deriving DecidableEq, Repr

def PathFault.message : PathFault → String
  | .trouble t path => t.text ++ ": " ++ String.ofList (Text.quoted path.toList)
  | .nul => "embedded null byte"

def PathFault.isAlreadyThere : PathFault → Bool
  | .trouble .alreadyThere _ => true
  | _ => false

structure FileTree where
  entries : Table Location Entry
  workingDirectory : Location
  deriving DecidableEq, Repr

namespace FileTree

def entry? (t : FileTree) : Location → Option Entry
  | [] => some .directory
  | place => Table.get? t.entries place

def put (t : FileTree) (place : Location) (e : Entry) : FileTree :=
  { t with entries := Table.set place e t.entries }

def remove (t : FileTree) (place : Location) : FileTree :=
  { t with entries := t.entries.filter fun entry => entry.1 != place }

def maxNameBytes : Nat := 255

def maxPathBytes : Nat := 4096

def walk (t : FileTree) (here : Location) : List String → Except PathTrouble Location
  | [] => .ok here
  | name :: rest =>
      match t.entry? here with
      | none => .error .noEntry
      | some (.file _) => .error .notDirectory
      | some .directory =>
          if name = "." then t.walk here rest
          else if name = ".." then t.walk here.dropLast rest
          else if maxNameBytes < name.utf8ByteSize then .error .nameTooLong
          else t.walk (here ++ [name]) rest

/-- The place that a path leads to, whether or not something is there. -/
def locate (t : FileTree) (path : String) : Except PathTrouble Location :=
  if path.isEmpty then .error .noEntry
  else if maxPathBytes ≤ path.utf8ByteSize then .error .nameTooLong
  else
    let names := ((Path.parts path.toList).filter fun part => !part.isEmpty).map String.ofList
    t.walk (if path.toList.head? = some '/' then [] else t.workingDirectory) names

def asksForDirectory (path : String) : Bool :=
  path.toList.getLast? = some '/'

def find (t : FileTree) (path : String) : Except PathTrouble (Location × Entry) := do
  let place ← t.locate path
  match t.entry? place with
  | none => .error .noEntry
  | some (.file content) =>
      if asksForDirectory path then .error .notDirectory else .ok (place, .file content)
  | some .directory => .ok (place, .directory)

/-- Refuses paths with a null character and adds the path to the trouble with it. -/
def onPath {α : Type} (path : String) (result : Except PathTrouble α) : Except PathFault α :=
  if path.toList.contains '\x00' then .error .nul
  else
    match result with
    | .ok a => .ok a
    | .error t => .error (.trouble t path)

def exists? (t : FileTree) (path : String) : Bool :=
  (onPath path (t.find path)).isOk

def isDirectory (t : FileTree) (path : String) : Bool :=
  match onPath path (t.find path) with
  | .ok (_, .directory) => true
  | _ => false

def read (t : FileTree) (path : String) : Except PathFault (List UInt8) :=
  onPath path do
    match ← t.find path with
    | (_, .file content) => .ok content
    | (_, .directory) => .error .isDirectory

def makeDirectory (t : FileTree) (path : String) : Except PathFault FileTree :=
  onPath path do
    let place ← t.locate path
    match t.entry? place with
    | some _ => .error .alreadyThere
    | none => .ok (t.put place .directory)

def splitPath (path : List Char) : List Char × List Char :=
  if (Path.nameOf path).isEmpty then
    (Path.directoryOf (Path.directoryOf path), Path.nameOf (Path.directoryOf path))
  else (Path.directoryOf path, Path.nameOf path)

theorem length_splitPath_lt {path : List Char} (h : (splitPath path).2 ≠ []) :
    (splitPath path).1.length < path.length := by
  have hname : 0 < (splitPath path).2.length := List.length_pos_iff.mpr h
  have houter := Path.length_directoryOf_add_le path
  have hinner := Path.length_directoryOf_add_le (Path.directoryOf path)
  unfold splitPath at hname ⊢
  split at hname <;> simp_all <;> omega

def ensureDirectory (t : FileTree) (path : String) : Except PathFault Unit × FileTree :=
  match t.makeDirectory path with
  | .ok t' => (.ok (), t')
  | .error fault => if t.isDirectory path then (.ok (), t) else (.error fault, t)

/-- Makes a directory and, before it, all that are missing on the way to it. One that is there
already is left alone, and a single dot below a new directory is that directory. What was made
stays where a later step fails. -/
def makeDirectories (t : FileTree) (path : List Char) : Except PathFault Unit × FileTree :=
  let split := splitPath path
  if _h : split.1 ≠ [] ∧ split.2 ≠ [] ∧ t.exists? (String.ofList split.1) = false then
    let (made, t') := t.makeDirectories split.1
    match made with
    | .error fault =>
        if fault.isAlreadyThere then
          if split.2 = ['.'] then (.ok (), t') else t'.ensureDirectory (String.ofList path)
        else (.error fault, t')
    | .ok _ => if split.2 = ['.'] then (.ok (), t') else t'.ensureDirectory (String.ofList path)
  else t.ensureDirectory (String.ofList path)
termination_by path.length
decreasing_by exact length_splitPath_lt _h.2.1

def openForWriting (t : FileTree) (path : String) : Except PathFault (Location × FileTree) :=
  onPath path do
    let place ← t.locate path
    if asksForDirectory path then .error .isDirectory
    else
      match t.entry? place with
      | some .directory => .error .isDirectory
      | _ => .ok (place, t.put place (.file []))

def below? : Location → Location → Option Location
  | [], place => some place
  | _ :: _, [] => none
  | name :: base, name' :: place => if name = name' then below? base place else none

def listing (t : FileTree) (place : Location) : List (String × Entry) :=
  t.entries.filterMap fun entry =>
    match below? place entry.1 with
    | some [name] => some (name, entry.2)
    | _ => none

/-- All entries inside a directory, each with the names that lead to it from there. -/
def descendants (t : FileTree) (place : Location) : List (Location × Entry) :=
  t.entries.filterMap fun entry =>
    match below? place entry.1 with
    | some (name :: names) => some (name :: names, entry.2)
    | _ => none

end FileTree

end MediaSplit
