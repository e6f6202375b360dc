import MediaSplit.Files.Pattern
import MediaSplit.Files.Tree

/-!
The paths of a file tree that match a pattern. Patterns are matched part by part between slashes;
a double star stands for any number of directories. What a pattern does not touch of a path is
kept as it is written.
-/

namespace MediaSplit.Glob

/-- The part that stands for any number of directories. -/
def anyDepth : List Char :=
  ['*', '*']

def isHidden (name : List Char) : Bool :=
  name.head? = some '.'

/-- The place that a directory path leads to, where the empty path is the working directory.
Without a directory there is nothing to list. -/
def placeOf? (t : FileTree) (directory : List Char) : Except PathFault (Option Location) :=
  if directory.contains '\x00' then .error .nul
  else
    match t.find (if directory.isEmpty then "." else String.ofList directory) with
    | .ok (place, .directory) => .ok (some place)
    | _ => .ok none

/-- Names in a directory that match one part of a pattern. Hidden names only match a part that is
hidden itself. -/
def matchingNames (t : FileTree) (directory part : List Char) (onlyDirectories : Bool) :
    Except PathFault (List (List Char)) := do
  match ← placeOf? t directory with
  | none => .ok []
  | some place =>
      let pattern := Pattern.parse part
      .ok ((t.listing place).filterMap fun entry =>
        let name := entry.1.toList
        if (onlyDirectories && entry.2 != .directory) || (isHidden name && !isHidden part) then none
        else if Pattern.matchesName pattern name then some name
        else none)

/-- Everything inside a directory that can be reached without hidden names, after the empty path,
which stands for the directory itself. The empty path is there even if the directory is not. -/
def anythingInside (t : FileTree) (directory : List Char) (onlyDirectories : Bool) :
    Except PathFault (List (List Char)) := do
  match ← placeOf? t directory with
  | none => .ok [[]]
  | some place =>
      .ok ([] :: (t.descendants place).filterMap fun entry =>
        if onlyDirectories && entry.2 != .directory then none
        else if entry.1.any fun name => isHidden name.toList then none
        else some (['/'].intercalate (entry.1.map String.toList)))

/-- A name that is no pattern, if it is there. The empty name asks for the directory itself. -/
def literalName (t : FileTree) (directory name : List Char) : List (List Char) :=
  if name.isEmpty then if t.isDirectory (String.ofList directory) then [name] else []
  else if t.exists? (String.ofList (Path.join directory name)) then [name]
  else []

/-- Names inside a directory that match the last part of a path pattern. -/
def namesInside (t : FileTree) (directory part : List Char) (onlyDirectories : Bool) :
    Except PathFault (List (List Char)) :=
  if part = anyDepth then anythingInside t directory onlyDirectories
  else if Pattern.isMagic part then matchingNames t directory part onlyDirectories
  else .ok (literalName t directory part)

/-- The paths that match, in no particular order, except that an empty path comes first. The
directory part is matched first, where only directories count. -/
def candidates (t : FileTree) (onlyDirectories : Bool) (path : List Char) :
    Except PathFault (List (List Char)) :=
  let directory := Path.directoryOf path
  let name := Path.nameOf path
  if !Pattern.isMagic path then
    .ok (if name.isEmpty then if t.isDirectory (String.ofList directory) then [path] else []
      else if t.exists? (String.ofList path) then [path] else [])
  else if directory.isEmpty then namesInside t [] name onlyDirectories
  else do
    let directories ←
      if _h : directory.length < path.length ∧ Pattern.isMagic directory = true then
        candidates t true directory
      else .ok [directory]
    let found ← directories.mapM fun d => do
      let names ← namesInside t d name onlyDirectories
      .ok (names.map (Path.join d))
    .ok found.flatten
termination_by path.length
decreasing_by exact _h.1

/-- The paths that match a pattern, in ascending order. A pattern that starts with a double star
does not match the working directory itself. -/
def expand (t : FileTree) (pattern : String) : Except PathFault (List String) := do
  let found ← candidates t false pattern.toList
  let named :=
    if anyDepth.isPrefixOf pattern.toList && found.head? = some [] then found.drop 1 else found
  .ok ((named.map String.ofList).mergeSort fun a b => decide (a ≤ b))

end MediaSplit.Glob
