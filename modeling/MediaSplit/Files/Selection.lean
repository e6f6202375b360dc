import MediaSplit.Files.Glob
import MediaSplit.Files.Naming
import MediaSplit.Value

/-!
Choosing the source files. The paths that are asked for are expanded, and each of them is kept or
left out for the first reason that applies: it is to be ignored, it is the combined file, or its
name shows that it is a stripped copy.
-/

namespace MediaSplit

inductive PathsFault where
  | notIterable (kind : String)
  | notPath (kind : String)
  | bytesPattern
  | path (fault : PathFault)
  deriving DecidableEq, Repr

def PathsFault.message : PathsFault → String
  | .notIterable kind => "'" ++ kind ++ "' object is not iterable"
  | .notPath kind => "expected str, bytes or os.PathLike object, not " ++ kind
  | .bytesPattern => "cannot use a string pattern on a bytes-like object"
  | .path fault => fault.message

namespace Selection

/-- The kind of a value that is no path. A decimal fraction goes by its short name here. -/
def pathKind : Value → String
  | .decimal _ => "Decimal"
  | v => v.kindName

def pathOf : Value → Except PathsFault String
  | .text path => .ok path
  | v => .error (.notPath (pathKind v))

def expandPattern (t : FileTree) (pattern : String) : Except PathsFault (List String) :=
  match Glob.expand t pattern with
  | .ok paths => .ok paths
  | .error fault => .error (.path fault)

/-- What one item of a list of paths and patterns stands for. A plain path stands for itself; with
`onlyExisting` it has to be there. -/
def expandItem (t : FileTree) (onlyExisting : Bool) : Value → Except PathsFault (List String)
  | .text path =>
      if Pattern.isMagic path.toList then expandPattern t path
      else .ok (if onlyExisting && !t.exists? path then [] else [path])
  | .bytes _ => .error .bytesPattern
  | v => .error (.notPath (pathKind v))

/-- Adds the paths that are not there yet. -/
def addNew (paths : List String) (more : List String) : List String :=
  more.foldl (fun paths path => if paths.contains path then paths else paths ++ [path]) paths

/-- The paths of a list of paths and patterns, each at its first place. -/
def expandItems (t : FileTree) (onlyExisting : Bool) (paths : List String) :
    List Value → Except PathsFault (List String)
  | [] => .ok paths
  | v :: vs => do
      let more ← expandItem t onlyExisting v
      expandItems t onlyExisting (addNew paths more) vs

/-- The paths that a value asks for: those of a single pattern, in ascending order, or those of a
list of paths and patterns, in its order. -/
def expand (t : FileTree) (onlyExisting : Bool) : Value → Except PathsFault (List String)
  | .null => .ok []
  | .text pattern => expandPattern t pattern
  | v =>
      match v.items? with
      | some items => expandItems t onlyExisting [] items
      | none => .error (.notIterable v.kindName)

inductive Verdict where
  | ignored
  | destination
  | strippedCopy
  | kept
  deriving DecidableEq, Repr

def place (t : FileTree) (path : String) : Path.Absolute :=
  Path.absolute (t.workingDirectory.map String.toList) path.toList

def samePath (t : FileTree) (a b : String) : Bool :=
  place t a = place t b

/-- Whether the name of a file holds the suffix of stripped copies. An empty suffix marks no
file. -/
def hasSuffix (suffix path : String) : Bool :=
  !suffix.isEmpty && Text.occursIn suffix.toList (Path.nameOf path.toList)

def judge (t : FileTree) (ignored : List String) (dest suffix path : String) : Verdict :=
  if ignored.any (samePath t path) then .ignored
  else if samePath t path dest then .destination
  else if hasSuffix suffix path then .strippedCopy
  else .kept

def judgeAll (t : FileTree) (source ignore : Value) (dest suffix : String) :
    Except PathsFault (List (String × Verdict)) := do
  let paths ← expand t false source
  let ignored ← expand t true ignore
  .ok (paths.map fun path => (path, judge t ignored dest (cleanSuffix suffix) path))

def kept (judged : List (String × Verdict)) : List String :=
  judged.filterMap fun (path, verdict) => if verdict = .kept then some path else none

def sourceFiles (t : FileTree) (source ignore : Value) (dest suffix : String) :
    Except PathsFault (List String) :=
  (judgeAll t source ignore dest suffix).map kept

end Selection

end MediaSplit
