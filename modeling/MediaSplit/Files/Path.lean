import MediaSplit.Text.Search

/-!
Paths as texts. Nothing here looks at files: a path is cut into a directory and a name, joined
from them, and brought into a normal form in which two spellings of one place are equal.
-/

namespace MediaSplit.Path

def nameOf (path : List Char) : List Char :=
  (path.reverse.takeWhile (· != '/')).reverse

def beforeName (path : List Char) : List Char :=
  (path.reverse.dropWhile (· != '/')).reverse

def dropSlashes (path : List Char) : List Char :=
  if path.all (· == '/') then path else (path.reverse.dropWhile (· == '/')).reverse

/-- The directory that a path names, without slashes at its end unless it is the root. -/
def directoryOf (path : List Char) : List Char :=
  dropSlashes (beforeName path)

theorem length_dropSlashes_le (path : List Char) : (dropSlashes path).length ≤ path.length := by
  unfold dropSlashes
  split
  · exact Nat.le_refl _
  · simpa using (List.dropWhile_sublist (l := path.reverse) (· == '/')).length_le

/-- Directory and name together are no longer than the path. -/
theorem length_directoryOf_add_le (path : List Char) :
    (directoryOf path).length + (nameOf path).length ≤ path.length := by
  have hsplit := congrArg List.length
    (List.takeWhile_append_dropWhile (p := (· != '/')) (l := path.reverse))
  have hdrop := length_dropSlashes_le (beforeName path)
  simp only [List.length_append, List.length_reverse] at hsplit
  simp only [directoryOf, nameOf, beforeName, List.length_reverse] at hdrop ⊢
  omega

def join (directory path : List Char) : List Char :=
  if path.head? = some '/' then path
  else if directory.isEmpty || directory.getLast? = some '/' then directory ++ path
  else directory ++ '/' :: path

def parts (path : List Char) : List (List Char) :=
  path.splitOn '/'

/-- The parts that lead somewhere: empty ones repeat a slash, and a single dot stays in place. -/
def steps (path : List Char) : List (List Char) :=
  (parts path).filter fun part => !part.isEmpty && part != ['.']

/-- The normal form of an absolute path: its names from the root on, and whether it starts with
exactly two slashes, which is a root of its own. -/
structure Absolute where
  twoSlashes : Bool
  names : List (List Char)
  deriving DecidableEq, Repr

/-- Goes up for a double dot, and down for every other part. Above the root is the root. -/
def follow (names : List (List Char)) (step : List Char) : List (List Char) :=
  if step = ['.', '.'] then names.dropLast else names ++ [step]

def startsWithTwoSlashes (path : List Char) : Bool :=
  ['/', '/'].isPrefixOf path && !(['/', '/', '/'].isPrefixOf path)

def absolute (workingDirectory : List (List Char)) (path : List Char) : Absolute :=
  if path.head? = some '/' then
    ⟨startsWithTwoSlashes path, (steps path).foldl follow []⟩
  else ⟨false, (steps path).foldl follow workingDirectory⟩

/-- A path as configuration files are addressed: without repeated slashes, single dots and a
slash at the end. -/
def tidy (path : List Char) : List Char :=
  let root :=
    if startsWithTwoSlashes path then ['/', '/']
    else if path.head? = some '/' then ['/']
    else []
  let body := root ++ ['/'].intercalate (steps path)
  if body.isEmpty then ['.'] else body

end MediaSplit.Path
