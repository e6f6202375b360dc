import MediaSplit.Files.Path

/-!
Names of stripped copies. A copy lies beside its source and has a suffix in front of the
extension of style sheets.
-/

namespace MediaSplit

def cssExtension : List Char :=
  ['.', 'c', 's', 's']

/-- A suffix without dots. An extension at its end goes with its dot; a line feed may follow
it. -/
def cleanSuffixChars : List Char → List Char
  | [] => []
  | c :: cs =>
      if c :: cs = cssExtension then []
      else if c :: cs = cssExtension ++ ['\n'] then ['\n']
      else if c = '.' then cleanSuffixChars cs
      else c :: cleanSuffixChars cs

def cleanSuffix (suffix : String) : String :=
  String.ofList (cleanSuffixChars suffix.toList)

/-- The name of the copy of a file: the suffix goes in front of the first extension, and a name
without one gets both. -/
def strippedName (suffix name : List Char) : List Char :=
  if Text.occursIn cssExtension name then
    Text.replaceFirst cssExtension ('.' :: suffix ++ cssExtension) name
  else name ++ '.' :: suffix ++ cssExtension

def strippedPath (path suffix : String) : String :=
  String.ofList (Path.join (Path.directoryOf path.toList)
    (strippedName (cleanSuffixChars suffix.toList) (Path.nameOf path.toList)))

end MediaSplit
