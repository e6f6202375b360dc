import MediaSplit.Text.Case

/-!
Names of options. An option can be spelled with inner capitals, with hyphens or with low lines;
the last of these is the canonical form.
-/

namespace MediaSplit

def separateCapitals (text : List Char) : List Char :=
  text.flatMap fun c => if c.isUpper then ['_', c] else [c]

/-- The canonical form of an option's name. A capital at the very start gets no low line. -/
def canonicalKeyChars : List Char → List Char
  | [] => []
  | c :: cs =>
      (Text.lower (c :: separateCapitals cs)).map fun d => if d == '-' then '_' else d

def canonicalKey (key : String) : String :=
  String.ofList (canonicalKeyChars key.toList)

end MediaSplit
