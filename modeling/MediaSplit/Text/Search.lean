/-!
Searching a text for another.
-/

namespace MediaSplit.Text

/-- Whether `part` stands somewhere in the text. The empty text stands in every text. -/
def occursIn (part : List Char) : List Char → Bool
  | [] => part.isEmpty
  | c :: cs => part.isPrefixOf (c :: cs) || occursIn part cs

def replaceFirst (part replacement : List Char) : List Char → List Char
  | [] => if part.isEmpty then replacement else []
  | c :: cs =>
      if part.isPrefixOf (c :: cs) then replacement ++ (c :: cs).drop part.length
      else c :: replaceFirst part replacement cs

end MediaSplit.Text
