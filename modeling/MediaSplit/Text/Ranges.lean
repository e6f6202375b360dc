/-!
Sets of characters, given as ranges of code points in ascending order.
-/

namespace MediaSplit.Text

/-- Whether a code point lies in one of the ranges, whose ends belong to them. The ranges ascend,
so the search stops at the first that starts beyond the code point. -/
def inRanges (codePoint : Nat) : List (Nat × Nat) → Bool
  | [] => false
  | (first, last) :: ranges =>
      if codePoint < first then false
      else codePoint ≤ last || inRanges codePoint ranges

end MediaSplit.Text
