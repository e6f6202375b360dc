import MediaSplit.Stylesheet
import MediaSplit.Text.Search

/-!
Where the nodes of a style sheet go. A media block matches a width if its condition holds the
width followed by the unit of pixels. This is a search in the text of the condition, so a width
also matches as the end of a longer number.
-/

namespace MediaSplit

def conditionMatches (widths : List String) (condition : String) : Bool :=
  widths.any fun width => Text.occursIn (width.toList ++ ['p', 'x']) condition.toList

namespace Node

def isMatching (widths : List String) : Node → Bool
  | .media condition _ _ => conditionMatches widths condition
  | .rule _ => false

def matching (widths : List String) (nodes : List Node) : List Node :=
  nodes.filter (isMatching widths)

def unmatched (widths : List String) (nodes : List Node) : List Node :=
  nodes.filter fun n => !n.isMatching widths

/-- What the combined file leaves, with the blocks for the widths `unwrap` taken apart: the nodes
inside them move to the end. -/
def unmatchedUnwrapped (widths unwrap : List String) (nodes : List Node) : List Node :=
  let left := unmatched widths nodes
  unmatched unwrap left ++ (matching unwrap left).flatMap children

/-- The nodes of a stripped file. Without widths to unwrap nothing is taken apart. -/
def stripped (widths unwrap : List String) (nodes : List Node) : List Node :=
  if unwrap.isEmpty then unmatched widths nodes else unmatchedUnwrapped widths unwrap nodes

end Node

end MediaSplit
