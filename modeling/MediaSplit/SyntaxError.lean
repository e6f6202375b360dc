/-!
The report of text that does not follow its grammar.
-/

namespace MediaSplit

/-- What is wrong, and where: the line and the column are counted from one, and either may be
unknown. The path names the text and may be empty. -/
structure SyntaxError where
  reason : String
  line : Option Int
  column : Option Int
  path : String
  deriving DecidableEq, Repr

namespace SyntaxError

/-- The place as messages give it. A place without a path is in an unnamed style sheet; a report
without a line is placed by its path alone. -/
def place (e : SyntaxError) : String :=
  match e.line with
  | none => e.path
  | some line =>
      let name := if e.path.isEmpty then "<css>" else e.path
      let column := match e.column with
        | some column => toString column
        | none => "None"
      name ++ ":" ++ toString line ++ ":" ++ column

def message (e : SyntaxError) : String :=
  if e.place.isEmpty then e.reason else e.place ++ ": " ++ e.reason

end SyntaxError

end MediaSplit
