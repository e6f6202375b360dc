import MediaSplit.Table

/-!
What a run has written.
-/

namespace MediaSplit

structure Combined where
  dest : String
  ruleCounts : Table String Int
  deriving DecidableEq, Repr

def Combined.total (c : Combined) : Int :=
  (c.ruleCounts.map Prod.snd).foldr (· + ·) 0

structure StrippedFile where
  source : String
  output : String
  ruleCount : Int
  deriving DecidableEq, Repr

structure Report where
  combined : Combined
  stripped : List StrippedFile
  deriving DecidableEq, Repr

def Report.outputs (r : Report) : List String :=
  r.combined.dest :: r.stripped.map StrippedFile.output

end MediaSplit
