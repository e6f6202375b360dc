import MediaSplit.Report

/-!
The events of a run.
-/

namespace MediaSplit

/-- The two phases of a run, in their order: the combined file is extracted, then the stripped
files are written. -/
inductive Phase where
  | extract
  | strip
  deriving DecidableEq, Repr

def Phase.name : Phase → String
  | .extract => "extract"
  | .strip => "strip"

inductive Event where
  | runStarted (files : List String) (dest : String)
  | runCompleted (report : Report)
  | phaseStarted (phase : Phase)
  | phaseCompleted (phase : Phase)
  | phaseFailed (phase : Phase) (error : String)
  | fileClassified (phase : Phase) (path : String) (ruleCount : Nat)
  | fileWritten (phase : Phase) (path : String)
  | fileFailed (phase : Phase) (path : String) (error : String)
  deriving DecidableEq, Repr

end MediaSplit
