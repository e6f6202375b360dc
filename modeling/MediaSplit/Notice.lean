import MediaSplit.Files.Selection

/-!
Notices: what is logged on the way, each with the part of the program that says it.
-/

namespace MediaSplit

inductive Severity where
  | debug
  | info
  | error
  deriving DecidableEq, Repr

def Severity.name : Severity → String
  | .debug => "DEBUG"
  | .info => "INFO"
  | .error => "ERROR"

inductive Notice where
  | ignoring (path : String)
  | skippingDestination (path : String)
  | skippingStripped (path : String)
  | parsing (path : String)
  | mediaFound (count : Nat) (path : String)
  | rulesKept (count : Nat) (path : String)
  | workFailed (path error : String)
  | cannotWrite (path error : String)
  deriving DecidableEq, Repr

namespace Notice

def severity : Notice → Severity
  | .ignoring _ | .skippingDestination _ | .skippingStripped _ | .parsing _ => .debug
  | .mediaFound _ _ | .rulesKept _ _ => .info
  | .workFailed _ _ | .cannotWrite _ _ => .error

def source : Notice → String
  | .ignoring _ | .skippingDestination _ | .skippingStripped _ => "mqstrip.files"
  | .parsing _ => "mqstrip.cache"
  | .mediaFound _ _ | .rulesKept _ _ | .workFailed _ _ | .cannotWrite _ _ =>
      "mqstrip.engine.stripper"

def text : Notice → String
  | .ignoring path => "Ignoring " ++ path
  | .skippingDestination path => "Skipping destination file " ++ path
  | .skippingStripped path => "Skipping previously stripped file " ++ path
  | .parsing path => "Parsing " ++ path
  | .mediaFound count path =>
      toString count ++ " media rule(s) found in " ++ path ++ " for the combined file"
  | .rulesKept count path => toString count ++ " rule(s) kept in " ++ path
  | .workFailed path error => "Failed to process " ++ path ++ ": " ++ error
  | .cannotWrite path error => "Cannot write " ++ path ++ ": " ++ error

def line (n : Notice) : String :=
  n.severity.name ++ " " ++ n.source ++ ": " ++ n.text

def ofVerdict? (path : String) : Selection.Verdict → Option Notice
  | .ignored => some (.ignoring path)
  | .destination => some (.skippingDestination path)
  | .strippedCopy => some (.skippingStripped path)
  | .kept => none

end Notice

end MediaSplit
