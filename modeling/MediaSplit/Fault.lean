import MediaSplit.Encoding
import MediaSplit.Files.Tree
import MediaSplit.Stylesheet

/-!
What can go wrong while files are worked on, and how failed work is told of.
-/

namespace MediaSplit

inductive Fault where
  | path (fault : PathFault)
  | encodingName (fault : Encoding.NameFault)
  | undecodable (fault : Encoding.DecodeFault)
  | unencodable (fault : Encoding.EncodeFault)
  | parse (fault : Stylesheet.ParseFault)
  | listener (message : String)
  | noWorkers
  deriving DecidableEq, Repr

def Fault.message : Fault → String
  | .path fault => fault.message
  | .encodingName fault => fault.message
  | .undecodable fault => fault.message
  | .unencodable fault => fault.message
  | .parse fault => fault.message
  | .listener message => message
  | .noWorkers => "max_workers must be greater than 0"

/-- Whether a fault lies with the place that was to be written or with the text. A name that no
encoding has, and a path with a null character, are faults of the request itself. -/
def Fault.isOfWriting : Fault → Bool
  | .path (.trouble _ _) | .unencodable _ => true
  | _ => false

def failureText (path message : String) : String :=
  path ++ ": " ++ message

/-- How a failed phase is told of, given what is told of its failures. -/
def phaseFailureText (phase : String) (failures : List String) : String :=
  phase ++ " phase failed for " ++ toString failures.length ++ " file(s): " ++
    "; ".intercalate failures

structure FileFailure where
  path : String
  fault : Fault
  deriving DecidableEq, Repr

def FileFailure.text (f : FileFailure) : String :=
  failureText f.path f.fault.message

end MediaSplit
