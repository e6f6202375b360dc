import MediaSplit.Configuration
import MediaSplit.Json.Read

/-!
Configuration files: option values written as a JSON object in UTF-8.
-/

namespace MediaSplit.ConfigFile

def unifyLineEnds : List Char → List Char
  | [] => []
  | '\r' :: '\n' :: cs => '\n' :: unifyLineEnds cs
  | c :: cs => (if c == '\r' then '\n' else c) :: unifyLineEnds cs

def parse (path : String) (text : List Char) : Except ConfigFault Value :=
  match Json.read text with
  | .ok value => .ok value
  | .error (.oversizedInteger digits) => .error (.oversizedInteger digits)
  | .error fault => .error (.problem (.unreadable path (.json text fault)))

/-- The options that a file holds. A file that is missing or no JSON is a problem of the option
that names it; a null character in the path and bytes that are no UTF-8 are not. Options with half
of a surrogate pair in them are left alone: they have no values here. -/
def load [Codecs] (t : FileTree) (path : String) : Except ConfigFault Value :=
  match t.read (String.ofList (Path.tidy path.toList)) with
  | .error .nul => .error (.paths (.path .nul))
  | .error fault => .error (.problem (.unreadable path (.path fault)))
  | .ok bytes =>
      match Encoding.decode (.utf8 false) bytes with
      | .error fault => .error (.undecodable fault)
      | .ok text => do
          match ← parse path (unifyLineEnds text) with
          | .map entries =>
              if Json.hasHalfPair (unifyLineEnds text) then .error .halfPair
              else .ok (.map entries)
          | _ => .error (.problem (.notObject path))

end MediaSplit.ConfigFile
