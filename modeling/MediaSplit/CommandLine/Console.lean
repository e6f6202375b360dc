import MediaSplit.World

/-!
What a run shows. Messages can be coloured; where colours are not wanted, all that would change
the look of the text is taken out of a message, also if it came in with the name of a file. The
lines of the log are left as they are.
-/

namespace MediaSplit.CommandLine

inductive Channel where
  | output
  | errors
  deriving DecidableEq, Repr

inductive Colour where
  | red
  | green
  | blue
  deriving DecidableEq, Repr

def Colour.code : Colour → String
  | .red => "31"
  | .green => "32"
  | .blue => "34"

inductive Line where
  | plain (channel : Channel) (text : String)
  | coloured (channel : Channel) (colour : Colour) (text : String)
  | log (text : String)
  deriving DecidableEq, Repr

/-- The parameters of an escape sequence: digits and the punctuation after them. -/
def isParameter (c : Char) : Bool :=
  '0' ≤ c && c ≤ '?'

/-- What may stand between the parameters of an escape sequence and its last character. -/
def isIntermediate (c : Char) : Bool :=
  ' ' ≤ c && c ≤ '/'

def isFinal (c : Char) : Bool :=
  '@' ≤ c && c ≤ '~'

/-- What follows an escape sequence, read after its bracket. A sequence that does not come to its
last character is none. -/
def afterSequence? (cs : List Char) : Option (List Char) :=
  match (cs.dropWhile isParameter).dropWhile isIntermediate with
  | [] => none
  | c :: rest => if isFinal c then some rest else none

theorem afterSequence?_length_lt {cs rest : List Char} (h : afterSequence? cs = some rest) :
    rest.length < cs.length := by
  have hparameters := (List.dropWhile_sublist (l := cs) isParameter).length_le
  have hothers :=
    (List.dropWhile_sublist (l := cs.dropWhile isParameter) isIntermediate).length_le
  unfold afterSequence? at h
  split at h
  · simp at h
  · rename_i heq
    rw [heq, List.length_cons] at hothers
    split at h
    · simp only [Option.some.injEq] at h
      rw [← h]
      omega
    · simp at h

/-- Takes out escape sequences: an escape, a bracket, parameters, intermediates and a last
character. -/
def withoutEscapes : List Char → List Char
  | [] => []
  | '\x1b' :: '[' :: cs =>
      match _h : afterSequence? cs with
      | some rest => withoutEscapes rest
      | none => '\x1b' :: '[' :: withoutEscapes cs
  | c :: cs => c :: withoutEscapes cs
termination_by cs => cs.length
decreasing_by
  · have := afterSequence?_length_lt _h
    simp only [List.length_cons]
    omega
  · simp only [List.length_cons]; omega
  · simp

namespace Line

def channel : Line → Channel
  | .plain channel _ | .coloured channel _ _ => channel
  | .log _ => .errors

def decolour (text : String) : String :=
  String.ofList (withoutEscapes text.toList)

def shown (colours : Bool) : Line → String
  | .plain _ text => if colours then text else decolour text
  | .coloured _ colour text =>
      if colours then "\x1b[" ++ colour.code ++ "m" ++ text ++ "\x1b[0m" else decolour text
  | .log text => text

def stream (colours : Bool) (channel : Channel) (lines : List Line) : String :=
  String.join ((lines.filter fun l => l.channel = channel).map fun l => l.shown colours ++ "\n")

end Line

def lineOfEvent? : Event → Option Line
  | .fileClassified phase path count =>
      some (.plain .output
        (toString count ++ " rule(s) found in " ++ path ++ " for the " ++ phase.name ++ " pass"))
  | .fileWritten _ path => some (.coloured .output .blue ("=== Wrote " ++ path ++ " ==="))
  | .fileFailed _ path error =>
      some (.coloured .errors .red ("Failed: " ++ path ++ ": " ++ error))
  | _ => none

/-- Whether a notice is logged. Unasked nothing is; the details are logged when asked for
twice. -/
def isLogged (verbosity : Nat) (severity : Severity) : Bool :=
  match severity with
  | .debug => 2 ≤ verbosity
  | .info | .error => 1 ≤ verbosity

def lineOfNotice? (verbosity : Nat) (n : Notice) : Option Line :=
  if isLogged verbosity n.severity then some (.log n.line) else none

def lineOf? (verbosity : Nat) : Happening → Option Line
  | .event e => lineOfEvent? e
  | .notice n => lineOfNotice? verbosity n

end MediaSplit.CommandLine
