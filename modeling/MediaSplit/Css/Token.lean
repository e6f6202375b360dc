import MediaSplit.Css.Scan

/-!
Token trees: lexemes nested by their brackets. Nesting never fails. A closing bracket that does
not close the innermost open block is a token of its own, and blocks that are still open at the
end of the text end there.
-/

namespace MediaSplit.Css

/-- A token with the place where it starts. -/
inductive Token where
  | atom (start : Place) (a : Atom)
  | function (start : Place) (name : List Char) (arguments : List Token)
  | block (start : Place) (bracket : Bracket) (content : List Token)
  | stray (start : Place) (bracket : Bracket)
  deriving Repr

namespace Token

def start : Token → Place
  | .atom p _ | .function p _ _ | .block p _ _ | .stray p _ => p

/-- What an open token will be once it is closed. -/
inductive Opener where
  | function (name : List Char)
  | block (bracket : Bracket)
  deriving DecidableEq, Repr

namespace Opener

def bracket : Opener → Bracket
  | .function _ => .paren
  | .block b => b

def close (start : Place) (content : List Token) : Opener → Token
  | .function name => .function start name content
  | .block b => .block start b content

end Opener

/-- An open token, together with the finished tokens of the list that it stands in. Token lists
are kept with their last token first while they grow. -/
structure Frame where
  start : Place
  opener : Opener
  before : List Token

/-- Lists under construction: the frames of the open tokens, innermost first, and the tokens
read so far inside the innermost of them. -/
structure Builder where
  frames : List Frame
  current : List Token

namespace Builder

def empty : Builder := ⟨[], []⟩

def push (b : Builder) (t : Token) : Builder :=
  { b with current := t :: b.current }

def openToken (b : Builder) (start : Place) (opener : Opener) : Builder :=
  ⟨⟨start, opener, b.current⟩ :: b.frames, []⟩

/-- Takes one lexeme. -/
def step (b : Builder) : Place × Lexeme → Builder
  | (p, .atom a) => b.push (.atom p a)
  | (p, .openFunction name) => b.openToken p (.function name)
  | (p, .openBlock bracket) => b.openToken p (.block bracket)
  | (p, .close bracket) =>
      match b.frames with
      | frame :: frames =>
          if frame.opener.bracket = bracket then
            ⟨frames, frame.opener.close frame.start b.current.reverse :: frame.before⟩
          else b.push (.stray p bracket)
      | [] => b.push (.stray p bracket)

/-- Closes every open token and gives the tokens of the outermost list in order. -/
def finish (frames : List Frame) (current : List Token) : List Token :=
  match frames with
  | [] => current.reverse
  | frame :: frames =>
      finish frames (frame.opener.close frame.start current.reverse :: frame.before)

end Builder

def ofLexemes (lexemes : List (Place × Lexeme)) : List Token :=
  let b := lexemes.foldl Builder.step Builder.empty
  Builder.finish b.frames b.current

mutual

/-- The number of tokens in a tree. -/
def weight : Token → Nat
  | .atom _ _ | .stray _ _ => 1
  | .function _ _ arguments => 1 + weights arguments
  | .block _ _ content => 1 + weights content

def weights : List Token → Nat
  | [] => 0
  | t :: ts => t.weight + weights ts

end

end Token

end MediaSplit.Css
