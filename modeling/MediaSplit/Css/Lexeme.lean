import MediaSplit.Css.Character
import MediaSplit.Number.IntegerLimit

/-!
The lexemes of style sheet text. A lexeme is recognised from the text alone, whatever blocks
are open around it, so a text is first cut into lexemes and only then nested.
-/

namespace MediaSplit.Css

structure Position where
  line : Nat
  column : Nat
  deriving DecidableEq, Repr

namespace Position

def start : Position := ⟨1, 1⟩

/-- The position after one more character. -/
def step (p : Position) (c : Char) : Position :=
  if c == '\n' then ⟨p.line + 1, 1⟩ else ⟨p.line, p.column + 1⟩

/-- The position after a piece of text that starts at `p`. -/
def advance (p : Position) (text : List Char) : Position :=
  text.foldl step p

end Position

/-- A place in a text, given by all that is left of the text from there on. Lines and columns are
only counted for the one place that is reported, so that reading takes each character once. -/
structure Place where
  rest : List Char
  deriving DecidableEq, Repr

def Place.position (text : List Char) (p : Place) : Position :=
  Position.start.advance (text.take (text.length - p.rest.length))

inductive Bracket where
  | paren
  | square
  | brace
  deriving DecidableEq, Repr

namespace Bracket

def opening : Bracket → Char
  | .paren => '('
  | .square => '['
  | .brace => '{'

def closing : Bracket → Char
  | .paren => ')'
  | .square => ']'
  | .brace => '}'

end Bracket

/-- A token that encloses no others. Names, strings and addresses hold their values, with every
escape undone; numbers keep the characters with which they were written. -/
inductive Atom where
  | whitespace (text : List Char)
  | comment (text : List Char)
  | literal (text : List Char)
  | ident (name : List Char)
  | atKeyword (name : List Char)
  | hash (name : List Char) (isIdentifier : Bool)
  | number (numeral : List Char)
  | percentage (numeral : List Char)
  | dimension (numeral unit : List Char)
  | string (value : List Char) (closed : Bool)
  | badString
  | url (value : List Char) (closed : Bool)
  | badUrl
  | unicodeRange (first last : Nat)
  deriving DecidableEq, Repr

inductive Lexeme where
  | atom (a : Atom)
  | openFunction (name : List Char)
  | openBlock (b : Bracket)
  | close (b : Bracket)
  deriving DecidableEq, Repr

/-- The number of digits of a numeral without fraction and exponent that is longer than an
integer may be. Its sign is not counted. -/
def oversizedDigits? (numeral : List Char) : Option Nat :=
  if numeral.all (fun c => c != '.' && c != 'e' && c != 'E') then
    oversized? (numeral.filter Char.isDigit)
  else none

def Lexeme.oversizedDigits? : Lexeme → Option Nat
  | .atom (.number n) | .atom (.percentage n) | .atom (.dimension n _) => Css.oversizedDigits? n
  | _ => none

end MediaSplit.Css
