import MediaSplit.Css.Token

/-!
The written form of tokens. Values are written with the escapes that they need to be read as the
same value again. Between two neighbours that would run together when read, an empty comment is
written; a lone backslash is kept apart from what follows by a line feed.
-/

namespace MediaSplit.Css

/-- Line ends can only stand in a value as hexadecimal escapes. -/
def escapedLineEnd? (c : Char) : Option (List Char) :=
  if c == '\n' then some ['\\', 'A', ' ']
  else if c == '\r' then some ['\\', 'D', ' ']
  else if c == '\x0c' then some ['\\', 'C', ' ']
  else none

/-- A character inside a name: escaped unless it is a name character. -/
def writeNameChar (c : Char) : List Char :=
  if isNameChar c then [c] else (escapedLineEnd? c).getD ['\\', c]

def writeName (name : List Char) : List Char :=
  name.flatMap writeNameChar

/-- The upper case hexadecimal digits of a number, without leading zeros. -/
def hexDigits (n : Nat) : List Char :=
  (Nat.toDigits 16 n).map Char.toUpper

/-- The first character of a name, after a hyphen or without one: a digit is written as its code
point there. -/
def writeFirstChar (c : Char) : List Char :=
  if isNameStart c then [c]
  else if c.isDigit then '\\' :: hexDigits c.toNat ++ [' ']
  else (escapedLineEnd? c).getD ['\\', c]

def writeIdent : List Char → List Char
  | [] => []
  | ['-'] => ['\\', '-']
  | '-' :: '-' :: rest => '-' :: '-' :: writeName rest
  | '-' :: c :: rest => '-' :: writeFirstChar c ++ writeName rest
  | c :: rest => writeFirstChar c ++ writeName rest

/-- The unit of a dimension. One that could be read as the exponent of its number has its first
letter written as a code point. -/
def writeUnit : List Char → List Char
  | [] => []
  | c :: rest =>
      if (c == 'e' || c == 'E') && (rest.isEmpty || rest.head? == some '-') then
        ['\\', '6', '5', ' '] ++ writeName rest
      else writeIdent (c :: rest)

def writeStringChar (c : Char) : List Char :=
  if c == '"' || c == '\\' then ['\\', c] else (escapedLineEnd? c).getD [c]

def writeUrlChar (c : Char) : List Char :=
  if c == '\'' || c == '"' || c == ' ' || c == '\\' || c == '(' || c == ')' then ['\\', c]
  else if c == '\t' then ['\\', '9', ' ']
  else (escapedLineEnd? c).getD [c]

/-- The written form of an atom. A string or an address that the end of the text cut short has
no closing sign; the two malformed atoms are written as others that are malformed likewise. -/
def Atom.text : Atom → List Char
  | .whitespace text | .literal text => text
  | .comment text => '/' :: '*' :: text ++ ['*', '/']
  | .ident name => writeIdent name
  | .atKeyword name => '@' :: writeIdent name
  | .hash name isIdentifier => '#' :: if isIdentifier then writeIdent name else writeName name
  | .number numeral => numeral
  | .percentage numeral => numeral ++ ['%']
  | .dimension numeral unit => numeral ++ writeUnit unit
  | .string value closed => '"' :: value.flatMap writeStringChar ++ if closed then ['"'] else []
  | .badString => "\"[bad string]\n".toList
  | .url value closed => "url(".toList ++ value.flatMap writeUrlChar ++ if closed then [')'] else []
  | .badUrl => "url([bad url])".toList
  | .unicodeRange first last =>
      'U' :: '+' :: hexDigits first ++ if first = last then [] else '-' :: hexDigits last

inductive Kind where
  | ident
  | atKeyword
  | hash
  | dimension
  | number
  | percentage
  | function
  | url
  | unicodeRange
  | parentheses
  | whitespace
  | literal (text : List Char)
  | other
  deriving DecidableEq, Repr

namespace Kind

def endsInName : Kind → Bool
  | .ident | .atKeyword | .hash | .dimension => true
  | _ => false

def isSign (c : Char) (k : Kind) : Bool :=
  k == .literal [c]

def isNumeric : Kind → Bool
  | .number | .percentage | .dimension => true
  | _ => false

def startsWithName : Kind → Bool
  | .ident | .function | .url => true
  | _ => false

/-- Whether a token of the first kind, written right before one of the second, would be read
together with it. -/
def runsInto (a b : Kind) : Bool :=
  ((a.endsInName || a.isSign '#' || a.isSign '-' || a == .number) &&
      (b.startsWithName || b.isNumeric || b == .unicodeRange)) ||
    (a.endsInName && (b.isSign '-' || b == .literal ['-', '-', '>'])) ||
    ((a == .unicodeRange || a.isSign '.' || a.isSign '+') && b.isNumeric) ||
    (a.isSign '@' && (b.startsWithName || b == .unicodeRange || b.isSign '-')) ||
    (a == .unicodeRange && (b == .ident || b == .function || b.isSign '?')) ||
    ((a.isSign '$' || a.isSign '*' || a.isSign '^' || a.isSign '~' || a.isSign '|') &&
      b.isSign '=') ||
    (a == .ident && b == .parentheses) ||
    (a.isSign '|' && b.isSign '|') ||
    (a.isSign '/' && b.isSign '*')

end Kind

def Atom.kind : Atom → Kind
  | .whitespace _ => .whitespace
  | .literal text => .literal text
  | .ident _ => .ident
  | .atKeyword _ => .atKeyword
  | .hash _ _ => .hash
  | .number _ => .number
  | .percentage _ => .percentage
  | .dimension _ _ => .dimension
  | .url _ _ => .url
  | .unicodeRange _ _ => .unicodeRange
  | .comment _ | .string _ _ | .badString | .badUrl => .other

def Token.kind : Token → Kind
  | .atom _ a => a.kind
  | .function _ _ _ => .function
  | .block _ .paren _ => .parentheses
  | .block _ _ _ | .stray _ _ => .other

structure Piece where
  kind : Kind
  text : List Char
  deriving DecidableEq, Repr

namespace Piece

def separator (left right : Piece) : List Char :=
  if left.kind.runsInto right.kind then ['/', '*', '*', '/']
  else if left.kind = .literal ['\\'] ∧
      ¬ (right.kind = .whitespace ∧ right.text.head? = some '\n') then ['\n']
  else []

def join : List Piece → List Char
  | [] => []
  | [p] => p.text
  | p :: q :: rest => p.text ++ separator p q ++ join (q :: rest)

end Piece

namespace Token

mutual

/-- Whether the text ended inside a string that is the last thing in a function. -/
def endsInOpenString : Token → Bool
  | .atom _ (.string _ closed) => !closed
  | .function _ _ arguments => lastEndsInOpenString arguments
  | _ => false

def lastEndsInOpenString : List Token → Bool
  | [] => false
  | [t] => t.endsInOpenString
  | _ :: ts => lastEndsInOpenString ts

end

mutual

/-- The written form of a token. A function whose last argument is cut short inside a string has
no closing parenthesis. -/
def text : Token → List Char
  | .atom _ a => a.text
  | .function _ name arguments =>
      writeIdent name ++ '(' :: Piece.join (pieces arguments) ++
        if lastEndsInOpenString arguments then [] else [')']
  | .block _ bracket content =>
      bracket.opening :: Piece.join (pieces content) ++ [bracket.closing]
  | .stray _ bracket => [bracket.closing]

def pieces : List Token → List Piece
  | [] => []
  | t :: ts => ⟨t.kind, t.text⟩ :: pieces ts

end

def write (tokens : List Token) : List Char :=
  Piece.join (pieces tokens)

end Token

end MediaSplit.Css
