/-!
Character classes of style sheet text, and the normal form in which it is read: no null
character, and the line feed as the only line end.
-/

namespace MediaSplit.Css

/-- Blank characters of a normalised text. Other line ends are line feeds by then. -/
def isSpace (c : Char) : Bool :=
  c == ' ' || c == '\n' || c == '\t'

def isHexDigit (c : Char) : Bool :=
  c.isDigit || ('a' ≤ c && c ≤ 'f') || ('A' ≤ c && c ≤ 'F')

/-- The value of a hexadecimal digit, and zero for every other character. -/
def hexValue (c : Char) : Nat :=
  if c.isDigit then c.toNat - '0'.toNat
  else if 'a' ≤ c && c ≤ 'f' then c.toNat - 'a'.toNat + 10
  else if 'A' ≤ c && c ≤ 'F' then c.toNat - 'A'.toNat + 10
  else 0

def hexNumber (digits : List Char) : Nat :=
  digits.foldl (fun n c => 16 * n + hexValue c) 0

/-- Letters of ASCII, the low line and every character outside ASCII start a name. -/
def isNameStart (c : Char) : Bool :=
  c.isAlpha || c == '_' || 0x7F < c.toNat

def isNameChar (c : Char) : Bool :=
  isNameStart c || c.isDigit || c == '-'

def isForbiddenInUrl (c : Char) : Bool :=
  c == '"' || c == '\'' || c == '(' || c.toNat ≤ 8 || c.toNat == 0x0B ||
    (0x0E ≤ c.toNat && c.toNat ≤ 0x1F) || c.toNat == 0x7F

/-- Replaces a null character by the replacement character and each line end by one line feed. -/
def normalize : List Char → List Char
  | [] => []
  | '\r' :: '\n' :: cs => '\n' :: normalize cs
  | c :: cs =>
      (if c == '\x00' then '\uFFFD' else if c == '\r' || c == '\x0c' then '\n' else c) ::
        normalize cs

def asciiLower (text : List Char) : List Char :=
  text.map Char.toLower

end MediaSplit.Css
