import MediaSplit.Text.Printable

/-!
Quoted texts, as messages show them: printable characters stand for themselves, and all others
are escaped.
-/

namespace MediaSplit.Text

def hexDigit (n : Nat) : Char :=
  (Nat.toDigits 16 n).headD '0'

def hexPadded (width n : Nat) : List Char :=
  match width with
  | 0 => []
  | width + 1 => hexPadded width (n / 16) ++ [hexDigit (n % 16)]

def escapeCodePoint (n : Nat) : List Char :=
  if n < 0x100 then '\\' :: 'x' :: hexPadded 2 n
  else if n < 0x10000 then '\\' :: 'u' :: hexPadded 4 n
  else '\\' :: 'U' :: hexPadded 8 n

def quoteChar (quote c : Char) : List Char :=
  if c == quote || c == '\\' then ['\\', c]
  else if c == '\n' then ['\\', 'n']
  else if c == '\r' then ['\\', 'r']
  else if c == '\t' then ['\\', 't']
  else if isPrintable c then [c]
  else escapeCodePoint c.toNat

/-- Single quotes, unless the text holds one of them and no double quote. -/
def quoteFor (text : List Char) : Char :=
  if text.contains '\'' && !text.contains '"' then '"' else '\''

def quoted (text : List Char) : List Char :=
  let quote := quoteFor text
  quote :: text.flatMap (quoteChar quote) ++ [quote]

def quotedBytes (bytes : List UInt8) : List Char :=
  let chars := bytes.map fun b => Char.ofNat b.toNat
  let quote := quoteFor chars
  'b' :: quote ::
    chars.flatMap (fun c => if c.toNat < 0x80 then quoteChar quote c else escapeCodePoint c.toNat)
      ++ [quote]

end MediaSplit.Text
