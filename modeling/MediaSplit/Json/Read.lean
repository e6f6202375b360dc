import MediaSplit.Json.Fault
import MediaSplit.Value

/-!
Reading JSON as option values. Numbers without fraction and exponent are integers of any size up
to the limit on their length; the three names of numbers that are not finite are accepted too.
Each reader returns its value with the text that is left, which is shorter than what it got. Half
of a surrogate pair may stand alone in a string. It is no character, so the value has another one
in its place, and `hasHalfPair` tells that it is not the value that the text stands for.
-/

namespace MediaSplit.Json

def isSpace (c : Char) : Bool :=
  c == ' ' || c == '\t' || c == '\n' || c == '\r'

def skipSpace (cs : List Char) : List Char :=
  cs.dropWhile isSpace

theorem skipSpace_length_le (cs : List Char) : (skipSpace cs).length ≤ cs.length :=
  (List.dropWhile_sublist isSpace).length_le

def hexDigit? (c : Char) : Option Nat :=
  if c.isDigit then some (c.toNat - '0'.toNat)
  else if 'a' ≤ c && c ≤ 'f' then some (c.toNat - 'a'.toNat + 10)
  else if 'A' ≤ c && c ≤ 'F' then some (c.toNat - 'A'.toNat + 10)
  else none

def hex4? (a b c d : Char) : Option Nat := do
  let a ← hexDigit? a
  let b ← hexDigit? b
  let c ← hexDigit? c
  let d ← hexDigit? d
  return ((a * 16 + b) * 16 + c) * 16 + d

def escaped? : Char → Option Char
  | '"' => some '"'
  | '\\' => some '\\'
  | '/' => some '/'
  | 'b' => some '\x08'
  | 'f' => some '\x0c'
  | 'n' => some '\n'
  | 'r' => some '\r'
  | 't' => some '\t'
  | _ => none

/-- The character of a code unit. The replacement character keeps the place of half a pair. -/
def unitChar (u : Nat) : Char :=
  if h : u.isValidChar then Char.ofNatAux u h else '\uFFFD'

/-- A second code unit that completes a pair of surrogates, and the text after it. It counts only
if more text follows, and is an error if its digits are none. -/
def lowSurrogate? (high : Nat) (cs : List Char) : Except Fault (Option (Nat × List Char)) :=
  if 0xD800 ≤ high ∧ high < 0xDC00 then
    match cs with
    | '\\' :: 'u' :: a :: b :: c :: d :: e :: rest =>
        match hex4? a b c d with
        | none => .error (.malformed .badUnicodeEscape (rest.length + 6))
        | some low =>
            if 0xDC00 ≤ low ∧ low < 0xE000 then .ok (some (low, e :: rest)) else .ok none
    | _ => .ok none
  else .ok none

theorem lowSurrogate?_length_lt {high low : Nat} {cs rest : List Char}
    (h : lowSurrogate? high cs = .ok (some (low, rest))) : rest.length < cs.length := by
  unfold lowSurrogate? at h
  split at h
  · split at h
    · split at h
      · simp at h
      · split at h
        · simp only [Except.ok.injEq, Option.some.injEq, Prod.mk.injEq] at h
          rw [← h.2]
          simp only [List.length_cons]
          omega
        · simp at h
    · simp at h
  · simp at h

/-- Reads an escaped code unit, and a second one if the two make a pair of surrogates; `cs` is what
follows the letter of the escape. -/
def readUnits (cs : List Char) : Except Fault (Char × List Char) :=
  match cs with
  | a :: b :: c :: d :: e :: rest =>
      match hex4? a b c d with
      | none => .error (.malformed .badUnicodeEscape (rest.length + 6))
      | some unit =>
          match lowSurrogate? unit (e :: rest) with
          | .error fault => .error fault
          | .ok (some (low, rest)) =>
              .ok (unitChar (0x10000 + (unit - 0xD800) * 0x400 + (low - 0xDC00)), rest)
          | .ok none => .ok (unitChar unit, e :: rest)
  | cs => .error (.malformed .badUnicodeEscape (cs.length + 1))

theorem readUnits_length_lt {cs rest : List Char} {c : Char}
    (h : readUnits cs = .ok (c, rest)) : rest.length < cs.length := by
  unfold readUnits at h
  split at h
  · split at h
    · simp at h
    · split at h
      · simp at h
      · rename_i hlow
        have hlt := lowSurrogate?_length_lt hlow
        simp only [Except.ok.injEq, Prod.mk.injEq] at h
        rw [← h.2]
        simp only [List.length_cons] at hlt ⊢
        omega
      · simp only [Except.ok.injEq, Prod.mk.injEq] at h
        rw [← h.2]
        simp only [List.length_cons]
        omega
  · simp at h

/-- Reads one character of a string, written as it is or as an escape. -/
def readChar (start : Nat) : List Char → Except Fault (Char × List Char)
  | [] => .error (.malformed .unterminatedString start)
  | ['\\'] => .error (.malformed .unterminatedString start)
  | '\\' :: 'u' :: cs => readUnits cs
  | '\\' :: c :: rest =>
      match escaped? c with
      | none => .error (.malformed .badEscape (rest.length + 2))
      | some d => .ok (d, rest)
  | c :: rest =>
      if c.toNat < 0x20 then .error (.malformed .controlCharacter (rest.length + 1))
      else .ok (c, rest)

theorem readChar_length_lt {start : Nat} {cs rest : List Char} {c : Char}
    (h : readChar start cs = .ok (c, rest)) : rest.length < cs.length := by
  unfold readChar at h
  split at h
  · simp at h
  · simp at h
  · have := readUnits_length_lt h
    simp only [List.length_cons]
    omega
  · split at h
    · simp at h
    · simp only [Except.ok.injEq, Prod.mk.injEq] at h
      rw [← h.2]
      simp only [List.length_cons]
      omega
  · split at h
    · simp at h
    · simp only [Except.ok.injEq, Prod.mk.injEq] at h
      rw [← h.2]
      simp

def readChars (start : Nat) (cs : List Char) : Except Fault (List Char × List Char) :=
  if cs.head? = some '"' then .ok ([], cs.tail)
  else
    match _h : readChar start cs with
    | .error fault => .error fault
    | .ok (c, rest) =>
        match readChars start rest with
        | .error fault => .error fault
        | .ok (chars, after) => .ok (c :: chars, after)
termination_by cs.length
decreasing_by exact readChar_length_lt _h

theorem readChars_length_lt {start : Nat} {cs : List Char} {r : List Char × List Char}
    (h : readChars start cs = .ok r) : r.2.length < cs.length := by
  fun_induction readChars start cs generalizing r with
  | case1 cs hquote =>
      cases cs with
      | nil => simp at hquote
      | cons c rest =>
          simp only [Except.ok.injEq] at h
          simp [← h]
  | case2 => simp at h
  | case3 => simp at h
  | case4 cs _ c rest hchar chars after hrest ih =>
      have hlt : after.length < rest.length := ih hrest
      have := readChar_length_lt hchar
      simp only [Except.ok.injEq] at h
      simp only [← h]
      omega

/-- Reads a string after its opening quote; `start` characters were left before the quote. -/
def readString (start : Nat) (cs : List Char) :
    Except Fault { r : List Char × List Char // r.2.length < cs.length } :=
  match h : readChars start cs with
  | .error fault => .error fault
  | .ok r => .ok ⟨r, readChars_length_lt h⟩

def spanDigits (cs : List Char) : List Char × List Char :=
  (cs.takeWhile Char.isDigit, cs.dropWhile Char.isDigit)

def spanFraction (cs : List Char) : List Char × List Char :=
  match cs with
  | '.' :: after =>
      if (spanDigits after).1.isEmpty then ([], cs) else spanDigits after
  | _ => ([], cs)

/-- Reads the digits of an exponent. Where there are none, nothing of `whole` is read. -/
def exponentDigits (whole : List Char) (negative : Bool) (cs : List Char) :
    Option Int × List Char :=
  if cs.takeWhile Char.isDigit = [] then (none, whole)
  else
    let magnitude : Int := Decimal.numberOf (cs.takeWhile Char.isDigit)
    (some (if negative then -magnitude else magnitude), cs.dropWhile Char.isDigit)

/-- Reads an exponent: its letter, an optional sign and at least one digit, or nothing. -/
def spanExponent (cs : List Char) : Option Int × List Char :=
  if cs.head? = some 'e' ∨ cs.head? = some 'E' then
    match cs.tail with
    | '-' :: after => exponentDigits cs true after
    | '+' :: after => exponentDigits cs false after
    | after => exponentDigits cs false after
  else (none, cs)

theorem spanFraction_length_le (cs : List Char) : (spanFraction cs).2.length ≤ cs.length := by
  unfold spanFraction
  split
  · rename_i after
    have := (List.dropWhile_sublist (l := after) Char.isDigit).length_le
    split
    · exact Nat.le_refl _
    · simp only [spanDigits, List.length_cons]; omega
  · exact Nat.le_refl _

theorem exponentDigits_length_le {whole cs : List Char} (negative : Bool)
    (h : cs.length ≤ whole.length) :
    (exponentDigits whole negative cs).2.length ≤ whole.length := by
  unfold exponentDigits
  split
  · exact Nat.le_refl _
  · exact Nat.le_trans (List.dropWhile_sublist Char.isDigit).length_le h

theorem spanExponent_length_le (cs : List Char) : (spanExponent cs).2.length ≤ cs.length := by
  have htail : cs.tail.length ≤ cs.length := by simp
  unfold spanExponent
  split
  · split <;> rename_i heq <;> apply exponentDigits_length_le
    · rw [heq, List.length_cons] at htail
      omega
    · rw [heq, List.length_cons] at htail
      omega
    · exact htail
  · exact Nat.le_refl _

/-- Reads the digits before the point: zero alone, or a row that does not start with it. -/
def spanWhole : List Char → List Char × List Char
  | '0' :: rest => (['0'], rest)
  | cs => spanDigits cs

def numberOf (negative : Bool) (whole fraction : List Char) (exponent : Option Int) :
    Except Fault Value :=
  if fraction.isEmpty && exponent.isNone then
    match oversized? whole with
    | some digits => .error (.oversizedInteger digits)
    | none =>
        let magnitude : Int := Decimal.numberOf whole
        .ok (.int (if negative then -magnitude else magnitude))
  else
    .ok (.float (Binary64.ofDecimal negative (Decimal.numberOf (whole ++ fraction))
      (exponent.getD 0 - fraction.length)))

theorem spanWhole_length_lt {cs : List Char} (h : (spanWhole cs).1 ≠ []) :
    (spanWhole cs).2.length < cs.length := by
  unfold spanWhole at h ⊢
  split at h
  · simp
  · have hlen := congrArg List.length
      (List.takeWhile_append_dropWhile (p := Char.isDigit) (l := cs))
    have hpos := List.length_pos_iff.mpr h
    simp only [spanDigits, List.length_append] at hlen hpos ⊢
    omega

def readNumber (cs : List Char) :
    Except Fault { r : Value × List Char // r.2.length < cs.length } :=
  let unsigned := if cs.head? = some '-' then cs.tail else cs
  let whole := spanWhole unsigned
  if h : whole.1 = [] then .error (.malformed .expectedValue cs.length)
  else
    let fraction := spanFraction whole.2
    let exponent := spanExponent fraction.2
    match numberOf (cs.head? = some '-') whole.1 fraction.1 exponent.1 with
    | .error fault => .error fault
    | .ok value => .ok ⟨(value, exponent.2), by
        have hsign : unsigned.length ≤ cs.length := by
          simp only [unsigned]
          split
          · simp
          · exact Nat.le_refl _
        have hwhole : whole.2.length < unsigned.length := spanWhole_length_lt h
        have hfraction : fraction.2.length ≤ whole.2.length := spanFraction_length_le whole.2
        have hexponent : exponent.2.length ≤ fraction.2.length := spanExponent_length_le fraction.2
        simp only
        omega⟩

def names : List (List Char × Value) :=
  [("null".toList, .null), ("true".toList, .bool true), ("false".toList, .bool false),
    ("NaN".toList, .float .nan), ("Infinity".toList, .float (.infinite false)),
    ("-Infinity".toList, .float (.infinite true))]

def namedValue? (cs : List Char) : Option (List Char × Value) :=
  names.find? fun entry => entry.1.isPrefixOf cs

mutual

def readValue (cs : List Char) :
    Except Fault { r : Value × List Char // r.2.length < cs.length } :=
  match cs with
  | [] => .error (.malformed .expectedValue 0)
  | '"' :: rest => do
      let ⟨r, hr⟩ ← readString (rest.length + 1) rest
      .ok ⟨(.text (String.ofList r.1), r.2), by simp only [List.length_cons]; omega⟩
  | '[' :: rest => do
      have hskip := skipSpace_length_le rest
      if h : (skipSpace rest).head? = some ']' then
        .ok ⟨(.list [], (skipSpace rest).tail), by
          simp only [List.length_cons, List.length_tail]; omega⟩
      else
        let ⟨r, hr⟩ ← readItems (skipSpace rest)
        .ok ⟨(.list r.1, r.2), by simp only [List.length_cons]; omega⟩
  | '\x7b' :: rest => do
      have hskip := skipSpace_length_le rest
      if h : (skipSpace rest).head? = some '\x7d' then
        .ok ⟨(.map [], (skipSpace rest).tail), by
          simp only [List.length_cons, List.length_tail]; omega⟩
      else
        let ⟨r, hr⟩ ← readMembers [] (skipSpace rest)
        .ok ⟨(.map r.1, r.2), by simp only [List.length_cons]; omega⟩
  | c :: rest =>
      match namedValue? (c :: rest) with
      | some (name, value) =>
          .ok ⟨(value, rest.drop (name.length - 1)), by
            simp only [List.length_cons, List.length_drop]; omega⟩
      | none => readNumber (c :: rest)
termination_by (cs.length, 0)
decreasing_by
  · apply Prod.Lex.left
    simp only [List.length_cons]
    omega
  · apply Prod.Lex.left
    simp only [List.length_cons]
    omega

/-- Reads the items of a list, at least one of them, and the closing bracket. -/
def readItems (cs : List Char) :
    Except Fault { r : List Value × List Char // r.2.length < cs.length } := do
  let ⟨v, hv⟩ ← readValue cs
  have hafter := skipSpace_length_le v.2
  match hs : skipSpace v.2 with
  | ']' :: rest => .ok ⟨([v.1], rest), by
      rw [hs, List.length_cons] at hafter
      simp only
      omega⟩
  | ',' :: rest => do
      have hskip := skipSpace_length_le rest
      have hlt : (skipSpace rest).length < cs.length := by
        rw [hs, List.length_cons] at hafter
        omega
      let ⟨r, hr⟩ ← readItems (skipSpace rest)
      .ok ⟨(v.1 :: r.1, r.2), by simp only; omega⟩
  | left => .error (.malformed .expectedComma left.length)
termination_by (cs.length, 1)
decreasing_by
  · exact Prod.Lex.right _ (by omega)
  · exact Prod.Lex.left _ _ hlt

/-- Reads the members of a mapping after those in `made`, at least one of them, and the closing
brace. -/
def readMembers (made : List (Value × Value)) (cs : List Char) :
    Except Fault { r : List (Value × Value) × List Char // r.2.length < cs.length } :=
  match cs with
  | '"' :: rest => do
      let ⟨k, hk⟩ ← readString (rest.length + 1) rest
      have hcolon := skipSpace_length_le k.2
      match hc : skipSpace k.2 with
      | ':' :: afterColon => do
          have hvalue := skipSpace_length_le afterColon
          have hlt : (skipSpace afterColon).length < rest.length := by
            rw [hc, List.length_cons] at hcolon
            omega
          let ⟨v, hv⟩ ← readValue (skipSpace afterColon)
          have hafter := skipSpace_length_le v.2
          let entries := Table.set (.text (String.ofList k.1)) v.1 made
          match hs : skipSpace v.2 with
          | '\x7d' :: rest' => .ok ⟨(entries, rest'), by
              rw [hs, List.length_cons] at hafter
              simp only [List.length_cons]
              omega⟩
          | ',' :: rest' => do
              have hskip := skipSpace_length_le rest'
              have hlt' : (skipSpace rest').length < rest.length := by
                rw [hs, List.length_cons] at hafter
                omega
              let ⟨r, hr⟩ ← readMembers entries (skipSpace rest')
              .ok ⟨r, by simp only [List.length_cons]; omega⟩
          | left => .error (.malformed .expectedComma left.length)
      | left => .error (.malformed .expectedColon left.length)
  | left => .error (.malformed .expectedName left.length)
termination_by (cs.length, 1)
decreasing_by
  · apply Prod.Lex.left
    simp only [List.length_cons]
    omega
  · apply Prod.Lex.left
    simp only [List.length_cons]
    omega

end

/-- Whether half of a surrogate pair stands alone in the strings of a text that is JSON;
`completing` says that the next escape is the second half of one. -/
def halfPairIn (completing : Bool) : List Char → Bool
  | '\\' :: 'u' :: a :: b :: c :: d :: rest =>
      match hex4? a b c d with
      | none => halfPairIn false rest
      | some unit =>
          match lowSurrogate? unit rest with
          | .ok (some _) => halfPairIn true rest
          | _ => !(completing || decide unit.isValidChar) || halfPairIn false rest
  | '\\' :: _ :: rest => halfPairIn completing rest
  | _ :: rest => halfPairIn completing rest
  | [] => false

def hasHalfPair (text : List Char) : Bool :=
  halfPairIn false text

def read (text : List Char) : Except Fault Value :=
  if text.head? = some '\uFEFF' then .error (.malformed .byteOrderMark text.length)
  else do
    let ⟨r, _⟩ ← readValue (skipSpace text)
    if (skipSpace r.2).isEmpty then .ok r.1
    else .error (.malformed .extraData (skipSpace r.2).length)

end MediaSplit.Json
