import MediaSplit.Css.Lexeme

/-!
Cutting a normalised text into lexemes. Each scanner takes the text from where it stands and
returns what it read with the text that is left, which is never longer; `scan_length_le` adds
that a whole lexeme takes at least one character, so the loop `lexemes` comes to an end.
-/

namespace MediaSplit.Css

def spanAtMost (p : Char → Bool) : Nat → List Char → List Char × List Char
  | 0, cs => ([], cs)
  | _ + 1, [] => ([], [])
  | limit + 1, c :: cs =>
      if p c then
        let (taken, rest) := spanAtMost p limit cs
        (c :: taken, rest)
      else ([], c :: cs)

theorem spanAtMost_length_le (p : Char → Bool) (limit : Nat) (cs : List Char) :
    (spanAtMost p limit cs).2.length ≤ cs.length := by
  induction limit generalizing cs with
  | zero => simp [spanAtMost]
  | succ limit ih =>
      cases cs with
      | nil => simp [spanAtMost]
      | cons c cs =>
          have h := ih cs
          simp only [spanAtMost]
          split
          · simp only [List.length_cons]; omega
          · exact Nat.le_refl _

theorem dropWhile_length_le (p : Char → Bool) (cs : List Char) :
    (cs.dropWhile p).length ≤ cs.length :=
  (List.dropWhile_sublist p).length_le

/-- The character of a code point. Zero and every number that is no character give the
replacement character. -/
def escapedChar (codePoint : Nat) : Char :=
  if codePoint == 0 then '\uFFFD'
  else if h : codePoint.isValidChar then Char.ofNatAux codePoint h
  else '\uFFFD'

/-- Reads an escape after its backslash: up to six hexadecimal digits and one blank, or the
next character itself. At the end of the text it is the replacement character. -/
def scanEscape (cs : List Char) : Char × List Char :=
  match spanAtMost isHexDigit 6 cs with
  | ([], []) => ('\uFFFD', [])
  | ([], c :: rest) => (c, rest)
  | (digits, c :: rest) =>
      (escapedChar (hexNumber digits), if isSpace c then rest else c :: rest)
  | (digits, []) => (escapedChar (hexNumber digits), [])

theorem scanEscape_length_le (cs : List Char) : (scanEscape cs).2.length ≤ cs.length := by
  have h := spanAtMost_length_le isHexDigit 6 cs
  unfold scanEscape
  split <;> rename_i heq <;> rw [heq] at h
  · simp
  · simp only [List.length_cons] at h
    exact Nat.le_of_succ_le h
  · simp only [List.length_cons] at h
    simp only
    split
    · omega
    · exact h
  · simp

def startsEscape : List Char → Bool
  | '\\' :: '\n' :: _ => false
  | '\\' :: _ => true
  | _ => false

/-- Whether an identifier starts here: with a name character that is no digit, with a hyphen
before one, a second hyphen or an escape, or with an escape. -/
def startsIdent : List Char → Bool
  | '-' :: cs =>
      (match cs with
        | c :: _ => isNameStart c || c == '-'
        | [] => false) || startsEscape cs
  | c :: cs => isNameStart c || startsEscape (c :: cs)
  | [] => false

def scanName : List Char → List Char × List Char
  | [] => ([], [])
  | c :: cs =>
      if isNameChar c then
        let (name, rest) := scanName cs
        (c :: name, rest)
      else if startsEscape (c :: cs) then
        let escape := scanEscape cs
        let (name, rest) := scanName escape.2
        (escape.1 :: name, rest)
      else ([], c :: cs)
termination_by cs => cs.length
decreasing_by
  · simp
  · have := scanEscape_length_le cs
    simp only [List.length_cons]
    omega

theorem scanName_length_le (cs : List Char) : (scanName cs).2.length ≤ cs.length := by
  fun_induction scanName cs with
  | case1 => simp
  | case2 c cs _ name rest heq ih =>
      rw [heq] at ih
      simp only [List.length_cons] at ih ⊢
      omega
  | case3 c cs _ _ escape name rest heq ih =>
      rw [heq] at ih
      have : escape.2.length ≤ cs.length := scanEscape_length_le cs
      simp only [List.length_cons] at ih ⊢
      omega
  | case4 => simp

/-- A name that starts with `c`, which is known to belong to it, is never empty. -/
theorem scanName_length_lt {c : Char} {cs : List Char}
    (h : isNameChar c = true ∨ startsEscape (c :: cs) = true) :
    (scanName (c :: cs)).2.length ≤ cs.length := by
  rw [scanName]
  split
  · exact scanName_length_le cs
  · split
    · exact Nat.le_trans (scanName_length_le _) (scanEscape_length_le cs)
    · simp_all

def spanDigits (cs : List Char) : List Char × List Char :=
  (cs.takeWhile Char.isDigit, cs.dropWhile Char.isDigit)

/-- Reads an unsigned number without exponent: digits with a point before the last of them,
or digits alone. A point that no digit follows is left. -/
def scanMantissa? (cs : List Char) : Option (List Char × List Char) :=
  let (whole, rest) := spanDigits cs
  match rest with
  | '.' :: after =>
      match spanDigits after with
      | ([], _) => if whole.isEmpty then none else some (whole, rest)
      | (fraction, after) => some (whole ++ '.' :: fraction, after)
  | _ => if whole.isEmpty then none else some (whole, rest)

def spanSign : List Char → List Char × List Char
  | '+' :: cs => (['+'], cs)
  | '-' :: cs => (['-'], cs)
  | cs => ([], cs)

/-- Reads an exponent, or nothing where the letter is not followed by a number. -/
def spanExponent : List Char → List Char × List Char
  | c :: cs =>
      if c == 'e' || c == 'E' then
        let (sign, unsigned) := spanSign cs
        match spanDigits unsigned with
        | ([], _) => ([], c :: cs)
        | (digits, rest) => (c :: sign ++ digits, rest)
      else ([], c :: cs)
  | [] => ([], [])

/-- Reads a number as it is written: sign, digits, fraction and exponent. -/
def scanNumeral? (cs : List Char) : Option (List Char × List Char) :=
  let (sign, unsigned) := spanSign cs
  match scanMantissa? unsigned with
  | none => none
  | some (mantissa, rest) =>
      let (exponent, rest) := spanExponent rest
      some (sign ++ mantissa ++ exponent, rest)

theorem spanSign_length_le (cs : List Char) : (spanSign cs).2.length ≤ cs.length := by
  unfold spanSign
  split <;> simp

theorem spanExponent_length_le (cs : List Char) : (spanExponent cs).2.length ≤ cs.length := by
  unfold spanExponent
  split
  · rename_i c cs
    split
    · have hs := spanSign_length_le cs
      have hd := dropWhile_length_le Char.isDigit (spanSign cs).2
      simp only [spanDigits]
      split
      · simp
      · rename_i digits rest _ heq
        simp only [Prod.mk.injEq] at heq
        simp only [List.length_cons]
        rw [← heq.2]
        omega
    · simp
  · simp

private theorem dropWhile_length_lt {p : Char → Bool} {cs : List Char}
    (h : cs.takeWhile p ≠ []) : (cs.dropWhile p).length < cs.length := by
  have hlen := congrArg List.length (List.takeWhile_append_dropWhile (p := p) (l := cs))
  have hpos := List.length_pos_iff.mpr h
  simp only [List.length_append] at hlen
  omega

theorem scanMantissa?_length_lt {cs mantissa rest : List Char}
    (h : scanMantissa? cs = some (mantissa, rest)) : rest.length < cs.length := by
  have digits_alone (h : (if (cs.takeWhile Char.isDigit).isEmpty then none
      else some (cs.takeWhile Char.isDigit, cs.dropWhile Char.isDigit)) =
        some (mantissa, rest)) : rest.length < cs.length := by
    by_cases hne : (cs.takeWhile Char.isDigit).isEmpty
    · simp [hne] at h
    · rw [if_neg hne] at h
      simp only [Option.some.injEq, Prod.mk.injEq] at h
      rw [← h.2]
      exact dropWhile_length_lt (by simpa using hne)
  have hdrop := dropWhile_length_le Char.isDigit cs
  simp only [scanMantissa?, spanDigits] at h
  split at h
  · rename_i after hpoint
    rw [hpoint, List.length_cons] at hdrop
    split at h
    · exact digits_alone h
    · rename_i fraction after' hne heq
      simp only [Prod.mk.injEq] at heq
      simp only [Option.some.injEq, Prod.mk.injEq] at h
      have := dropWhile_length_le Char.isDigit after
      rw [← h.2, ← heq.2]
      omega
  · exact digits_alone h

theorem scanNumeral?_length_lt {cs numeral rest : List Char}
    (h : scanNumeral? cs = some (numeral, rest)) : rest.length < cs.length := by
  simp only [scanNumeral?] at h
  split at h
  · simp at h
  · rename_i mantissa rest' heq
    simp only [Option.some.injEq, Prod.mk.injEq] at h
    have hm := scanMantissa?_length_lt heq
    have hs := spanSign_length_le cs
    have he := spanExponent_length_le rest'
    rw [← h.2]
    omega

inductive StringEnd where
  | quote
  | lineFeed
  | endOfText
  deriving DecidableEq, Repr

/-- Reads a string after its opening quote. An escaped line feed and a backslash at the very end
count for nothing; a bare line feed ends the reading and is left. -/
def scanString (quote : Char) : List Char → List Char × StringEnd × List Char
  | [] => ([], .endOfText, [])
  | c :: cs =>
      if c == quote then ([], .quote, cs)
      else if c == '\n' then ([], .lineFeed, c :: cs)
      else if c == '\\' then
        match cs with
        | [] => ([], .endOfText, [])
        | '\n' :: rest => scanString quote rest
        | d :: rest =>
            let escape := scanEscape (d :: rest)
            let (value, ending, rest) := scanString quote escape.2
            (escape.1 :: value, ending, rest)
      else
        let (value, ending, rest) := scanString quote cs
        (c :: value, ending, rest)
termination_by cs => cs.length
decreasing_by
  · simp only [List.length_cons]; omega
  · have := scanEscape_length_le (d :: rest)
    simp only [List.length_cons] at this ⊢
    omega
  · simp

theorem scanString_length_le (quote : Char) (cs : List Char) :
    (scanString quote cs).2.2.length ≤ cs.length := by
  fun_induction scanString quote cs with
  | case1 => simp
  | case2 => simp
  | case3 => simp
  | case4 => simp
  | case5 c cs _ _ _ ih => simp only [List.length_cons]; omega
  | case6 c _ _ _ d rest _ escape value ending rest' heq ih =>
      rw [heq] at ih
      have : escape.2.length ≤ (d :: rest).length := scanEscape_length_le (d :: rest)
      simp only [List.length_cons] at this ih ⊢
      omega
  | case7 c cs _ _ _ value ending rest heq ih =>
      rw [heq] at ih
      simp only [List.length_cons] at ih ⊢
      omega

/-- The lexeme of a string token, read after its opening quote, and the text after it. -/
def scanStringAtom (quote : Char) (cs : List Char) : Atom × List Char :=
  match scanString quote cs with
  | (value, .quote, rest) => (.string value true, rest)
  | (value, .endOfText, rest) => (.string value false, rest)
  | (_, .lineFeed, rest) => (.badString, rest)

theorem scanStringAtom_length_le (quote : Char) (cs : List Char) :
    (scanStringAtom quote cs).2.length ≤ cs.length := by
  have h := scanString_length_le quote cs
  unfold scanStringAtom
  split <;> rename_i heq <;> rw [heq] at h <;> exact h

/-- Skips what is left of a malformed address, through its closing parenthesis. -/
def skipBadUrl : List Char → List Char
  | [] => []
  | '\\' :: ')' :: cs => skipBadUrl cs
  | ')' :: cs => cs
  | _ :: cs => skipBadUrl cs

theorem skipBadUrl_length_le (cs : List Char) : (skipBadUrl cs).length ≤ cs.length := by
  fun_induction skipBadUrl cs <;> simp_all only [List.length_cons, List.length_nil] <;> omega

/-- Reads an unquoted address after its leading blanks. Blanks may follow it only at its end. -/
def scanUrl : List Char → Atom × List Char
  | [] => (.url [] false, [])
  | c :: cs =>
      if c == ')' then (.url [] true, cs)
      else if isSpace c then
        match cs.dropWhile isSpace with
        | [] => (.url [] false, [])
        | d :: rest => if d == ')' then (.url [] true, rest) else (.badUrl, skipBadUrl (d :: rest))
      else if startsEscape (c :: cs) then
        let escape := scanEscape cs
        match scanUrl escape.2 with
        | (.url value closed, rest) => (.url (escape.1 :: value) closed, rest)
        | other => other
      else if isForbiddenInUrl c then (.badUrl, skipBadUrl cs)
      else
        match scanUrl cs with
        | (.url value closed, rest) => (.url (c :: value) closed, rest)
        | other => other
termination_by cs => cs.length
decreasing_by
  · have := scanEscape_length_le cs
    simp only [List.length_cons]
    omega
  · simp

theorem scanUrl_length_le (cs : List Char) : (scanUrl cs).2.length ≤ cs.length := by
  fun_induction scanUrl cs with
  | case1 => simp
  | case2 => simp
  | case3 => simp
  | case4 c cs _ _ d rest heq =>
      have := dropWhile_length_le isSpace cs
      rw [heq] at this
      simp only [List.length_cons] at this ⊢
      omega
  | case5 c cs _ _ d rest heq =>
      have := dropWhile_length_le isSpace cs
      rw [heq] at this
      have := skipBadUrl_length_le (d :: rest)
      simp only [List.length_cons] at *
      omega
  | case6 c cs _ _ _ escape value closed rest heq ih =>
      rw [heq] at ih
      have : escape.2.length ≤ cs.length := scanEscape_length_le cs
      simp only [List.length_cons] at ih ⊢
      omega
  | case7 c cs _ _ _ escape _ ih =>
      have : escape.2.length ≤ cs.length := scanEscape_length_le cs
      simp only [List.length_cons]
      omega
  | case8 c cs =>
      have := skipBadUrl_length_le cs
      simp only [List.length_cons]
      omega
  | case9 c cs _ _ _ _ value closed rest heq ih =>
      rw [heq] at ih
      simp only [List.length_cons] at ih ⊢
      omega
  | case10 c cs _ _ _ _ _ ih => simp only [List.length_cons]; omega

/-- Reads a comment after its opening mark. One that is not closed takes all the text. -/
def scanComment : List Char → List Char × List Char
  | [] => ([], [])
  | '*' :: '/' :: cs => ([], cs)
  | c :: cs =>
      let (text, rest) := scanComment cs
      (c :: text, rest)

theorem scanComment_length_le (cs : List Char) : (scanComment cs).2.length ≤ cs.length := by
  fun_induction scanComment cs with
  | case1 => simp
  | case2 cs => simp only [List.length_cons]; omega
  | case3 c cs _ text rest heq ih =>
      rw [heq] at ih
      simp only [List.length_cons] at ih ⊢
      omega

/-- Reads a range of code points after its sign: digits and question marks, six in all, or two
numbers of up to six digits with a hyphen between them. -/
def scanUnicodeRange (cs : List Char) : Atom × List Char :=
  let (digits, rest) := spanAtMost isHexDigit 6 cs
  match spanAtMost (· == '?') (6 - digits.length) rest with
  | ([], rest) =>
      match rest with
      | '-' :: c :: more =>
          if isHexDigit c then
            let (final, rest) := spanAtMost isHexDigit 6 (c :: more)
            (.unicodeRange (hexNumber digits) (hexNumber final), rest)
          else (.unicodeRange (hexNumber digits) (hexNumber digits), rest)
      | _ => (.unicodeRange (hexNumber digits) (hexNumber digits), rest)
  | (marks, rest) =>
      (.unicodeRange (hexNumber (digits ++ marks.map fun _ => '0'))
        (hexNumber (digits ++ marks.map fun _ => 'F')), rest)

theorem scanUnicodeRange_length_le (cs : List Char) :
    (scanUnicodeRange cs).2.length ≤ cs.length := by
  have h := spanAtMost_length_le isHexDigit 6 cs
  have h' := spanAtMost_length_le (· == '?') (6 - (spanAtMost isHexDigit 6 cs).1.length)
    (spanAtMost isHexDigit 6 cs).2
  simp only [scanUnicodeRange]
  split <;> rename_i heq <;> rw [heq] at h'
  · split
    · rename_i c more
      have := spanAtMost_length_le isHexDigit 6 (c :: more)
      simp only [List.length_cons] at this h'
      split <;> simp only [List.length_cons] <;> omega
    · simp only at h' ⊢; omega
  · simp only at h' ⊢; omega

/-- Reads a name and decides what it belongs to: an identifier, a function, or an address that
is written without quotes. -/
def scanIdent (cs : List Char) : Lexeme × List Char :=
  match scanName cs with
  | (name, '(' :: rest) =>
      if asciiLower name == ['u', 'r', 'l'] then
        match rest.dropWhile isSpace with
        | '"' :: _ => (.openFunction name, rest)
        | '\'' :: _ => (.openFunction name, rest)
        | address =>
            let (atom, rest) := scanUrl address
            (.atom atom, rest)
      else (.openFunction name, rest)
  | (name, rest) => (.atom (.ident name), rest)

theorem scanIdent_length_le {c : Char} {cs : List Char}
    (h : isNameChar c = true ∨ startsEscape (c :: cs) = true) :
    (scanIdent (c :: cs)).2.length ≤ cs.length := by
  have hname := scanName_length_lt h
  unfold scanIdent
  split
  · rename_i name rest heq
    rw [heq, List.length_cons] at hname
    split
    · have hd := dropWhile_length_le isSpace rest
      split
      · simp only; omega
      · simp only; omega
      · have := scanUrl_length_le (rest.dropWhile isSpace)
        simp only
        omega
    · simp only; omega
  · rename_i heq
    rw [heq] at hname
    exact hname

/-- Reads what follows a number: a percent sign or a unit makes it another atom. -/
def scanAfterNumeral (numeral : List Char) (cs : List Char) : Atom × List Char :=
  if startsIdent cs then
    let (unit, rest) := scanName cs
    (.dimension numeral unit, rest)
  else
    match cs with
    | '%' :: rest => (.percentage numeral, rest)
    | _ => (.number numeral, cs)

theorem scanAfterNumeral_length_le (numeral cs : List Char) :
    (scanAfterNumeral numeral cs).2.length ≤ cs.length := by
  unfold scanAfterNumeral
  split
  · exact scanName_length_le cs
  · split <;> simp

def startsUnicodeRange (c : Char) (cs : List Char) : Bool :=
  (c == 'u' || c == 'U') &&
    match cs with
    | '+' :: d :: _ => isHexDigit d || d == '?'
    | _ => false

/-- Reads a lexeme that starts with punctuation and with nothing that the other scanners know:
signs of two or three characters, brackets, and single characters. -/
def scanPunctuation (c : Char) (cs : List Char) : Lexeme × List Char :=
  match c, cs with
  | '@', cs =>
      if startsIdent cs then
        let (name, rest) := scanName cs
        (.atom (.atKeyword name), rest)
      else (.atom (.literal ['@']), cs)
  | '#', cs =>
      if startsEscape cs || cs.head?.any isNameChar then
        let (name, rest) := scanName cs
        (.atom (.hash name (startsIdent cs)), rest)
      else (.atom (.literal ['#']), cs)
  | '{', cs => (.openBlock .brace, cs)
  | '[', cs => (.openBlock .square, cs)
  | '(', cs => (.openBlock .paren, cs)
  | '}', cs => (.close .brace, cs)
  | ']', cs => (.close .square, cs)
  | ')', cs => (.close .paren, cs)
  | '/', '*' :: cs =>
      let (text, rest) := scanComment cs
      (.atom (.comment text), rest)
  | '<', '!' :: '-' :: '-' :: cs => (.atom (.literal ['<', '!', '-', '-']), cs)
  | '|', '|' :: cs => (.atom (.literal ['|', '|']), cs)
  | c, '=' :: cs =>
      if c == '~' || c == '|' || c == '^' || c == '$' || c == '*' then
        (.atom (.literal [c, '=']), cs)
      else (.atom (.literal [c]), '=' :: cs)
  | c, cs => (.atom (.literal [c]), cs)

theorem scanPunctuation_length_le (c : Char) (cs : List Char) :
    (scanPunctuation c cs).2.length ≤ cs.length := by
  unfold scanPunctuation
  split
  · split
    · exact scanName_length_le cs
    · exact Nat.le_refl _
  · split
    · exact scanName_length_le cs
    · exact Nat.le_refl _
  iterate 6 exact Nat.le_refl _
  · rename_i cs
    have := scanComment_length_le cs
    simp only [List.length_cons]
    omega
  · simp only [List.length_cons]; omega
  · simp
  · split <;> simp
  · exact Nat.le_refl _

def scan (c : Char) (cs : List Char) : Lexeme × List Char :=
  if isSpace c then (.atom (.whitespace (c :: cs.takeWhile isSpace)), cs.dropWhile isSpace)
  else if startsUnicodeRange c cs then
    let (atom, rest) := scanUnicodeRange cs.tail
    (.atom atom, rest)
  else if c == '-' && ['-', '>'].isPrefixOf cs then
    (.atom (.literal ['-', '-', '>']), cs.drop 2)
  else if startsIdent (c :: cs) then scanIdent (c :: cs)
  else
    match scanNumeral? (c :: cs) with
    | some (numeral, rest) =>
        let (atom, rest) := scanAfterNumeral numeral rest
        (.atom atom, rest)
    | none =>
        if c == '"' || c == '\'' then
          let (atom, rest) := scanStringAtom c cs
          (.atom atom, rest)
        else scanPunctuation c cs

private theorem isNameChar_or_startsEscape {c : Char} {cs : List Char}
    (h : startsIdent (c :: cs) = true) :
    isNameChar c = true ∨ startsEscape (c :: cs) = true := by
  by_cases hc : c = '-'
  · exact Or.inl (by simp [hc, isNameChar])
  · have : startsIdent (c :: cs) = (isNameStart c || startsEscape (c :: cs)) := by
      unfold startsIdent
      split
      · simp_all
      · simp_all
      · simp_all
    rw [this] at h
    simp only [Bool.or_eq_true] at h
    rcases h with h | h
    · exact Or.inl (by simp [isNameChar, h])
    · exact Or.inr h

/-- A lexeme takes at least its first character. -/
theorem scan_length_le (c : Char) (cs : List Char) : (scan c cs).2.length ≤ cs.length := by
  unfold scan
  split
  · exact dropWhile_length_le isSpace cs
  · split
    · have := scanUnicodeRange_length_le cs.tail
      simp only [List.length_tail] at this ⊢
      omega
    · split
      · simp
      · split
        · rename_i h
          exact scanIdent_length_le (isNameChar_or_startsEscape h)
        · split
          · rename_i numeral rest heq
            have hn := scanNumeral?_length_lt heq
            have ha := scanAfterNumeral_length_le numeral rest
            simp only [List.length_cons] at hn
            simp only
            omega
          · split
            · exact scanStringAtom_length_le c cs
            · exact scanPunctuation_length_le c cs

def lexemes : List Char → List (Place × Lexeme)
  | [] => []
  | c :: cs =>
      let scanned := scan c cs
      (⟨c :: cs⟩, scanned.1) :: lexemes scanned.2
termination_by cs => cs.length
decreasing_by
  have := scan_length_le c cs
  simp only [List.length_cons]
  omega

end MediaSplit.Css
