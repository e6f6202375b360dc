import MediaSplit.Proofs.Css.Numerals
import MediaSplit.Proofs.Css.Values

/-!
What the scanner makes certain about a lexeme and about the text after it. A lexeme is well formed
when its values can be written so that they are read back; a text ends a lexeme when the lexeme,
read up to there, does not go on with it.
-/

namespace MediaSplit.Css

/-- Characters that are lexemes of their own wherever nothing longer is read. -/
def isDelimiter (c : Char) : Bool :=
  !(isSpace c || isNameStart c || c.isDigit || ['"', '\'', '(', ')', '[', ']', '{', '}'].contains c)

/-- Signs that an equals sign after them joins. -/
def isMatchSign (c : Char) : Bool :=
  c == '~' || c == '|' || c == '^' || c == '$' || c == '*'

inductive IsLiteral : List Char → Prop
  | opening : IsLiteral ['<', '!', '-', '-']
  | closing : IsLiteral ['-', '-', '>']
  | column : IsLiteral ['|', '|']
  | sign {c : Char} (h : isMatchSign c = true) : IsLiteral [c, '=']
  | delimiter {c : Char} (h : isDelimiter c = true) (hnormal : IsNormalized [c]) : IsLiteral [c]

/-- Whether a name could not be read as an identifier. -/
def startsLikeNumber : List Char → Bool
  | '-' :: cs => cs.head?.all Char.isDigit
  | c :: _ => c.isDigit
  | [] => false

def IsName (name : List Char) : Prop :=
  name ≠ [] ∧ '\x00' ∉ name

namespace Lexeme

/-- The lexemes that can be read from some normalised text. -/
def WellFormed : Lexeme → Prop
  | .atom (.whitespace text) => text ≠ [] ∧ ∀ c ∈ text, isSpace c = true
  | .atom (.comment text) => scanComment text = (text, []) ∧ IsNormalized text
  | .atom (.literal text) => IsLiteral text
  | .atom (.ident name) | .atom (.atKeyword name) | .openFunction name => IsName name
  | .atom (.hash name isIdentifier) => IsName name ∧ (isIdentifier = false → startsLikeNumber name)
  | .atom (.number numeral) | .atom (.percentage numeral) => IsNumeral numeral
  | .atom (.dimension numeral unit) => IsNumeral numeral ∧ IsName unit
  | .atom (.string value _) | .atom (.url value _) => '\x00' ∉ value
  | .atom (.unicodeRange first last) => first < 16 ^ 6 ∧ last < 16 ^ 6
  | .atom .badString | .atom .badUrl | .openBlock _ | .close _ => True

end Lexeme

def endsDelimiter (c : Char) (text : List Char) : Bool :=
  match c with
  | '@' => !startsIdent text
  | '#' => endsName text
  | '-' => endsName text && !pointDigit text
  | '+' => !startsWith Char.isDigit text && !pointDigit text
  | '.' => !startsWith Char.isDigit text
  | '/' => !startsWith (· == '*') text
  | '<' => !(['!', '-', '-'].isPrefixOf text)
  | '\\' => startsWith (· == '\n') text
  | '|' => !startsWith (fun d => d == '|' || d == '=') text
  | c => !(isMatchSign c && startsWith (· == '=') text)

def isQuote (c : Char) : Bool :=
  c == '"' || c == '\''

/-- Whether a text ends a lexeme that has been read up to there. What decides whether an
identifier is read as a range of code points or as a comment mark stands before it, so it is not
asked for here. -/
def Lexeme.endsWith : Lexeme → List Char → Bool
  | .atom (.whitespace _), text => !startsWith isSpace text
  | .atom (.literal [c]), text => endsDelimiter c text
  | .atom (.ident _), text => endsName text && !startsWith (· == '(') text
  | .atom (.atKeyword _), text | .atom (.hash _ _), text | .atom (.dimension _ _), text =>
      endsName text
  | .atom (.number _), text =>
      !startsIdent text && !startsWith Char.isDigit text && !startsWith (· == '%') text
  | .openFunction name, text =>
      asciiLower name != ['u', 'r', 'l'] || startsWith isQuote (text.dropWhile isSpace)
  | _, _ => true

structure Scanned (l : Lexeme) (rest : List Char) : Prop where
  wellFormed : l.WellFormed
  ends : l.endsWith rest = true
  normalized : IsNormalized rest

theorem isNameChar_or_startsEscape_of_startsIdent {c : Char} {cs : List Char}
    (h : startsIdent (c :: cs) = true) : isNameChar c = true ∨ startsEscape (c :: cs) = true := by
  by_cases hc : c = '-'
  · exact .inl (by simp [hc, isNameChar])
  · rw [startsIdent_eq_or cs hc, Bool.or_eq_true] at h
    exact h.imp isNameChar_of_isNameStart id

theorem scanName_ne_nil_of_or {cs : List Char}
    (h : startsWith isNameChar cs = true ∨ startsEscape cs = true) : (scanName cs).1 ≠ [] := by
  cases cs with
  | nil => exact absurd h (by decide)
  | cons c cs =>
      rw [scanName]
      split
      · simp
      · rename_i hname
        rw [if_pos (h.resolve_left hname)]
        simp

theorem scanName_ne_nil {cs : List Char} (h : startsIdent cs = true) : (scanName cs).1 ≠ [] := by
  cases cs with
  | nil => exact absurd h (by decide)
  | cons c cs => exact scanName_ne_nil_of_or (isNameChar_or_startsEscape_of_startsIdent h)

theorem isName_scanName {cs : List Char} (h : IsNormalized cs) (hident : startsIdent cs = true) :
    IsName (scanName cs).1 :=
  ⟨scanName_ne_nil hident, (scanName_normalized h).1⟩

theorem startsEscape_of_not_startsIdent {cs : List Char} (h : startsIdent cs = false) :
    startsEscape cs = false := by
  cases hescape : startsEscape cs with
  | false => rfl
  | true =>
      rw [startsIdent_of_startsEscape hescape] at h
      exact absurd h (by decide)

theorem isNameStart_of_not_startsIdent {c : Char} {cs : List Char}
    (h : startsIdent (c :: cs) = false) : isNameStart c = false := by
  cases hstart : isNameStart c with
  | false => rfl
  | true =>
      rw [startsIdent_of_isNameStart cs hstart] at h
      exact absurd h (by decide)

/-- Where no identifier starts, a name can only start with a digit or a hyphen. -/
theorem isDigit_or_hyphen_of_not_startsIdent {c : Char} {cs : List Char}
    (h : startsIdent (c :: cs) = false) (hname : isNameChar c = true) :
    c.isDigit = true ∨ c = '-' := by
  simp only [isNameChar, isNameStart_of_not_startsIdent h, Bool.false_or, Bool.or_eq_true,
    beq_iff_eq] at hname
  exact hname

/-- A text after a hyphen that does not start an identifier with it ends a name or goes on with a
digit. -/
theorem endsName_of_hyphen {cs : List Char} (h : startsIdent ('-' :: cs) = false)
    (hdigit : startsWith Char.isDigit cs = false) : endsName cs = true := by
  rw [startsIdent_hyphen] at h
  simp only [Bool.or_eq_false_iff] at h
  obtain ⟨⟨hstart, hhyphen⟩, hescape⟩ := h
  cases cs with
  | nil => rfl
  | cons c cs =>
      simp only [startsWith_cons] at hstart hhyphen hdigit
      simp [endsName, isNameChar, hstart, hdigit, hhyphen, hescape]

theorem startsLikeNumber_scanName {cs : List Char} (h : startsIdent cs = false)
    (hname : startsWith isNameChar cs = true) : startsLikeNumber (scanName cs).1 = true := by
  cases cs with
  | nil => exact absurd hname (by decide)
  | cons c cs =>
      rw [scanName_cons cs hname]
      rcases isDigit_or_hyphen_of_not_startsIdent h hname with hc | rfl
      · have hne : c ≠ '-' := beq_eq_false_iff_ne.mp (beq_of_isDigit hc rfl)
        unfold startsLikeNumber
        split <;> simp_all
      · cases hdigit : startsWith Char.isDigit cs with
        | false =>
            rw [scanName_of_endsName (endsName_of_hyphen h hdigit)]
            rfl
        | true =>
            cases cs with
            | nil => exact absurd hdigit (by decide)
            | cons d ds =>
                have hd : d.isDigit = true := hdigit
                rw [scanName_cons ds (by simp [isNameChar, hd])]
                simpa [startsLikeNumber] using hd

private theorem scanned_address {cs : List Char} (h : IsNormalized cs) :
    Scanned (.atom (scanUrl cs).1) (scanUrl cs).2 := by
  have haddress := isAddress_scanUrl cs
  obtain ⟨hvalue, hrest⟩ := scanUrl_normalized h
  cases hscan : scanUrl cs with
  | mk a rest =>
      rw [hscan] at haddress hvalue hrest
      cases a with
      | url value closed => exact ⟨hvalue value closed rfl, rfl, hrest⟩
      | badUrl => exact ⟨trivial, rfl, hrest⟩
      | _ => exact absurd haddress (by simp [Atom.isAddress])

theorem scanned_scanIdent {cs : List Char} (h : IsNormalized cs) (hident : startsIdent cs = true) :
    Scanned (scanIdent cs).1 (scanIdent cs).2 := by
  have hname := isName_scanName h hident
  have hrest := (scanName_normalized h).2
  have hends := endsName_scanName cs
  unfold scanIdent
  split
  · rename_i name rest heq
    rw [heq] at hname hrest
    split
    · have haddress := hrest.of_cons.of_suffix (List.dropWhile_suffix isSpace)
      split
      · rename_i hdrop
        exact ⟨hname, by simp [Lexeme.endsWith, hdrop, isQuote], hrest.of_cons⟩
      · rename_i hdrop
        exact ⟨hname, by simp [Lexeme.endsWith, hdrop, isQuote], hrest.of_cons⟩
      · exact scanned_address haddress
    · rename_i hurl
      exact ⟨hname, by simp [Lexeme.endsWith, bne, hurl], hrest.of_cons⟩
  · rename_i name rest hopen heq
    rw [heq] at hname hrest hends
    refine ⟨hname, ?_, hrest⟩
    have hparen : startsWith (· == '(') rest = false := startsWith_beq_eq_false hopen
    simpa [Lexeme.endsWith, hparen] using hends

theorem scanned_scanAfterNumeral {numeral cs : List Char} (h : IsNormalized cs)
    (hnumeral : IsNumeral numeral) (hdigit : startsWith Char.isDigit cs = false) :
    Scanned (.atom (scanAfterNumeral numeral cs).1) (scanAfterNumeral numeral cs).2 := by
  unfold scanAfterNumeral
  split
  · rename_i hident
    exact ⟨⟨hnumeral, isName_scanName h hident⟩, endsName_scanName cs, (scanName_normalized h).2⟩
  · rename_i hident
    split
    · exact ⟨hnumeral, rfl, h.of_cons⟩
    · rename_i hpercent
      have hsign : startsWith (· == '%') cs = false := startsWith_beq_eq_false hpercent
      exact ⟨hnumeral, by simpa [Lexeme.endsWith, hdigit, hsign] using hident, h⟩

theorem scanned_scanStringAtom {quote : Char} {cs : List Char} (h : IsNormalized cs) :
    Scanned (.atom (scanStringAtom quote cs).1) (scanStringAtom quote cs).2 := by
  have hscanned : '\x00' ∉ (scanString quote cs).1 ∧ IsNormalized (scanString quote cs).2.2 :=
    scanString_normalized h
  obtain ⟨hvalue, hrest⟩ := hscanned
  unfold scanStringAtom
  split <;> rename_i heq <;> rw [heq] at hvalue hrest
  · exact ⟨hvalue, rfl, hrest⟩
  · exact ⟨hvalue, rfl, hrest⟩
  · exact ⟨trivial, rfl, hrest⟩

/-- A character that starts nothing longer is a delimiter. -/
private theorem isDelimiter_of_scanPunctuation {c : Char} {cs : List Char}
    (hspace : isSpace c = false) (hident : startsIdent (c :: cs) = false)
    (hnumeral : scanNumeral? (c :: cs) = none) (hquote : isQuote c = false)
    (hbracket : ['(', ')', '[', ']', '{', '}'].contains c = false) : isDelimiter c = true := by
  have hdigit : c.isDigit = false := by
    cases hc : c.isDigit with
    | false => rfl
    | true =>
        have hsign : spanSign (c :: cs) = ([], c :: cs) :=
          spanSign_append .none (by
            simp [beq_of_isDigit hc (c := '+') rfl, beq_of_isDigit hc (c := '-') rfl])
        rw [scanNumeral?_eq_none_iff, hsign] at hnumeral
        exact absurd hnumeral.1 (by simp [hc])
  have hstart := isNameStart_of_not_startsIdent hident
  simp only [isQuote, Bool.or_eq_false_iff] at hquote
  simp only [List.contains_cons, List.contains_nil, Bool.or_eq_false_iff] at hbracket
  simp only [isDelimiter, hspace, hstart, hdigit, List.contains_cons, List.contains_nil, hquote,
    hbracket, Bool.or_self, Bool.not_false]

private theorem endsDelimiter_of_scanPunctuation {c : Char} {cs : List Char}
    (hident : startsIdent (c :: cs) = false) (hnumeral : scanNumeral? (c :: cs) = none)
    (hat : c ≠ '@') (hhash : c ≠ '#') (hcomment : c = '/' → startsWith (· == '*') cs = false)
    (hopening : c = '<' → ['!', '-', '-'].isPrefixOf cs = false)
    (hcolumn : c = '|' → startsWith (· == '|') cs = false)
    (hmatch : isMatchSign c = true → startsWith (· == '=') cs = false) :
    endsDelimiter c cs = true := by
  rw [scanNumeral?_eq_none_iff] at hnumeral
  unfold endsDelimiter
  split
  · exact absurd rfl hat
  · exact absurd rfl hhash
  · have hends := endsName_of_hyphen hident hnumeral.1
    have hpoint : pointDigit cs = false := hnumeral.2
    simp [hends, hpoint]
  · have hunsigned : startsWith Char.isDigit cs = false ∧ pointDigit cs = false := hnumeral
    simp [hunsigned]
  · have hpoint : pointDigit ('.' :: cs) = false := hnumeral.2
    simpa [pointDigit] using hpoint
  · simpa using hcomment rfl
  · simpa using hopening rfl
  · have hescape := startsEscape_of_not_startsIdent hident
    unfold startsEscape at hescape
    split at hescape
    · rename_i heq
      obtain ⟨-, rfl⟩ := List.cons.inj heq
      rfl
    · exact absurd hescape (by decide)
    · rename_i hne
      exact absurd rfl (hne cs)
  · have hbar := hcolumn rfl
    have hequals := hmatch rfl
    cases cs with
    | nil => rfl
    | cons d ds => simpa using ⟨by simpa using hbar, by simpa using hequals⟩
  · cases hc : isMatchSign c with
    | false => rfl
    | true => simp [hmatch hc]

private theorem scanned_delimiter {c : Char} {cs : List Char} (hdelimiter : isDelimiter c = true)
    (hends : endsDelimiter c cs = true) (h : IsNormalized (c :: cs)) :
    Scanned (.atom (.literal [c])) cs :=
  ⟨.delimiter hdelimiter (by simpa [IsNormalized.nil] using h c List.mem_cons_self), hends, h.of_cons⟩

theorem scanned_scanPunctuation {c : Char} {cs : List Char} (h : IsNormalized (c :: cs))
    (hspace : isSpace c = false) (hident : startsIdent (c :: cs) = false)
    (hnumeral : scanNumeral? (c :: cs) = none) (hquote : isQuote c = false) :
    Scanned (scanPunctuation c cs).1 (scanPunctuation c cs).2 := by
  unfold scanPunctuation
  split
  · split
    · rename_i hat
      exact ⟨isName_scanName h.of_cons hat, endsName_scanName _, (scanName_normalized h.of_cons).2⟩
    · rename_i hat
      exact scanned_delimiter rfl (by simpa [endsDelimiter] using hat) h
  · split
    · rename_i hname
      have hname' : startsWith isNameChar cs = true ∨ startsEscape cs = true := by
        rw [Bool.or_eq_true] at hname
        exact hname.symm
      refine ⟨⟨⟨?_, (scanName_normalized h.of_cons).1⟩, ?_⟩, endsName_scanName _,
        (scanName_normalized h.of_cons).2⟩
      · exact scanName_ne_nil_of_or hname'
      · intro hflag
        exact startsLikeNumber_scanName hflag (hname'.resolve_right
          (by simp [startsEscape_of_not_startsIdent hflag]))
    · rename_i hname
      simp only [Bool.or_eq_true, not_or, Bool.not_eq_true] at hname
      have hends : endsName cs = true := by
        simpa [endsName] using ⟨hname.2, hname.1⟩
      exact scanned_delimiter rfl hends h
  · exact ⟨trivial, rfl, h.of_cons⟩
  · exact ⟨trivial, rfl, h.of_cons⟩
  · exact ⟨trivial, rfl, h.of_cons⟩
  · exact ⟨trivial, rfl, h.of_cons⟩
  · exact ⟨trivial, rfl, h.of_cons⟩
  · exact ⟨trivial, rfl, h.of_cons⟩
  · rename_i cs
    obtain ⟨htext, hrest⟩ := scanComment_normalized h.of_cons.of_cons
    exact ⟨⟨scanComment_scanComment cs, htext⟩, rfl, hrest⟩
  · exact ⟨.opening, rfl, h.of_cons.of_cons.of_cons.of_cons⟩
  · exact ⟨.column, rfl, h.of_cons.of_cons⟩
  · rename_i hat hhash hbrace hsquare hparen hbrace' hsquare' hparen'
    split
    · rename_i hsign
      exact ⟨.sign hsign, rfl, h.of_cons.of_cons⟩
    · rename_i hsign
      refine scanned_delimiter (isDelimiter_of_scanPunctuation hspace hident hnumeral hquote ?_)
        (endsDelimiter_of_scanPunctuation hident hnumeral hat hhash (fun _ => rfl) (fun _ => rfl)
          (fun _ => rfl) (fun hmatch => absurd hmatch hsign)) h
      simpa using ⟨hparen, hparen', hsquare, hsquare', hbrace, hbrace'⟩
  · rename_i hat hhash hbrace hsquare hparen hbrace' hsquare' hparen' hequals hcomment hopening
      hcolumn
    refine scanned_delimiter (isDelimiter_of_scanPunctuation hspace hident hnumeral hquote ?_)
      (endsDelimiter_of_scanPunctuation hident hnumeral hat hhash
        (fun hc => startsWith_beq_eq_false fun rest => hcomment rest hc) (fun hc => ?_)
        (fun hc => startsWith_beq_eq_false fun rest => hcolumn rest hc)
        (fun _ => startsWith_beq_eq_false hequals)) h
    · simpa using ⟨hparen, hparen', hsquare, hsquare', hbrace, hbrace'⟩
    · cases hprefix : ['!', '-', '-'].isPrefixOf cs with
      | false => rfl
      | true =>
          obtain ⟨rest, rfl⟩ := List.isPrefixOf_iff_prefix.mp hprefix
          exact absurd rfl (hopening rest hc)

/-- Every lexeme of a normalised text is well formed, and what follows ends it. -/
theorem scanned_scan {c : Char} {cs : List Char} (h : IsNormalized (c :: cs)) :
    Scanned (scan c cs).1 (scan c cs).2 := by
  unfold scan
  split
  · rename_i hspace
    refine ⟨⟨List.cons_ne_nil _ _, ?_⟩, ?_, h.of_cons.of_suffix (List.dropWhile_suffix isSpace)⟩
    · intro d hd
      rcases List.mem_cons.mp hd with rfl | hd
      · exact hspace
      · exact List.mem_takeWhile_imp hd
    · simp [Lexeme.endsWith, startsWith_dropWhile]
  · rename_i hspace
    split
    · obtain ⟨first, last, hfirst, hlast, heq, hrest⟩ :=
        scanUnicodeRange_normalized (h.of_cons.of_suffix (List.tail_suffix cs))
      cases hscan : scanUnicodeRange cs.tail with
      | mk a rest =>
          rw [hscan] at heq hrest
          subst heq
          exact ⟨⟨hfirst, hlast⟩, rfl, hrest⟩
    · split
      · exact ⟨.closing, rfl, h.of_cons.of_suffix (List.drop_suffix 2 cs)⟩
      · split
        · rename_i hident
          exact scanned_scanIdent h hident
        · rename_i hident
          split
          · rename_i numeral rest heq
            obtain ⟨hnumeral, happend, hdigit⟩ := isNumeral_of_scanNumeral? heq
            rw [happend, IsNormalized.append_iff] at h
            exact scanned_scanAfterNumeral h.2 hnumeral hdigit
          · rename_i hnumeral
            split
            · exact scanned_scanStringAtom h.of_cons
            · rename_i hquote
              exact scanned_scanPunctuation h (by simpa using hspace) (by simpa using hident)
                hnumeral (by simpa [isQuote] using hquote)

end MediaSplit.Css
