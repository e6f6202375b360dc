import MediaSplit.Proofs.Css.Boundaries

/-!
Reading what is written for one lexeme. A sound lexeme is read back before every text that ends
it and that does not make something else of it together with its characters.
-/

namespace MediaSplit.Css

/-- Whether a unit that is written after a number without exponent gives it one. -/
def isExponentLike : List Char → Bool
  | c :: d :: _ => (c == 'e' || c == 'E') && d.isDigit
  | _ => false

/-- The unit that is read where `unit` is written: the letter of an exponent loses its case when
it is written as a code point. -/
def rereadUnit : List Char → List Char
  | [] => []
  | c :: rest =>
      if (c == 'e' || c == 'E') && (rest.isEmpty || rest.head? == some '-') then 'e' :: rest
      else c :: rest

/-- Whether an atom is read back from its written form. A string or an address that the end of the
text cut short is not, and neither is a malformed string. -/
def Atom.isSound : Atom → Bool
  | .string _ closed => closed
  | .url value closed => closed && value.all fun c => !isControl c
  | .badString => false
  | .dimension numeral unit => hasExponent numeral || !isExponentLike unit
  | _ => true

def Atom.reread : Atom → Atom
  | .dimension numeral unit => .dimension numeral (rereadUnit unit)
  | a => a

namespace Lexeme

def isSound : Lexeme → Bool
  | .atom a => a.isSound
  | _ => true

def reread : Lexeme → Lexeme
  | .atom a => .atom a.reread
  | l => l

def text : Lexeme → List Char
  | .atom a => a.text
  | .openFunction name => writeIdent name ++ ['(']
  | .openBlock b => [b.opening]
  | .close b => [b.closing]

/-- Whether a name, written right before a text, is read as an identifier there, and neither as the
start of a range of code points nor as the mark that ends a hidden part. -/
def isIdentBefore (name rest : List Char) : Bool :=
  match name with
  | [c] => !startsUnicodeRange c rest
  | '-' :: c :: cs => !(c == '-' && cs.isEmpty && startsWith (· == '>') rest)
  | _ => true

/-- Whether a lexeme, written right before a text, stays what it is. This is what `endsWith` leaves
out because the characters before a text decide it. -/
def staysBefore : Lexeme → List Char → Bool
  | .atom (.ident name), rest => isIdentBefore name rest
  | .atom (.number _), rest => !pointDigit rest
  | .atom (.unicodeRange _ _), rest => endsRange rest
  | _, _ => true

end Lexeme

section Scanning

variable {c : Char} {cs : List Char}

theorem isSpace_of_startsIdent (h : startsIdent (c :: cs) = true) : isSpace c = false := by
  cases hspace : isSpace c with
  | false => rfl
  | true =>
      simp only [isSpace, Bool.or_eq_true, beq_iff_eq] at hspace
      rcases hspace with (rfl | rfl) | rfl <;>
        exact absurd h (by rw [startsIdent_eq_or cs (by decide), startsEscape_eq_false cs] <;> decide)

/-- A text in which a name is read is scanned as an identifier unless it starts a range of code
points or is the mark that ends a hidden part. -/
theorem scan_of_startsIdent {name rest : List Char} (hident : startsIdent (c :: cs) = true)
    (hname : scanName (c :: cs) = (name, rest))
    (hstays : (Lexeme.atom (.ident name)).staysBefore rest = true) :
    scan c cs = scanIdent (c :: cs) := by
  have hrange : startsUnicodeRange c cs = false := by
    rw [← Bool.not_eq_true]
    intro h
    have hc : isNameChar c = true := by
      simp only [startsUnicodeRange, Bool.and_eq_true, Bool.or_eq_true, beq_iff_eq] at h
      rcases h.1 with rfl | rfl <;> rfl
    have hcs : endsName cs = true := by
      unfold startsUnicodeRange at h
      split at h
      · rfl
      · exact absurd h (by simp)
    rw [scanName_cons cs hc, scanName_of_endsName hcs] at hname
    obtain ⟨rfl, rfl⟩ := Prod.mk.inj hname
    simp [Lexeme.staysBefore, Lexeme.isIdentBefore, h] at hstays
  have hmark : ¬ (c == '-' && ['-', '>'].isPrefixOf cs) = true := by
    intro h
    rw [Bool.and_eq_true, beq_iff_eq, List.isPrefixOf_iff_prefix] at h
    obtain ⟨rfl, after, rfl⟩ := h
    have hread : scanName ('-' :: '-' :: '>' :: after) = (['-', '-'], '>' :: after) := by
      rw [scanName_cons _ rfl, scanName_cons _ rfl, scanName_of_endsName rfl]
    obtain ⟨rfl, rfl⟩ := Prod.mk.inj (hread.symm.trans hname)
    exact absurd hstays (by simp [Lexeme.staysBefore, Lexeme.isIdentBefore])
  rw [scan, if_neg (by simp [isSpace_of_startsIdent hident]), if_neg (by simp [hrange]),
    if_neg hmark, if_pos hident]

theorem startsWith_of_startsIdent {p : Char → Bool} {text : List Char}
    (h : startsIdent text = true) (hp : p '-' = false ∧ p '\\' = false)
    (hplain : ∀ c, isNameStart c = true → p c = false) : startsWith p text = false := by
  cases text with
  | nil => rfl
  | cons c cs =>
      by_cases hc : c = '-'
      · exact hc ▸ hp.1
      · rw [startsIdent_eq_or cs hc, Bool.or_eq_true] at h
        rcases h with h | h
        · exact hplain c h
        · by_cases hbackslash : c = '\\'
          · exact hbackslash ▸ hp.2
          · exact absurd h (by simp [startsEscape_eq_false cs hbackslash])

/-- Where no identifier starts, only numbers, strings and punctuation are left. -/
theorem scan_of_not_startsIdent (hspace : isSpace c = false)
    (hident : startsIdent (c :: cs) = false) :
    scan c cs =
      match scanNumeral? (c :: cs) with
      | some (numeral, rest) =>
          (.atom (scanAfterNumeral numeral rest).1, (scanAfterNumeral numeral rest).2)
      | none =>
          if isQuote c then (.atom (scanStringAtom c cs).1, (scanStringAtom c cs).2)
          else scanPunctuation c cs := by
  have hrange : startsUnicodeRange c cs = false := by
    have hstart := isNameStart_of_not_startsIdent hident
    rw [← Bool.not_eq_true]
    intro h
    simp only [startsUnicodeRange, Bool.and_eq_true, Bool.or_eq_true, beq_iff_eq] at h
    rcases h.1 with rfl | rfl <;> exact absurd hstart (by decide)
  have hmark : ¬ (c == '-' && ['-', '>'].isPrefixOf cs) = true := by
    intro h
    rw [Bool.and_eq_true, beq_iff_eq, List.isPrefixOf_iff_prefix] at h
    obtain ⟨rfl, after, rfl⟩ := h
    exact absurd hident (by simp [startsIdent_hyphen])
  rw [scan, if_neg (by simp [hspace]), if_neg (by simp [hrange]), if_neg hmark,
    if_neg (by simp [hident])]
  rfl

end Scanning

section Reread

/-- Whether a text starts with a lexeme that leaves `rest`. -/
def ReadsAs (text : List Char) (l : Lexeme) (rest : List Char) : Prop :=
  ∃ c cs, text = c :: cs ∧ scan c cs = (l, rest)

variable {rest : List Char}

theorem readsAs_of_scanIdent {text name after : List Char} {l : Lexeme}
    (hident : startsIdent text = true) (hname : scanName text = (name, after))
    (hstays : (Lexeme.atom (.ident name)).staysBefore after = true)
    (hscan : scanIdent text = (l, rest)) : ReadsAs text l rest := by
  cases text with
  | nil => exact absurd hident (by decide)
  | cons c cs => exact ⟨c, cs, rfl, by rw [scan_of_startsIdent hident hname hstays, hscan]⟩

private theorem staysBefore_open (name after : List Char) :
    (Lexeme.atom (.ident name)).staysBefore ('(' :: after) = true := by
  unfold Lexeme.staysBefore Lexeme.isIdentBefore
  simp only
  split
  · simp [startsUnicodeRange]
  · simp
  · rfl

theorem readsAs_ident {name : List Char} (hname : name ≠ []) (hends : endsName rest = true)
    (hparen : startsWith (· == '(') rest = false)
    (hstays : (Lexeme.atom (.ident name)).staysBefore rest = true) :
    ReadsAs (writeIdent name ++ rest) (.atom (.ident name)) rest := by
  have hscan : scanName (writeIdent name ++ rest) = (name, rest) := scanName_writeIdent hends
  refine readsAs_of_scanIdent (startsIdent_writeIdent rest hname) hscan hstays ?_
  unfold scanIdent
  rw [hscan]
  split
  · rename_i heq
    obtain ⟨-, rfl⟩ := Prod.mk.inj heq
    exact absurd hparen (by simp)
  · rename_i heq
    obtain ⟨rfl, rfl⟩ := Prod.mk.inj heq
    rfl

theorem readsAs_function {name : List Char} (hname : name ≠ [])
    (hurl : asciiLower name ≠ ['u', 'r', 'l'] ∨ startsWith isQuote (rest.dropWhile isSpace) = true) :
    ReadsAs (writeIdent name ++ '(' :: rest) (.openFunction name) rest := by
  have hscan : scanName (writeIdent name ++ '(' :: rest) = (name, '(' :: rest) :=
    scanName_writeIdent rfl
  refine readsAs_of_scanIdent (startsIdent_writeIdent _ hname) hscan (staysBefore_open _ _) ?_
  unfold scanIdent
  rw [hscan]
  simp only
  split
  · rename_i heq
    have hquote := hurl.resolve_left (fun h => h (by simpa using heq))
    split
    · rfl
    · rfl
    · rename_i hdouble hsingle
      cases hrest : rest.dropWhile isSpace with
      | nil => rw [hrest] at hquote; exact absurd hquote (by decide)
      | cons c cs =>
          rw [hrest] at hquote
          simp only [startsWith_cons, isQuote, Bool.or_eq_true, beq_iff_eq] at hquote
          rcases hquote with rfl | rfl
          · exact absurd hrest (hdouble cs)
          · exact absurd hrest (hsingle cs)
  · rfl

theorem dropWhile_of_not_startsWith {p : Char → Bool} {text : List Char}
    (h : startsWith p text = false) : text.dropWhile p = text := by
  cases text with
  | nil => rfl
  | cons c cs =>
      have hc : p c = false := h
      rw [List.dropWhile_cons_of_neg (by simp [hc])]

/-- An address that starts neither with a blank nor with a quote is read without either. -/
private theorem scanIdent_url {address : List Char} (hspace : startsWith isSpace address = false)
    (hquote : startsWith isQuote address = false) :
    scanIdent ('u' :: 'r' :: 'l' :: '(' :: address) =
      (.atom (scanUrl address).1, (scanUrl address).2) := by
  unfold scanIdent
  rw [scanName_cons _ rfl, scanName_cons _ rfl, scanName_cons _ rfl, scanName_of_endsName rfl]
  simp only [dropWhile_of_not_startsWith hspace]
  rw [if_pos (by decide)]
  split
  · exact absurd hquote (by simp [isQuote])
  · exact absurd hquote (by simp [isQuote])
  · rfl

private theorem readsAs_address {address : List Char} {a : Atom}
    (hspace : startsWith isSpace address = false) (hquote : startsWith isQuote address = false)
    (hscan : scanUrl address = (a, rest)) :
    ReadsAs ('u' :: 'r' :: 'l' :: '(' :: address) (.atom a) rest := by
  have hname : scanName ('u' :: 'r' :: 'l' :: '(' :: address) = (['u', 'r', 'l'], '(' :: address) := by
    rw [scanName_cons _ rfl, scanName_cons _ rfl, scanName_cons _ rfl, scanName_of_endsName rfl]
  refine readsAs_of_scanIdent rfl hname (staysBefore_open _ _) ?_
  rw [scanIdent_url hspace hquote, hscan]

theorem readsAs_url {value : List Char} (h : ∀ c ∈ value, isControl c = false) :
    ReadsAs ("url(".toList ++ (value.flatMap writeUrlChar ++ ')' :: rest))
      (.atom (.url value true)) rest := by
  refine readsAs_address ?_ ?_ (scanUrl_append h rest)
  · exact startsWith_writeUrl (by decide) (fun c hspace _ _ => hspace) value rest
  · refine startsWith_writeUrl (by decide) (fun c _ hdouble hsingle => ?_) value rest
    simp [isQuote, hdouble, hsingle]

theorem readsAs_badUrl : ReadsAs ("url([bad url])".toList ++ rest) (.atom .badUrl) rest :=
  @readsAs_address rest ("[bad url])".toList ++ rest) _ rfl rfl (scanUrl_bad rest)

theorem readsAs_unicodeRange {first last : Nat} (hfirst : first < 16 ^ 6) (hlast : last < 16 ^ 6)
    (hends : endsRange rest = true) :
    ReadsAs (Atom.text (.unicodeRange first last) ++ rest) (.atom (.unicodeRange first last))
      rest := by
  have hscan := scanUnicodeRange_append hfirst hlast hends
  have htext : Atom.text (.unicodeRange first last) ++ rest = 'U' :: '+' :: (hexDigits first ++
      ((if first = last then [] else '-' :: hexDigits last) ++ rest)) := by
    change ('U' :: '+' :: hexDigits first ++ _) ++ rest = _
    simp only [List.cons_append, List.append_assoc]
  have hstart : startsWith isHexDigit (hexDigits first ++
      ((if first = last then [] else '-' :: hexDigits last) ++ rest)) = true := by
    cases hdigits : hexDigits first with
    | nil => exact absurd hdigits (hexDigits_ne_nil first)
    | cons d ds => exact isHexDigit_of_mem_hexDigits first d (by simp [hdigits])
  generalize hexDigits first ++
    ((if first = last then [] else '-' :: hexDigits last) ++ rest) = digits at hscan htext hstart
  refine ⟨'U', '+' :: digits, htext, ?_⟩
  have hrange : startsUnicodeRange 'U' ('+' :: digits) = true := by
    cases digits with
    | nil => exact absurd hstart (by decide)
    | cons d ds =>
        have hd : isHexDigit d = true := hstart
        simp [startsUnicodeRange, hd]
  rw [scan, if_neg (by decide), if_pos hrange, List.tail_cons, hscan]

theorem readsAs_whitespace {text : List Char} (hne : text ≠ [])
    (hspace : ∀ c ∈ text, isSpace c = true) (hends : startsWith isSpace rest = false) :
    ReadsAs (text ++ rest) (.atom (.whitespace text)) rest := by
  cases text with
  | nil => exact absurd rfl hne
  | cons c cs =>
      refine ⟨c, cs ++ rest, rfl, ?_⟩
      have hcs : ∀ d ∈ cs, isSpace d = true := fun d hd => hspace d (List.mem_cons_of_mem c hd)
      rw [scan, if_pos (hspace c List.mem_cons_self), List.takeWhile_append_of_pos hcs,
        List.dropWhile_append_of_pos hcs, dropWhile_of_not_startsWith hends]
      cases rest with
      | nil => simp
      | cons d ds =>
          have hd : isSpace d = false := hends
          simp [hd]

/-- A text that starts neither an identifier nor a number is read as a string or as punctuation. -/
private theorem scan_of_no_numeral {c : Char} {cs : List Char} (hspace : isSpace c = false)
    (hident : startsIdent (c :: cs) = false) (hnumeral : scanNumeral? (c :: cs) = none) :
    scan c cs =
      if isQuote c then (.atom (scanStringAtom c cs).1, (scanStringAtom c cs).2)
      else scanPunctuation c cs := by
  rw [scan_of_not_startsIdent hspace hident, hnumeral]

private theorem readsAs_numeral {numeral after : List Char} {a : Atom} (h : IsNumeral numeral)
    (hnumeral : scanNumeral? (numeral ++ after) = some (numeral, after))
    (hscan : scanAfterNumeral numeral after = (a, rest)) :
    ReadsAs (numeral ++ after) (.atom a) rest := by
  have hident := h.startsIdent_append after
  have hspace := h.startsWith_append (p := isSpace) (fun c hc => isSpace_of_isDigit hc)
    (by decide) after
  cases htext : numeral ++ after with
  | nil =>
      have hnone : scanNumeral? [] = none := rfl
      rw [htext, hnone] at hnumeral
      exact absurd hnumeral (by simp)
  | cons c cs =>
      rw [htext] at hident hspace hnumeral
      refine ⟨c, cs, rfl, ?_⟩
      rw [scan_of_not_startsIdent hspace hident, hnumeral]
      simp only [hscan]

theorem readsAs_number {numeral : List Char} (h : IsNumeral numeral)
    (hident : startsIdent rest = false) (hdigit : startsWith Char.isDigit rest = false)
    (hpercent : startsWith (· == '%') rest = false) (hpoint : pointDigit rest = false) :
    ReadsAs (numeral ++ rest) (.atom (.number numeral)) rest := by
  have hletter : startsWith (fun c => c == 'e' || c == 'E') rest = false := by
    cases rest with
    | nil => rfl
    | cons c cs =>
        have hc := isNameStart_of_not_startsIdent hident
        rw [startsWith_cons, Bool.or_eq_false_iff, beq_eq_false_iff_ne, beq_eq_false_iff_ne]
        constructor <;> rintro rfl <;> exact absurd hc (by decide)
  refine readsAs_numeral h
    (scanNumeral?_append h hdigit hpoint fun _ => spanExponent_of_startsWith hletter) ?_
  unfold scanAfterNumeral
  rw [if_neg (by simp [hident])]
  split
  · exact absurd hpercent (by simp)
  · rfl

theorem readsAs_percentage {numeral : List Char} (h : IsNumeral numeral) :
    ReadsAs (numeral ++ '%' :: rest) (.atom (.percentage numeral)) rest :=
  readsAs_numeral h (scanNumeral?_append h rfl rfl fun _ => rfl) rfl

section Units

variable {unit : List Char}

theorem startsIdent_writeUnit (rest : List Char) (h : unit ≠ []) :
    startsIdent (writeUnit unit ++ rest) = true := by
  unfold writeUnit
  split
  · exact absurd rfl h
  · split
    · exact startsIdent_of_startsEscape rfl
    · exact startsIdent_writeIdent rest h

theorem scanName_writeUnit (h : endsName rest = true) :
    scanName (writeUnit unit ++ rest) = (rereadUnit unit, rest) := by
  unfold writeUnit rereadUnit
  cases unit with
  | nil => exact scanName_of_endsName h
  | cons c cs =>
      simp only
      split
      · change scanName ('\\' :: '6' :: '5' :: ' ' :: (writeName cs ++ rest)) = _
        rw [scanName_backslash _ rfl]
        change ('e' :: (scanName (writeName cs ++ rest)).1, (scanName (writeName cs ++ rest)).2) = _
        rw [scanName_writeName h]
      · exact scanName_writeIdent h

/-- A letter of an exponent that neither a digit nor a sign follows is left. -/
private theorem spanExponent_of_letter {c : Char} {cs : List Char}
    (hsign : startsWith (fun d => d == '+' || d == '-') cs = false)
    (hdigit : startsWith Char.isDigit cs = false) : spanExponent (c :: cs) = ([], c :: cs) := by
  have hspan : spanSign cs = ([], cs) := spanSign_append .none hsign
  unfold spanExponent
  simp only [hspan, spanDigits_of_not_startsWith hdigit]
  split <;> rfl

/-- A written unit gives a number no exponent unless it is like one. -/
theorem spanExponent_writeUnit (rest : List Char) (h : isExponentLike unit = false)
    (hunit : unit ≠ []) :
    spanExponent (writeUnit unit ++ rest) = ([], writeUnit unit ++ rest) := by
  cases unit with
  | nil => exact absurd rfl hunit
  | cons c cs =>
      unfold writeUnit
      simp only
      split
      · exact spanExponent_of_startsWith rfl
      · rename_i hescaped
        by_cases hletter : (c == 'e' || c == 'E') = true
        · cases cs with
          | nil => exact absurd (by simpa using hletter) hescaped
          | cons d ds =>
              have hc : isNameStart c = true ∧ c ≠ '-' := by
                rw [Bool.or_eq_true, beq_iff_eq, beq_iff_eq] at hletter
                rcases hletter with rfl | rfl <;> decide
              have hdigit : d.isDigit = false := by
                simpa [isExponentLike, hletter] using h
              have hhyphen : (d == '-') = false := by
                simpa [hletter] using hescaped
              rw [writeIdent_cons _ hc.2, writeFirstChar, if_pos hc.1, writeName, List.flatMap_cons]
              simp only [List.append_assoc, List.cons_append, List.nil_append]
              refine spanExponent_of_letter ?_ ?_
              · refine startsWith_writeNameChar _ rfl fun hname => ?_
                have hplus : (d == '+') = false := by
                  rw [beq_eq_false_iff_ne]
                  rintro rfl
                  exact absurd hname (by decide)
                rw [hplus, hhyphen]
                rfl
              · exact startsWith_writeNameChar _ rfl fun _ => hdigit
        · exact spanExponent_of_startsWith (startsWith_writeIdent rest cs (by decide) fun _ => by
            simpa using hletter)

end Units

theorem readsAs_dimension {numeral unit : List Char} (h : IsNumeral numeral) (hunit : unit ≠ [])
    (hexponent : hasExponent numeral = false → isExponentLike unit = false)
    (hends : endsName rest = true) :
    ReadsAs (numeral ++ (writeUnit unit ++ rest)) (.atom (.dimension numeral (rereadUnit unit)))
      rest := by
  have hident := startsIdent_writeUnit rest hunit
  have hdigit : startsWith Char.isDigit (writeUnit unit ++ rest) = false :=
    startsWith_of_startsIdent hident (by decide) fun c hc => by
      cases hdigit : c.isDigit with
      | false => rfl
      | true => rw [isNameStart_of_isDigit hdigit] at hc; exact absurd hc (by decide)
  have hpoint : pointDigit (writeUnit unit ++ rest) = false := by
    unfold pointDigit
    split
    · rename_i heq
      rw [heq] at hident
      exact absurd hident (by rw [startsIdent_eq_or _ (by decide), startsEscape_eq_false _] <;> decide)
    · rfl
  refine readsAs_numeral h (scanNumeral?_append h hdigit hpoint fun hnone =>
    spanExponent_writeUnit rest (hexponent hnone) hunit) ?_
  unfold scanAfterNumeral
  rw [if_pos hident, scanName_writeUnit hends]

theorem readsAs_string (value : List Char) :
    ReadsAs ('"' :: (value.flatMap writeStringChar ++ '"' :: rest)) (.atom (.string value true))
      rest := by
  refine ⟨'"', value.flatMap writeStringChar ++ '"' :: rest, rfl, ?_⟩
  rw [scan_of_no_numeral rfl rfl rfl, if_pos (by decide), scanStringAtom, scanString_append]

theorem readsAs_comment {text : List Char} (h : scanComment text = (text, [])) :
    ReadsAs ('/' :: '*' :: (text ++ '*' :: '/' :: rest)) (.atom (.comment text)) rest := by
  refine ⟨'/', '*' :: (text ++ '*' :: '/' :: rest), rfl, ?_⟩
  rw [scan_of_no_numeral rfl rfl rfl, if_neg (by decide), scanPunctuation, scanComment_append h]

theorem readsAs_atKeyword {name : List Char} (hname : name ≠ []) (hends : endsName rest = true) :
    ReadsAs ('@' :: (writeIdent name ++ rest)) (.atom (.atKeyword name)) rest := by
  refine ⟨'@', writeIdent name ++ rest, rfl, ?_⟩
  rw [scan_of_no_numeral rfl rfl rfl, if_neg (by decide), scanPunctuation,
    if_pos (startsIdent_writeIdent rest hname), scanName_writeIdent hends]

private theorem startsIdent_writeName {name : List Char} (h : startsLikeNumber name = true)
    (hends : endsName rest = true) :
    startsWith isNameChar (writeName name ++ rest) = true ∧
      startsIdent (writeName name ++ rest) = false := by
  have plain {d : Char} (hd : d.isDigit = true) : writeNameChar d = [d] := by
    rw [writeNameChar, if_pos (by simp [isNameChar, hd])]
  unfold startsLikeNumber at h
  split at h
  · rename_i cs
    have hhyphen : writeNameChar '-' = ['-'] := rfl
    rw [writeName, List.flatMap_cons, hhyphen]
    refine ⟨rfl, ?_⟩
    cases cs with
    | nil =>
        simp only [endsName, Bool.and_eq_true, Bool.not_eq_true'] at hends
        have hstart := startsWith_mono (fun c => isNameChar_of_isNameStart) hends.1
        have hhyphen : startsWith (· == '-') rest = false :=
          startsWith_mono (fun c hc => by simp [isNameChar, hc]) hends.1
        change startsIdent ('-' :: rest) = false
        simp [startsIdent_hyphen, hstart, hhyphen, hends.2]
    | cons d ds =>
        have hd : d.isDigit = true := by simpa using h
        rw [List.flatMap_cons, plain hd]
        exact startsIdent_hyphen_of_isDigit _ hd
  · rename_i d ds hne
    rw [writeName, List.flatMap_cons, plain h]
    exact ⟨by simp [isNameChar, h], startsIdent_of_isDigit _ h⟩
  · exact absurd h (by decide)

theorem readsAs_hash {name : List Char} (isIdentifier : Bool) (hname : name ≠ [])
    (hflag : isIdentifier = false → startsLikeNumber name = true) (hends : endsName rest = true) :
    ReadsAs ('#' :: ((if isIdentifier then writeIdent name else writeName name) ++ rest))
      (.atom (.hash name isIdentifier)) rest := by
  refine ⟨'#', _, rfl, ?_⟩
  rw [scan_of_no_numeral rfl rfl rfl, if_neg (by decide), scanPunctuation]
  cases isIdentifier with
  | true =>
      have hident := startsIdent_writeIdent rest hname
      have hstart : (startsEscape (writeIdent name ++ rest) ||
          (writeIdent name ++ rest).head?.any isNameChar) = true := by
        cases htext : writeIdent name ++ rest with
        | nil => rw [htext] at hident; exact absurd hident (by decide)
        | cons c cs =>
            rw [htext] at hident
            rcases isNameChar_or_startsEscape_of_startsIdent hident with h | h <;> simp [h]
      simp only [if_true]
      rw [if_pos hstart, scanName_writeIdent hends, hident]
  | false =>
      obtain ⟨hstart, hident⟩ := startsIdent_writeName (hflag rfl) hends
      simp only [Bool.false_eq_true, if_false]
      rw [if_pos (by rw [Bool.or_eq_true]; exact .inr hstart), scanName_writeName hends, hident]

theorem readsAs_openBlock (b : Bracket) : ReadsAs (b.opening :: rest) (.openBlock b) rest := by
  refine ⟨b.opening, rest, rfl, ?_⟩
  cases b <;> exact (scan_of_no_numeral rfl rfl rfl).trans rfl

theorem readsAs_close (b : Bracket) : ReadsAs (b.closing :: rest) (.close b) rest := by
  refine ⟨b.closing, rest, rfl, ?_⟩
  cases b <;> exact (scan_of_no_numeral rfl rfl rfl).trans rfl

private theorem isDelimiter_iff {c : Char} (hc : isDelimiter c = true) :
    isSpace c = false ∧ isNameStart c = false ∧ c.isDigit = false ∧
      ['"', '\'', '(', ')', '[', ']', '{', '}'].contains c = false := by
  simpa only [isDelimiter, Bool.not_eq_true', Bool.or_eq_false_iff, and_assoc] using hc

private theorem scanNumeral?_delimiter {c : Char} (hc : isDelimiter c = true)
    (hends : endsDelimiter c rest = true) : scanNumeral? (c :: rest) = none := by
  obtain ⟨-, -, hdigit, -⟩ := isDelimiter_iff hc
  rw [scanNumeral?_eq_none_iff]
  by_cases hplus : c = '+'
  · subst hplus
    have hrest : startsWith Char.isDigit rest = false ∧ pointDigit rest = false := by
      simpa [endsDelimiter] using hends
    exact hrest
  · by_cases hminus : c = '-'
    · subst hminus
      simp only [endsDelimiter, endsName, Bool.and_eq_true, Bool.not_eq_true'] at hends
      exact ⟨startsWith_mono (fun d hd => by simp [isNameChar, hd]) hends.1.1, hends.2⟩
    · have hsign : spanSign (c :: rest) = ([], c :: rest) :=
        spanSign_append .none (by simp [hplus, hminus])
      rw [hsign]
      refine ⟨hdigit, ?_⟩
      unfold pointDigit
      split
      · rename_i heq
        obtain ⟨rfl, rfl⟩ := List.cons.inj heq
        simpa [endsDelimiter] using hends
      · rfl

private theorem startsIdent_delimiter {c : Char} (hc : isDelimiter c = true)
    (hends : endsDelimiter c rest = true) : startsIdent (c :: rest) = false := by
  obtain ⟨-, hstart, -, -⟩ := isDelimiter_iff hc
  by_cases hhyphen : c = '-'
  · subst hhyphen
    simp only [endsDelimiter, endsName, Bool.and_eq_true, Bool.not_eq_true'] at hends
    have hrest := startsWith_mono (fun c => isNameChar_of_isNameStart) hends.1.1
    have hhyphen : startsWith (· == '-') rest = false :=
      startsWith_mono (fun c hc => by simp [isNameChar, hc]) hends.1.1
    simp [startsIdent_hyphen, hrest, hhyphen, hends.1.2]
  · rw [startsIdent_eq_or rest hhyphen, hstart, Bool.false_or]
    by_cases hbackslash : c = '\\'
    · subst hbackslash
      cases rest with
      | nil => exact absurd hends (by decide)
      | cons d ds =>
          obtain rfl : d = '\n' := by simpa [endsDelimiter] using hends
          rfl
    · exact startsEscape_eq_false rest hbackslash

private theorem scanPunctuation_delimiter {c : Char} (hc : isDelimiter c = true)
    (hends : endsDelimiter c rest = true) :
    scanPunctuation c rest = (.atom (.literal [c]), rest) := by
  unfold scanPunctuation
  split
  · rw [if_neg (by simpa [endsDelimiter] using hends)]
  · have hname : (startsEscape rest || rest.head?.any isNameChar) = false := by
      simp only [endsDelimiter, endsName, Bool.and_eq_true, Bool.not_eq_true'] at hends
      rw [hends.2]
      exact hends.1
    rw [if_neg (by simp [hname])]
  · exact absurd hc (by decide)
  · exact absurd hc (by decide)
  · exact absurd hc (by decide)
  · exact absurd hc (by decide)
  · exact absurd hc (by decide)
  · exact absurd hc (by decide)
  · exact absurd hends (by simp [endsDelimiter])
  · exact absurd hends (by simp [endsDelimiter])
  · exact absurd hends (by simp [endsDelimiter])
  · rw [if_neg]
    intro hsign
    simp only [Bool.or_eq_true, beq_iff_eq] at hsign
    rcases hsign with (((rfl | rfl) | rfl) | rfl) | rfl <;>
      exact absurd hends (by simp [endsDelimiter, isMatchSign])
  · rfl

theorem readsAs_delimiter {c : Char} (hc : isDelimiter c = true)
    (hends : endsDelimiter c rest = true) :
    ReadsAs (c :: rest) (.atom (.literal [c])) rest := by
  obtain ⟨hspace, -, -, hother⟩ := isDelimiter_iff hc
  have hquote : isQuote c = false := by
    simp only [List.contains_cons, Bool.or_eq_false_iff] at hother
    rw [isQuote, hother.1, hother.2.1]
    rfl
  refine ⟨c, rest, rfl, ?_⟩
  rw [scan_of_no_numeral hspace (startsIdent_delimiter hc hends) (scanNumeral?_delimiter hc hends),
    if_neg (by simp [hquote]), scanPunctuation_delimiter hc hends]

theorem readsAs_literal {text : List Char} (h : IsLiteral text)
    (hends : (Lexeme.atom (.literal text)).endsWith rest = true) :
    ReadsAs (text ++ rest) (.atom (.literal text)) rest := by
  cases h with
  | opening => exact ⟨_, _, rfl, scan_of_no_numeral rfl rfl rfl⟩
  | closing => exact ⟨_, _, rfl, rfl⟩
  | column => exact ⟨_, _, rfl, scan_of_no_numeral rfl rfl rfl⟩
  | sign hsign =>
      rename_i c
      simp only [isMatchSign, Bool.or_eq_true, beq_iff_eq] at hsign
      rcases hsign with (((rfl | rfl) | rfl) | rfl) | rfl <;>
        exact ⟨_, _, rfl, scan_of_no_numeral rfl rfl rfl⟩
  | delimiter hc _ => exact readsAs_delimiter hc hends

end Reread

/-- A sound lexeme is read back from its written form. -/
theorem Lexeme.readsAs_text {l : Lexeme} {rest : List Char} (hl : l.WellFormed)
    (hsound : l.isSound = true) (hends : l.endsWith rest = true)
    (hstays : l.staysBefore rest = true) : ReadsAs (l.text ++ rest) l.reread rest := by
  match l with
  | .atom (.whitespace text) =>
      exact readsAs_whitespace hl.1 hl.2 (by simpa [endsWith] using hends)
  | .atom (.comment text) =>
      have htext : (Lexeme.atom (.comment text)).text ++ rest =
          '/' :: '*' :: (text ++ '*' :: '/' :: rest) := by
        change ('/' :: '*' :: text ++ ['*', '/']) ++ rest = _
        simp
      rw [htext]
      exact readsAs_comment hl.1
  | .atom (.literal text) => exact readsAs_literal hl hends
  | .atom (.ident name) =>
      simp only [endsWith, Bool.and_eq_true, Bool.not_eq_true'] at hends
      exact readsAs_ident hl.1 hends.1 hends.2 hstays
  | .atom (.atKeyword name) => exact readsAs_atKeyword hl.1 hends
  | .atom (.hash name isIdentifier) => exact readsAs_hash isIdentifier hl.1.1 hl.2 hends
  | .atom (.number numeral) =>
      simp only [endsWith, Bool.and_eq_true, Bool.not_eq_true'] at hends
      exact readsAs_number hl hends.1.1 hends.1.2 hends.2 (by simpa [staysBefore] using hstays)
  | .atom (.percentage numeral) =>
      have htext : (Lexeme.atom (.percentage numeral)).text ++ rest = numeral ++ '%' :: rest := by
        change (numeral ++ ['%']) ++ rest = _
        simp
      rw [htext]
      exact readsAs_percentage hl
  | .atom (.dimension numeral unit) =>
      have htext : (Lexeme.atom (.dimension numeral unit)).text ++ rest =
        numeral ++ (writeUnit unit ++ rest) := List.append_assoc _ _ _
      have hexponent : hasExponent numeral = false → isExponentLike unit = false := by
        intro hnone
        simpa [isSound, Atom.isSound, hnone] using hsound
      rw [htext]
      exact readsAs_dimension hl.1 hl.2.1 hexponent hends
  | .atom (.string value closed) =>
      obtain rfl : closed = true := hsound
      have htext : (Lexeme.atom (.string value true)).text ++ rest =
          '"' :: (value.flatMap writeStringChar ++ '"' :: rest) := by
        change ('"' :: value.flatMap writeStringChar ++ ['"']) ++ rest = _
        simp
      rw [htext]
      exact readsAs_string value
  | .atom .badString => exact absurd hsound (by decide)
  | .atom (.url value closed) =>
      simp only [isSound, Atom.isSound, Bool.and_eq_true, List.all_eq_true, Bool.not_eq_true'] at hsound
      obtain ⟨rfl, hvalue⟩ := hsound
      have htext : (Lexeme.atom (.url value true)).text ++ rest =
          "url(".toList ++ (value.flatMap writeUrlChar ++ ')' :: rest) := by
        change ("url(".toList ++ value.flatMap writeUrlChar ++ [')']) ++ rest = _
        simp only [List.append_assoc, List.cons_append, List.nil_append]
      rw [htext]
      exact readsAs_url hvalue
  | .atom .badUrl => exact readsAs_badUrl
  | .atom (.unicodeRange first last) => exact readsAs_unicodeRange hl.1 hl.2 hstays
  | .openFunction name =>
      have htext : (Lexeme.openFunction name).text ++ rest = writeIdent name ++ '(' :: rest := by
        change (writeIdent name ++ ['(']) ++ rest = _
        simp
      have hurl : asciiLower name ≠ ['u', 'r', 'l'] ∨
          startsWith isQuote (rest.dropWhile isSpace) = true := by
        simpa [endsWith] using hends
      rw [htext]
      exact readsAs_function hl.1 hurl
  | .openBlock b => exact readsAs_openBlock b
  | .close b => exact readsAs_close b

end MediaSplit.Css
