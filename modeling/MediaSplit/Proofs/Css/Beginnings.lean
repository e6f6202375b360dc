import MediaSplit.Proofs.Css.Rereading

/-!
What the first lexeme of a text says about its first characters. Two texts that start with the
same lexeme, if only up to the escapes in it, are alike for every lexeme before them, so what ends
a lexeme in the text that was read also ends it in the text that is written.
-/

namespace MediaSplit.Css

namespace Lexeme

def startsName : Lexeme → Bool
  | .atom (.ident _) | .atom (.url _ _) | .atom .badUrl | .atom (.unicodeRange _ _)
  | .openFunction _ => true
  | .atom (.literal text) => text == ['-', '-', '>']
  | _ => false

def numeral? : Lexeme → Option (List Char)
  | .atom (.number numeral) | .atom (.percentage numeral) | .atom (.dimension numeral _) =>
      some numeral
  | _ => none

/-- The first character of a lexeme that starts with no name. A string may start with either of
the two quotes. -/
def first : Lexeme → Char
  | .atom (.whitespace text) | .atom (.literal text) | .atom (.number text)
  | .atom (.percentage text) | .atom (.dimension text _) => text.headD ' '
  | .atom (.comment _) => '/'
  | .atom (.atKeyword _) => '@'
  | .atom (.hash _ _) => '#'
  | .openBlock b => b.opening
  | .close b => b.closing
  | _ => '"'

end Lexeme

/-- What holds of a text because a lexeme is the first in it. -/
structure StartsLike (l : Lexeme) (text : List Char) : Prop where
  ident : startsIdent text = l.startsName
  first : l.startsName = false →
    ∃ c cs, text = c :: cs ∧ (c = l.first ∨ (l.first = '"' ∧ c = '\''))
  point : pointDigit text = (l.numeral?.any fun n => n.head? == some '.')

/-- What a name is read as. -/
inductive IsNamed (name : List Char) : Lexeme → Prop
  | ident : IsNamed name (.atom (.ident name))
  | function : IsNamed name (.openFunction name)
  | address {a : Atom} (hurl : asciiLower name = ['u', 'r', 'l']) (ha : a.isAddress = true) :
      IsNamed name (.atom a)

theorem isNamed_scanIdent (cs : List Char) : IsNamed (scanName cs).1 (scanIdent cs).1 := by
  unfold scanIdent
  split
  · rename_i name rest heq
    rw [heq]
    split
    · rename_i hurl
      split
      · exact .function
      · exact .function
      · exact .address (by simpa using hurl) (isAddress_scanUrl _)
    · exact .function
  · rename_i heq
    rw [heq]
    exact .ident

theorem IsNamed.startsName {name : List Char} {l : Lexeme} (h : IsNamed name l) :
    l.startsName = true ∧ l.numeral? = none := by
  cases h with
  | ident => exact ⟨rfl, rfl⟩
  | function => exact ⟨rfl, rfl⟩
  | @address a _ ha =>
      cases a with
      | url => exact ⟨rfl, rfl⟩
      | badUrl => exact ⟨rfl, rfl⟩
      | _ => exact absurd ha (by simp [Atom.isAddress])

theorem pointDigit_of_startsIdent {text : List Char} (h : startsIdent text = true) :
    pointDigit text = false := by
  cases text with
  | nil => rfl
  | cons c cs =>
      refine pointDigit_eq_false cs ?_
      rintro rfl
      rw [startsIdent_eq_or cs (by decide), startsEscape_eq_false cs (by decide)] at h
      exact absurd h (by decide)

theorem startsIdent_of_isSpace {c : Char} (cs : List Char) (h : isSpace c = true) :
    startsIdent (c :: cs) = false := by
  cases hident : startsIdent (c :: cs) with
  | false => rfl
  | true => rw [isSpace_of_startsIdent hident] at h; exact absurd h (by decide)

private theorem startsLike_of_startsIdent {l : Lexeme} {text : List Char}
    (hident : startsIdent text = true) (hl : l.startsName = true ∧ l.numeral? = none) :
    StartsLike l text :=
  ⟨hident.trans hl.1.symm, fun hnot => absurd hl.1 (by simp [hnot]),
    by rw [pointDigit_of_startsIdent hident, hl.2]; rfl⟩

private theorem startsLike_of_first {l : Lexeme} {c : Char} {cs : List Char}
    (hident : startsIdent (c :: cs) = false) (hpoint : pointDigit (c :: cs) = false)
    (hl : l.startsName = false ∧ l.numeral? = none)
    (hfirst : c = l.first ∨ (l.first = '"' ∧ c = '\'')) : StartsLike l (c :: cs) :=
  ⟨hident.trans hl.1.symm, fun _ => ⟨c, cs, rfl, hfirst⟩, by rw [hpoint, hl.2]; rfl⟩

private theorem startsLike_numeral {l : Lexeme} {numeral : List Char} (rest : List Char)
    (h : IsNumeral numeral) (hl : l.startsName = false ∧ l.numeral? = some numeral)
    (hfirst : l.first = numeral.headD ' ') : StartsLike l (numeral ++ rest) := by
  refine ⟨(h.startsIdent_append rest).trans hl.1.symm, fun _ => ?_, ?_⟩
  · cases numeral with
    | nil => exact absurd rfl h.ne_nil
    | cons c cs => exact ⟨c, cs ++ rest, rfl, .inl hfirst.symm⟩
  · rw [h.pointDigit_append, hl.2]
    rfl

private theorem startsLike_scanAfterNumeral {numeral : List Char} (rest : List Char)
    (h : IsNumeral numeral) :
    StartsLike (.atom (scanAfterNumeral numeral rest).1) (numeral ++ rest) := by
  unfold scanAfterNumeral
  split
  · exact startsLike_numeral rest h ⟨rfl, rfl⟩ rfl
  · split
    · exact startsLike_numeral _ h ⟨rfl, rfl⟩ rfl
    · exact startsLike_numeral rest h ⟨rfl, rfl⟩ rfl

private theorem startsLike_scanStringAtom {quote : Char} {cs : List Char}
    (h : isQuote quote = true) : StartsLike (.atom (scanStringAtom quote cs).1) (quote :: cs) := by
  simp only [isQuote, Bool.or_eq_true, beq_iff_eq] at h
  have hident : startsIdent (quote :: cs) = false := by rcases h with rfl | rfl <;> rfl
  have hpoint : pointDigit (quote :: cs) = false := by rcases h with rfl | rfl <;> rfl
  have hfirst : quote = '"' ∨ ('"' = '"' ∧ quote = '\'') := h.imp id fun hsingle => ⟨rfl, hsingle⟩
  unfold scanStringAtom
  split
  · exact startsLike_of_first hident hpoint ⟨rfl, rfl⟩ hfirst
  · exact startsLike_of_first hident hpoint ⟨rfl, rfl⟩ hfirst
  · exact startsLike_of_first hident hpoint ⟨rfl, rfl⟩ hfirst

private theorem startsLike_scanPunctuation {c : Char} {cs : List Char}
    (hident : startsIdent (c :: cs) = false) (hnumeral : scanNumeral? (c :: cs) = none) :
    StartsLike (scanPunctuation c cs).1 (c :: cs) := by
  have hpoint : pointDigit (c :: cs) = false := by
    by_cases hc : c = '.'
    · subst hc
      exact ((scanNumeral?_eq_none_iff _).mp hnumeral).2
    · exact pointDigit_eq_false cs hc
  unfold scanPunctuation
  split
  · split <;> exact startsLike_of_first hident hpoint ⟨rfl, rfl⟩ (.inl rfl)
  · split <;> exact startsLike_of_first hident hpoint ⟨rfl, rfl⟩ (.inl rfl)
  · exact startsLike_of_first hident hpoint ⟨rfl, rfl⟩ (.inl rfl)
  · exact startsLike_of_first hident hpoint ⟨rfl, rfl⟩ (.inl rfl)
  · exact startsLike_of_first hident hpoint ⟨rfl, rfl⟩ (.inl rfl)
  · exact startsLike_of_first hident hpoint ⟨rfl, rfl⟩ (.inl rfl)
  · exact startsLike_of_first hident hpoint ⟨rfl, rfl⟩ (.inl rfl)
  · exact startsLike_of_first hident hpoint ⟨rfl, rfl⟩ (.inl rfl)
  · exact startsLike_of_first hident hpoint ⟨rfl, rfl⟩ (.inl rfl)
  · exact startsLike_of_first hident hpoint ⟨rfl, rfl⟩ (.inl rfl)
  · exact startsLike_of_first hident hpoint ⟨rfl, rfl⟩ (.inl rfl)
  · have hlong (d : Char) : (Lexeme.atom (.literal [c, d])).startsName = false := by
      simp [Lexeme.startsName]
    have hshort : (Lexeme.atom (.literal [c])).startsName = false := by
      simp [Lexeme.startsName]
    split
    · exact startsLike_of_first hident hpoint ⟨hlong '=', rfl⟩ (.inl rfl)
    · exact startsLike_of_first hident hpoint ⟨hshort, rfl⟩ (.inl rfl)
  · have hshort : (Lexeme.atom (.literal [c])).startsName = false := by
      simp [Lexeme.startsName]
    exact startsLike_of_first hident hpoint ⟨hshort, rfl⟩ (.inl rfl)

/-- Every text starts like its first lexeme. -/
theorem startsLike_scan (c : Char) (cs : List Char) : StartsLike (scan c cs).1 (c :: cs) := by
  unfold scan
  split
  · rename_i hspace
    refine startsLike_of_first (startsIdent_of_isSpace cs hspace) (pointDigit_eq_false cs ?_)
      ⟨rfl, rfl⟩ (.inl rfl)
    rintro rfl
    exact absurd hspace (by decide)
  · split
    · rename_i hrange
      have hident : startsIdent (c :: cs) = true := by
        simp only [startsUnicodeRange, Bool.and_eq_true, Bool.or_eq_true, beq_iff_eq] at hrange
        rcases hrange.1 with rfl | rfl <;> exact startsIdent_of_isNameStart cs rfl
      obtain ⟨first, last, heq⟩ := exists_scanUnicodeRange cs.tail
      cases hscan : scanUnicodeRange cs.tail with
      | mk a rest =>
          rw [hscan] at heq
          subst heq
          exact startsLike_of_startsIdent hident ⟨rfl, rfl⟩
    · split
      · rename_i hmark
        rw [Bool.and_eq_true, beq_iff_eq, List.isPrefixOf_iff_prefix] at hmark
        obtain ⟨rfl, after, rfl⟩ := hmark
        exact startsLike_of_startsIdent (by simp [startsIdent_hyphen]) ⟨rfl, rfl⟩
      · split
        · rename_i hident
          exact startsLike_of_startsIdent hident (isNamed_scanIdent _).startsName
        · rename_i hident
          split
          · rename_i numeral rest heq
            obtain ⟨hnumeral, happend, -⟩ := isNumeral_of_scanNumeral? heq
            rw [happend]
            exact startsLike_scanAfterNumeral rest hnumeral
          · rename_i hnumeral
            split
            · rename_i hquote
              exact startsLike_scanStringAtom (by simpa [isQuote] using hquote)
            · exact startsLike_scanPunctuation (by simpa using hident) hnumeral

namespace Lexeme

@[simp] theorem startsName_reread (l : Lexeme) : l.reread.startsName = l.startsName := by
  cases l with
  | atom a => cases a <;> rfl
  | _ => rfl

@[simp] theorem numeral?_reread (l : Lexeme) : l.reread.numeral? = l.numeral? := by
  cases l with
  | atom a => cases a <;> rfl
  | _ => rfl

@[simp] theorem first_reread (l : Lexeme) : l.reread.first = l.first := by
  cases l with
  | atom a => cases a <;> rfl
  | _ => rfl

/-- The lexemes that can end a rule or a block, and that may be missing at the end of a text. -/
def isEnder : Lexeme → Bool
  | .close _ => true
  | .atom (.literal text) => text == [';']
  | _ => false

end Lexeme

/-- Classes of characters that cannot tell the two quotes from each other, nor the end of a text
from a lexeme that was missing there. -/
def IsFair (p : Char → Bool) : Prop :=
  p '"' = p '\'' ∧ [')', ']', '}', ';'].all (fun c => !p c) = true

structure Alike (s w : List Char) : Prop where
  ident : startsIdent s = startsIdent w
  point : pointDigit s = pointDigit w
  head : startsIdent s = false → ∀ p, IsFair p → startsWith p s = startsWith p w

theorem StartsLike.alike {l : Lexeme} {s w : List Char} (hs : StartsLike l s)
    (hw : StartsLike l.reread w) : Alike s w := by
  refine ⟨?_, ?_, ?_⟩
  · rw [hs.ident, hw.ident, Lexeme.startsName_reread]
  · rw [hs.point, hw.point, Lexeme.numeral?_reread]
  · intro hident p hp
    have hname : l.startsName = false := hs.ident.symm.trans hident
    obtain ⟨c, cs, rfl, hc⟩ := hs.first hname
    obtain ⟨d, ds, rfl, hd⟩ := hw.first (by simpa using hname)
    rw [Lexeme.first_reread] at hd
    rcases hc with rfl | ⟨hfirst, rfl⟩
    · rcases hd with rfl | ⟨hfirst, rfl⟩
      · rfl
      · rw [startsWith_cons, startsWith_cons, hfirst, hp.1]
    · rcases hd with rfl | ⟨-, rfl⟩
      · rw [startsWith_cons, startsWith_cons, hfirst, hp.1]
      · rfl

theorem alike_nil {l : Lexeme} {w : List Char} (hl : l.isEnder = true)
    (hw : StartsLike l.reread w) : Alike [] w := by
  have hclosing : l.startsName = false ∧ l.numeral? = none ∧ l.first ∈ [')', ']', '}', ';'] := by
    unfold Lexeme.isEnder at hl
    split at hl
    · rename_i b
      cases b <;> exact ⟨rfl, rfl, by decide⟩
    · obtain rfl := beq_iff_eq.mp hl
      exact ⟨rfl, rfl, by decide⟩
    · exact absurd hl (by decide)
  obtain ⟨hname, hnumeral, hfirst⟩ := hclosing
  refine ⟨?_, ?_, ?_⟩
  · rw [hw.ident, Lexeme.startsName_reread, hname]
    rfl
  · rw [hw.point, Lexeme.numeral?_reread, hnumeral]
    rfl
  · intro _ p hp
    obtain ⟨c, cs, rfl, hc⟩ := hw.first (by simpa using hname)
    rw [Lexeme.first_reread] at hc
    rcases hc with rfl | ⟨hquote, -⟩
    · have hender := List.all_eq_true.mp hp.2 _ hfirst
      simpa using hender
    · rw [hquote] at hfirst
      exact absurd hfirst (by decide)

namespace Alike

variable {s w : List Char}

theorem startsWith_eq_false {p : Char → Bool} (h : Alike s w) (hp : IsFair p)
    (hother : p '-' = false ∧ p '\\' = false) (hname : ∀ c, isNameStart c = true → p c = false)
    (hs : startsWith p s = false) : startsWith p w = false := by
  cases hident : startsIdent s with
  | true => exact startsWith_of_startsIdent (h.ident.symm.trans hident) hother hname
  | false => rw [← h.head hident p hp, hs]

private theorem endsName_eq (text : List Char) :
    endsName text = (!startsIdent text && !startsWith (fun c => c.isDigit || c == '-') text) := by
  cases text with
  | nil => rfl
  | cons c cs =>
      cases hident : startsIdent (c :: cs) with
      | true =>
          rcases isNameChar_or_startsEscape_of_startsIdent hident with h | h <;> simp [endsName, h]
      | false =>
          simp [endsName, startsEscape_of_not_startsIdent hident, isNameChar,
            isNameStart_of_not_startsIdent hident]

theorem endsName_eq_endsName (h : Alike s w) : endsName s = endsName w := by
  rw [endsName_eq, endsName_eq, ← h.ident]
  cases hident : startsIdent s with
  | true => rfl
  | false => rw [h.head hident _ ⟨rfl, rfl⟩]

theorem startsWith_isDigit (h : Alike s w) (hs : startsWith Char.isDigit s = false) :
    startsWith Char.isDigit w = false := by
  refine h.startsWith_eq_false ⟨rfl, rfl⟩ ⟨rfl, rfl⟩ (fun c hc => ?_) hs
  cases hdigit : c.isDigit with
  | false => rfl
  | true => rw [isNameStart_of_isDigit hdigit] at hc; exact absurd hc (by decide)

/-- A class of punctuation that stands at the start of neither text. -/
private theorem startsWith_beq {c : Char} (h : Alike s w)
    (hc : ['*', '=', '|', '(', '%'].contains c = true) (hs : startsWith (· == c) s = false) :
    startsWith (· == c) w = false := by
  have hfair : IsFair (· == c) ∧ (('-' == c) = false ∧ ('\\' == c) = false) ∧
      isNameStart c = false := by
    simp only [List.contains_cons, List.contains_nil, Bool.or_eq_true, beq_iff_eq,
      Bool.false_eq_true, or_false] at hc
    rcases hc with rfl | rfl | rfl | rfl | rfl <;> exact ⟨⟨rfl, rfl⟩, ⟨rfl, rfl⟩, rfl⟩
  refine h.startsWith_eq_false hfair.1 hfair.2.1 (fun d hd => ?_) hs
  rw [beq_eq_false_iff_ne]
  rintro rfl
  exact absurd hd (by simp [hfair.2.2])

private theorem startsWith_or {p q : Char → Bool} (text : List Char) :
    startsWith (fun c => p c || q c) text = (startsWith p text || startsWith q text) := by
  cases text <;> rfl

theorem endsDelimiter {c : Char} (h : Alike s w) (hc : c ≠ '<')
    (hs : endsDelimiter c s = true) : endsDelimiter c w = true := by
  unfold Css.endsDelimiter at hs ⊢
  split at hs
  · rwa [← h.ident]
  · rwa [← h.endsName_eq_endsName]
  · rwa [← h.endsName_eq_endsName, ← h.point]
  · simp only [Bool.and_eq_true, Bool.not_eq_true'] at hs ⊢
    exact ⟨h.startsWith_isDigit hs.1, h.point.symm.trans hs.2⟩
  · simp only [Bool.not_eq_true'] at hs ⊢
    exact h.startsWith_isDigit hs
  · simp only [Bool.not_eq_true'] at hs ⊢
    exact h.startsWith_beq rfl hs
  · exact absurd rfl hc
  · have hident : startsIdent s = false := by
      cases s with
      | nil => rfl
      | cons d ds => exact startsIdent_of_isSpace ds (by simp_all [isSpace])
    rw [← h.head hident _ ⟨rfl, rfl⟩]
    exact hs
  · simp only [Bool.not_eq_true', startsWith_or, Bool.or_eq_false_iff] at hs ⊢
    exact ⟨h.startsWith_beq rfl hs.1, h.startsWith_beq rfl hs.2⟩
  · cases hsign : isMatchSign c with
    | false => rfl
    | true =>
        simp only [hsign, Bool.true_and, Bool.not_eq_true'] at hs ⊢
        exact h.startsWith_beq rfl hs

/-- What ends a lexeme ends it again, as long as one lexeme after it decides this. -/
theorem endsWith {l : Lexeme} (h : Alike s w) (hopening : l ≠ .atom (.literal ['<']))
    (hfunction : ∀ name, l ≠ .openFunction name) (hs : l.endsWith s = true) :
    l.endsWith w = true := by
  unfold Lexeme.endsWith at hs ⊢
  split at hs
  · simp only [Bool.not_eq_true'] at hs ⊢
    refine h.startsWith_eq_false ⟨rfl, rfl⟩ ⟨rfl, rfl⟩ (fun c hc => ?_) hs
    cases hspace : isSpace c with
    | false => rfl
    | true =>
        have := isSpace_of_startsIdent (startsIdent_of_isNameStart [] hc)
        rw [this] at hspace
        exact absurd hspace (by decide)
  · rename_i c
    exact h.endsDelimiter (fun hc => hopening (by rw [hc])) hs
  · simp only [Bool.and_eq_true, Bool.not_eq_true'] at hs ⊢
    exact ⟨h.endsName_eq_endsName.symm.trans hs.1, h.startsWith_beq rfl hs.2⟩
  · rwa [← h.endsName_eq_endsName]
  · rwa [← h.endsName_eq_endsName]
  · rwa [← h.endsName_eq_endsName]
  · simp only [Bool.and_eq_true, Bool.not_eq_true'] at hs ⊢
    exact ⟨⟨h.ident.symm.trans hs.1.1, h.startsWith_isDigit hs.1.2⟩, h.startsWith_beq rfl hs.2⟩
  · rename_i name
    exact absurd rfl (hfunction name)
  · rfl

end Alike

section Names

/-- Where an identifier starts, a range of code points, the mark that ends a hidden part or a name
is read. -/
theorem scan_cases_of_startsIdent {c : Char} {cs : List Char} (h : startsIdent (c :: cs) = true) :
    (startsUnicodeRange c cs = true ∧
        ∃ first last, (scan c cs).1 = .atom (.unicodeRange first last)) ∨
      (∃ after, c :: cs = '-' :: '-' :: '>' :: after) ∨ scan c cs = scanIdent (c :: cs) := by
  unfold scan
  rw [if_neg (by simp [isSpace_of_startsIdent h]), if_pos h]
  split
  · rename_i hrange
    obtain ⟨first, last, hscan⟩ := exists_scanUnicodeRange cs.tail
    exact .inl ⟨hrange, first, last, congrArg Lexeme.atom hscan⟩
  · split
    · rename_i hmark
      rw [Bool.and_eq_true, beq_iff_eq, List.isPrefixOf_iff_prefix] at hmark
      obtain ⟨rfl, after, rfl⟩ := hmark
      exact .inr (.inl ⟨after, rfl⟩)
    · exact .inr (.inr rfl)

private theorem isNamed_of_startsIdent {c : Char} {cs : List Char}
    (h : startsIdent (c :: cs) = true) :
    startsUnicodeRange c cs = true ∨ (∃ after, c :: cs = '-' :: '-' :: '>' :: after) ∨
      IsNamed (scanName (c :: cs)).1 (scan c cs).1 := by
  rcases scan_cases_of_startsIdent h with ⟨hrange, -⟩ | hmark | hscan
  · exact .inl hrange
  · exact .inr (.inl hmark)
  · rw [hscan]
    exact .inr (.inr (isNamed_scanIdent _))

/-- A name other than that of an address is read as an identifier or as a function. -/
private theorem IsNamed.eq_or_eq {c : Char} {name : List Char} {l : Lexeme}
    (h : IsNamed (c :: name) l) (hc : c.toLower ≠ 'u') :
    l = .atom (.ident (c :: name)) ∨ l = .openFunction (c :: name) := by
  cases h with
  | ident => exact .inl rfl
  | function => exact .inr rfl
  | address hurl => exact absurd (List.cons.inj hurl).1 hc

theorem numeral?_scan {c : Char} {cs : List Char} (hspace : isSpace c = false)
    (hident : startsIdent (c :: cs) = false) (hnumeral : scanNumeral? (c :: cs) ≠ none) :
    (scan c cs).1.numeral? ≠ none := by
  rw [scan_of_not_startsIdent hspace hident]
  cases hscan : scanNumeral? (c :: cs) with
  | none => exact absurd hscan hnumeral
  | some read =>
      simp only [scanAfterNumeral]
      split
      · simp [Lexeme.numeral?]
      · split <;> simp [Lexeme.numeral?]

private theorem class_of_isHexDigit : ∀ n : Fin 128, isHexDigit (Char.ofNat n) = true →
    (Char.ofNat n).toLower ≠ 'u' ∧ Char.ofNat n ≠ 'u' ∧ Char.ofNat n ≠ 'U' ∧ Char.ofNat n ≠ '-' ∧
      (isNameStart (Char.ofNat n) = true ∨ (Char.ofNat n).isDigit = true) := by
  decide

private theorem isHexDigit_class {c : Char} (h : isHexDigit c = true) :
    c.toLower ≠ 'u' ∧ c ≠ 'u' ∧ c ≠ 'U' ∧ c ≠ '-' ∧
      (isNameStart c = true ∨ c.isDigit = true) := by
  have hbound : c.toNat < 128 := by
    have hrange := isHexDigit_iff.mp h
    omega
  have hclass := class_of_isHexDigit ⟨c.toNat, hbound⟩
  rw [Char.ofNat_toNat] at hclass
  exact hclass h

theorem scanNumeral?_ne_none {sign : List Char} {c : Char} (cs : List Char)
    (hsign : IsSign sign) (hc : c.isDigit = true) : scanNumeral? (sign ++ c :: cs) ≠ none := by
  intro hnone
  have hspan : spanSign (sign ++ c :: cs) = (sign, c :: cs) :=
    spanSign_append hsign
      (by simp [beq_of_isDigit hc (c := '+') rfl, beq_of_isDigit hc (c := '-') rfl])
  rw [scanNumeral?_eq_none_iff, hspan] at hnone
  exact absurd hnone.1 (by simp [hc])

/-- What starts with a hexadecimal digit is a number or has a name with that digit. -/
theorem numeral?_or_named_of_isHexDigit {c : Char} {cs : List Char} (h : isHexDigit c = true) :
    (scan c cs).1.numeral? ≠ none ∨ isNameStart c = true ∧ ∃ name,
      (scan c cs).1 = .atom (.ident (c :: name)) ∨ (scan c cs).1 = .openFunction (c :: name) := by
  obtain ⟨hlower, hu, hU, hhyphen, hclass⟩ := isHexDigit_class h
  cases hstart : isNameStart c with
  | true =>
      refine .inr ⟨rfl, (scanName cs).1, ?_⟩
      rcases isNamed_of_startsIdent (startsIdent_of_isNameStart cs hstart) with
        hrange | ⟨after, hmark⟩ | hname
      · simp [startsUnicodeRange, hu, hU] at hrange
      · exact absurd (List.cons.inj hmark).1 hhyphen
      · rw [scanName_cons cs (isNameChar_of_isNameStart hstart)] at hname
        exact hname.eq_or_eq hlower
  | false =>
      have hdigit : c.isDigit = true := hclass.resolve_left (by simp [hstart])
      exact .inl (numeral?_scan (isSpace_of_isDigit hdigit) (startsIdent_of_isDigit cs hdigit)
        (scanNumeral?_ne_none cs .none hdigit))

/-- What starts with a hyphen and a hexadecimal digit is a number or has a name. -/
theorem numeral?_or_named_of_hyphen {c : Char} {cs : List Char} (h : isHexDigit c = true) :
    (scan '-' (c :: cs)).1.numeral? ≠ none ∨ ∃ name,
      (scan '-' (c :: cs)).1 = .atom (.ident name) ∨
        (scan '-' (c :: cs)).1 = .openFunction name := by
  obtain ⟨-, -, -, hhyphen, hclass⟩ := isHexDigit_class h
  cases hstart : isNameStart c with
  | true =>
      have hident : startsIdent ('-' :: c :: cs) = true := by simp [startsIdent_hyphen, hstart]
      rcases isNamed_of_startsIdent hident with hrange | ⟨after, hmark⟩ | hname
      · exact absurd hrange (by simp [startsUnicodeRange])
      · exact absurd (List.cons.inj (List.cons.inj hmark).2).1 hhyphen
      · rw [scanName_cons _ rfl] at hname
        exact .inr ⟨_, hname.eq_or_eq (by decide)⟩
  | false =>
      have hdigit : c.isDigit = true := hclass.resolve_left (by simp [hstart])
      exact .inl (numeral?_scan rfl (startsIdent_hyphen_of_isDigit cs hdigit)
        (scanNumeral?_ne_none cs .minus hdigit))

/-- What starts with two hyphens is the mark that ends a hidden part or has a name. -/
theorem mark_or_named_of_hyphens (cs : List Char) :
    (scan '-' ('-' :: cs)).1 = .atom (.literal ['-', '-', '>']) ∨ ∃ name,
      (scan '-' ('-' :: cs)).1 = .atom (.ident ('-' :: '-' :: name)) ∨
        (scan '-' ('-' :: cs)).1 = .openFunction ('-' :: '-' :: name) := by
  have hident : startsIdent ('-' :: '-' :: cs) = true := by simp [startsIdent_hyphen]
  rcases isNamed_of_startsIdent hident with hrange | ⟨after, hmark⟩ | hname
  · exact absurd hrange (by simp [startsUnicodeRange])
  · obtain ⟨-, rfl⟩ := List.cons.inj (List.cons.inj hmark).2
    exact .inl rfl
  · rw [scanName_cons _ rfl, scanName_cons _ rfl] at hname
    exact .inr ⟨_, hname.eq_or_eq (by decide)⟩

end Names

end MediaSplit.Css
