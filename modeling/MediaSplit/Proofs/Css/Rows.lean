import MediaSplit.Proofs.Css.Beginnings

/-!
Rows of lexemes. A row that was read from a text, written with its separators, is read as the same
row again, with an empty comment at each place where the separator is one. This holds for sound
rows: their strings and addresses are closed, and no escape is lost that kept two lexemes apart.
-/

namespace MediaSplit.Css

namespace Lexeme

def kind : Lexeme → Kind
  | .atom a => a.kind
  | .openFunction _ => .function
  | .openBlock .paren => .parentheses
  | .openBlock _ | .close _ => .other

def piece (l : Lexeme) : Piece :=
  ⟨l.kind, l.text⟩

def continuesRange : Lexeme → Bool
  | .atom (.ident (c :: _)) | .openFunction (c :: _) => isHexDigit c && isNameStart c
  | .atom (.literal text) => text == ['?']
  | _ => false

def startsWithHyphens : Lexeme → Bool
  | .atom (.ident ('-' :: '-' :: _)) | .openFunction ('-' :: '-' :: _) => true
  | .atom (.literal text) => text == ['-', '-', '>']
  | _ => false

/-- Whether a lexeme does not become part of something longer with the lexemes after it, which are
written right behind it. Escapes can keep such lexemes apart in a text, but are not written. -/
def staysApart : Lexeme → List Lexeme → Bool
  | .atom (.ident [c]), .atom (.literal ['+']) :: m :: _ =>
      !((c == 'u' || c == 'U') && m.continuesRange)
  | .atom (.ident ['-', '-']), .atom (.literal ['>']) :: _ => false
  | .atom (.literal ['<']), .atom (.literal ['!']) :: m :: _ => !m.startsWithHyphens
  | _, _ => true

end Lexeme

/-- Whether every lexeme of a row is read back and stays apart from those after it. -/
def isSoundRow : List Lexeme → Bool
  | [] => true
  | l :: ls => l.isSound && l.staysApart ls && isSoundRow ls

def writeRow (ls : List Lexeme) : List Char :=
  Piece.join (ls.map Lexeme.piece)

/-- The empty comment between a lexeme and the row after it, where one is written. -/
def separators (l : Lexeme) : List Lexeme → List Lexeme
  | [] => []
  | m :: _ => if l.kind.runsInto m.kind then [.atom (.comment [])] else []

/-- The row that is read where a sound row is written. -/
def settle : List Lexeme → List Lexeme
  | [] => []
  | l :: ls => l.reread :: (separators l ls ++ settle ls)

inductive Row : List Char → List Lexeme → Prop
  | nil (text : List Char) : Row text []
  | cons {text rest : List Char} {l : Lexeme} {ls : List Lexeme} (h : ReadsAs text l rest)
      (hrest : Row rest ls) : Row text (l :: ls)
  | added {l : Lexeme} {ls : List Lexeme} (hl : l.isEnder = true) (hrest : Row [] ls) :
      Row [] (l :: ls)

/-- A row that starts a text and leaves `tail` of it. -/
inductive Reads : List Char → List Lexeme → List Char → Prop
  | nil (tail : List Char) : Reads tail [] tail
  | cons {text rest tail : List Char} {l : Lexeme} {ls : List Lexeme} (h : ReadsAs text l rest)
      (hrest : Reads rest ls tail) : Reads text (l :: ls) tail

/-- Whether the last lexeme of a row ends a rule or a block. -/
def isClosed : List Lexeme → Bool
  | [] => false
  | [l] => l.isEnder
  | _ :: ls => isClosed ls

theorem ReadsAs.scanned {text rest : List Char} {l : Lexeme} (h : ReadsAs text l rest)
    (htext : IsNormalized text) : Scanned l rest := by
  obtain ⟨c, cs, rfl, hscan⟩ := h
  have hscanned := scanned_scan htext
  rwa [hscan] at hscanned

theorem ReadsAs.startsLike {text rest : List Char} {l : Lexeme} (h : ReadsAs text l rest) :
    StartsLike l text := by
  obtain ⟨c, cs, rfl, hscan⟩ := h
  have hstarts := startsLike_scan c cs
  rwa [hscan] at hstarts

theorem ReadsAs.unique {text rest rest' : List Char} {l l' : Lexeme} (h : ReadsAs text l rest)
    (h' : ReadsAs text l' rest') : l = l' ∧ rest = rest' := by
  obtain ⟨c, cs, rfl, hscan⟩ := h
  obtain ⟨d, ds, heq, hscan'⟩ := h'
  obtain ⟨rfl, rfl⟩ := List.cons.inj heq
  exact Prod.mk.inj (hscan.symm.trans hscan')

theorem Reads.trans {text middle tail : List Char} {ls ms : List Lexeme}
    (h : Reads text ls middle) (h' : Reads middle ms tail) : Reads text (ls ++ ms) tail := by
  induction h with
  | nil => exact h'
  | cons h _ ih => exact .cons h (ih h')

theorem writeRow_cons (l m : Lexeme) (ls : List Lexeme) :
    writeRow (l :: m :: ls) = l.text ++ (Piece.separator l.piece m.piece ++ writeRow (m :: ls)) := by
  simp [writeRow, Piece.join, Lexeme.piece]

theorem writeRow_singleton (l : Lexeme) : writeRow [l] = l.text := rfl

theorem isNumeric_of_numeral? {l : Lexeme} (h : l.numeral? ≠ none) : l.kind.isNumeric = true := by
  unfold Lexeme.numeral? at h
  split at h
  · rfl
  · rfl
  · rfl
  · exact absurd rfl h

theorem Lexeme.kind_reread (l : Lexeme) : l.reread.kind = l.kind := by
  cases l with
  | atom a => cases a <;> rfl
  | _ => rfl

theorem eq_of_reread_eq {l m : Lexeme} (h : l.reread = m) (hm : m.numeral? = none) : l = m := by
  subst h
  cases l with
  | atom a => cases a <;> first | rfl | exact absurd hm (by simp [Lexeme.reread, Atom.reread, Lexeme.numeral?])
  | _ => rfl

section Step

variable {l m : Lexeme} {ms : List Lexeme} {s w tail : List Char}

/-- The first lexeme of a row that is read, and what is read after it. -/
theorem Reads.head (h : Reads w (settle (m :: ms)) tail) :
    ∃ rest, ReadsAs w m.reread rest ∧ Reads rest (separators m ms ++ settle ms) tail := by
  rw [settle] at h
  cases h with
  | cons h hrest => exact ⟨_, h, hrest⟩

/-- A text that was read and the text that is written for it are alike. -/
theorem alike_of_row (hrow : Row s (m :: ms)) (h : Reads w (settle (m :: ms)) tail) :
    Alike s w := by
  obtain ⟨rest, hread, -⟩ := h.head
  cases hrow with
  | cons hs _ => exact hs.startsLike.alike hread.startsLike
  | added hl _ => exact alike_nil hl hread.startsLike

private theorem readsAs_sign {c : Char} {rest : List Char} (hc : isDelimiter c = true)
    (hends : endsDelimiter c rest = true) (h : ReadsAs (c :: rest) m.reread w) :
    m = .atom (.literal [c]) ∧ w = rest := by
  obtain ⟨heq, hrest⟩ := h.unique (readsAs_delimiter hc hends)
  exact ⟨eq_of_reread_eq heq rfl, hrest⟩

/-- The row behind a lexeme that ends nothing is not empty. -/
private theorem exists_cons_of_isClosed (h : isClosed (m :: ms) = true) (hm : m.isEnder = false) :
    ∃ n ns, ms = n :: ns ∧ isClosed (n :: ns) = true := by
  cases ms with
  | nil => exact absurd h (by simp [isClosed, hm])
  | cons n ns => exact ⟨n, ns, rfl, h⟩

private theorem not_opening_mark (hreads : Reads w (settle (m :: ms)) tail)
    (hclosed : isClosed (m :: ms) = true)
    (hapart : (Lexeme.atom (.literal ['<'])).staysApart (m :: ms) = true) :
    ['!', '-', '-'].isPrefixOf w = false := by
  rw [← Bool.not_eq_true, List.isPrefixOf_iff_prefix]
  rintro ⟨after, rfl⟩
  obtain ⟨rest, hread, hrest⟩ := hreads.head
  obtain ⟨rfl, rfl⟩ := readsAs_sign rfl rfl hread
  obtain ⟨n, ns, rfl, -⟩ := exists_cons_of_isClosed hclosed rfl
  have hnone : separators (.atom (.literal ['!'])) (n :: ns) = [] := by
    simp [separators, Lexeme.kind, Atom.kind, Kind.runsInto, Kind.isSign, Kind.endsInName]
  rw [hnone, List.nil_append] at hrest
  obtain ⟨rest, ⟨c, cs, heq, hscan⟩, -⟩ := hrest.head
  obtain ⟨rfl, rfl⟩ := List.cons.inj heq
  have hmark := mark_or_named_of_hyphens after
  have hfirst : (scan '-' ('-' :: after)).1 = n.reread := congrArg Prod.fst hscan
  rw [hfirst] at hmark
  rcases hmark with hn | ⟨name, hn | hn⟩ <;>
    · rw [eq_of_reread_eq hn rfl] at hapart
      exact absurd hapart (by simp [Lexeme.staysApart, Lexeme.startsWithHyphens])

private theorem scan_of_isSpace {c : Char} (cs : List Char) (h : isSpace c = true) :
    scan c cs = (.atom (.whitespace (c :: cs.takeWhile isSpace)), (c :: cs).dropWhile isSpace) := by
  rw [scan, if_pos h, List.dropWhile_cons_of_pos h]

private theorem startsWith_quote_of_alike {s w : List Char} (h : Alike s w)
    (hs : startsWith isQuote s = true) : startsWith isQuote (w.dropWhile isSpace) = true := by
  have hident : startsIdent s = false := by
    rw [← Bool.not_eq_true]
    intro hident
    have hnone := startsWith_of_startsIdent (p := isQuote) hident ⟨rfl, rfl⟩ fun c hc => by
      rw [isQuote, Bool.or_eq_false_iff, beq_eq_false_iff_ne, beq_eq_false_iff_ne]
      constructor <;> rintro rfl <;> exact absurd hc (by decide)
    rw [hs] at hnone
    exact absurd hnone (by decide)
  have hw : startsWith isQuote w = true := by
    rw [← h.head hident isQuote ⟨rfl, rfl⟩, hs]
  cases w with
  | nil => exact absurd hw (by decide)
  | cons c cs =>
      have hspace : isSpace c = false := by
        rw [startsWith_cons, isQuote, Bool.or_eq_true, beq_iff_eq, beq_iff_eq] at hw
        rcases hw with rfl | rfl <;> rfl
      rwa [List.dropWhile_cons_of_neg (by simp [hspace])]

/-- A quote that follows blanks follows them again. -/
private theorem startsWith_quote_dropWhile (hrow : Row s (m :: ms))
    (hreads : Reads w (settle (m :: ms)) tail) (hclosed : isClosed (m :: ms) = true)
    (h : startsWith isQuote (s.dropWhile isSpace) = true) :
    startsWith isQuote (w.dropWhile isSpace) = true := by
  have halike := alike_of_row hrow hreads
  cases s with
  | nil => exact absurd h (by decide)
  | cons c cs =>
      cases hspace : isSpace c with
      | false =>
          rw [List.dropWhile_cons_of_neg (by simp [hspace])] at h
          exact startsWith_quote_of_alike halike h
      | true =>
          cases hrow with
          | cons hs hrow =>
              obtain ⟨rfl, rfl⟩ := hs.unique ⟨c, cs, rfl, scan_of_isSpace cs hspace⟩
              obtain ⟨n, ns, rfl, -⟩ := exists_cons_of_isClosed hclosed rfl
              have hnone : separators (.atom (.whitespace (c :: cs.takeWhile isSpace))) (n :: ns) =
                  [] := by
                simp [separators, Lexeme.kind, Atom.kind, Kind.runsInto, Kind.isSign,
                  Kind.endsInName]
              obtain ⟨rest, ⟨d, ds, rfl, hscan⟩, hrest⟩ := hreads.head
              rw [hnone, List.nil_append] at hrest
              have hd : isSpace d = true := by
                rw [← startsWith_cons isSpace d ds, ← halike.head (startsIdent_of_isSpace cs hspace)
                  isSpace ⟨rfl, rfl⟩]
                exact hspace
              rw [scan_of_isSpace ds hd] at hscan
              obtain ⟨-, rfl⟩ := Prod.mk.inj hscan
              have hdrop := startsWith_quote_of_alike (alike_of_row hrow hrest) h
              rwa [dropWhile_of_not_startsWith (startsWith_dropWhile isSpace (d :: ds))] at hdrop

/-- What ends a lexeme in the text that was read ends it in the text that is written. -/
theorem endsWith_of_reads (hends : l.endsWith s = true) (hrow : Row s (m :: ms))
    (hreads : Reads w (settle (m :: ms)) tail) (hclosed : isClosed (m :: ms) = true)
    (hapart : l.staysApart (m :: ms) = true) : l.endsWith w = true := by
  by_cases hopening : l = .atom (.literal ['<'])
  · subst hopening
    simp only [Lexeme.endsWith, endsDelimiter, Bool.not_eq_true']
    exact not_opening_mark hreads hclosed hapart
  · cases l with
    | openFunction name =>
        simp only [Lexeme.endsWith, Bool.or_eq_true] at hends ⊢
        exact hends.imp id (startsWith_quote_dropWhile hrow hreads hclosed)
    | atom a => exact (alike_of_row hrow hreads).endsWith hopening (by simp) hends
    | openBlock b => rfl
    | close b => rfl

private theorem runsInto_of_isNumeric {a b : Kind} (ha : a = .ident ∨ a = .number ∨
    a = .unicodeRange ∨ a = .literal ['+']) (hb : b.isNumeric = true) : a.runsInto b = true := by
  rcases ha with rfl | rfl | rfl | rfl <;>
    simp [Kind.runsInto, Kind.endsInName, Kind.isSign, hb]

private theorem numeral?_eq_none {a : Kind} (hrun : a.runsInto m.kind = false)
    (ha : a = .ident ∨ a = .number ∨ a = .unicodeRange ∨ a = .literal ['+']) :
    m.numeral? = none := by
  by_contra hnumeral
  rw [runsInto_of_isNumeric ha (isNumeric_of_numeral? hnumeral)] at hrun
  exact absurd hrun (by decide)

/-- A lexeme that starts with a digit of a code point or with a question mark. -/
private theorem numeral?_or_continuesRange {c : Char} {cs rest : List Char}
    (hread : ReadsAs (c :: cs) m.reread rest) (hc : (isHexDigit c || c == '?') = true) :
    m.numeral? ≠ none ∨ m.continuesRange = true ∧
      (m.kind = .ident ∨ m.kind = .function ∨ m.kind = .literal ['?']) := by
  rw [Bool.or_eq_true, beq_iff_eq] at hc
  rcases hc with hc | rfl
  · have hclass := @numeral?_or_named_of_isHexDigit c cs hc
    obtain ⟨d, ds, heq, hscan⟩ := hread
    obtain ⟨rfl, rfl⟩ := List.cons.inj heq
    have hfirst : (scan c cs).1 = m.reread := congrArg Prod.fst hscan
    rw [hfirst] at hclass
    rcases hclass with hnumeral | ⟨hstart, name, hm | hm⟩
    · rw [Lexeme.numeral?_reread] at hnumeral
      exact .inl hnumeral
    · rw [eq_of_reread_eq hm rfl]
      exact .inr ⟨by simp [Lexeme.continuesRange, hc, hstart], .inl rfl⟩
    · rw [eq_of_reread_eq hm rfl]
      exact .inr ⟨by simp [Lexeme.continuesRange, hc, hstart], .inr (.inl rfl)⟩
  · obtain ⟨rfl, -⟩ := readsAs_sign rfl rfl hread
    exact .inr ⟨rfl, .inr (.inr rfl)⟩

private theorem exists_range_of_startsUnicodeRange {c : Char} {text : List Char}
    (h : startsUnicodeRange c text = true) :
    (c == 'u' || c == 'U') = true ∧
      ∃ d rest, text = '+' :: d :: rest ∧ (isHexDigit d || d == '?') = true := by
  unfold startsUnicodeRange at h
  split at h
  · rename_i d rest
    rw [Bool.and_eq_true] at h
    exact ⟨h.1, d, rest, rfl, h.2⟩
  · exact absurd h (by simp)

private theorem not_startsUnicodeRange {c : Char} (hreads : Reads w (settle (m :: ms)) tail)
    (hclosed : isClosed (m :: ms) = true)
    (hapart : (Lexeme.atom (.ident [c])).staysApart (m :: ms) = true)
    (hrun : Kind.runsInto .ident m.kind = false) : startsUnicodeRange c w = false := by
  have hnot_numeral := numeral?_eq_none hrun (.inl rfl)
  rw [← Bool.not_eq_true]
  intro hrange
  obtain ⟨hc, d, after, rfl, hd⟩ := exists_range_of_startsUnicodeRange hrange
  obtain ⟨rest, hread, hrest⟩ := hreads.head
  have hplus : endsDelimiter '+' (d :: after) = true := by
    have hnone : scanNumeral? ('+' :: d :: after) = none := by
      by_contra hsome
      obtain ⟨e, es, heq, hscan⟩ := hread
      obtain ⟨rfl, rfl⟩ := List.cons.inj heq
      have hnumeral := numeral?_scan rfl rfl hsome
      rw [hscan, Lexeme.numeral?_reread] at hnumeral
      exact hnumeral hnot_numeral
    have hunsigned : startsWith Char.isDigit (d :: after) = false ∧
      pointDigit (d :: after) = false := (scanNumeral?_eq_none_iff _).mp hnone
    simp only [endsDelimiter, hunsigned]
    rfl
  obtain ⟨rfl, rfl⟩ := readsAs_sign rfl hplus hread
  obtain ⟨n, ns, rfl, -⟩ := exists_cons_of_isClosed hclosed rfl
  by_cases hsep : Kind.runsInto (.literal ['+']) n.kind = true
  · have hcomment : separators (.atom (.literal ['+'])) (n :: ns) = [.atom (.comment [])] :=
      if_pos hsep
    rw [hcomment] at hrest
    cases hrest with
    | cons hslash _ =>
        obtain ⟨e, es, heq, hfirst⟩ := hslash.startsLike.first rfl
        obtain ⟨rfl, rfl⟩ := List.cons.inj heq
        rcases hfirst with rfl | ⟨hquote, -⟩
        · exact absurd hd (by decide)
        · exact absurd hquote (by decide)
  · have hnone : separators (.atom (.literal ['+'])) (n :: ns) = [] := if_neg hsep
    rw [hnone, List.nil_append] at hrest
    obtain ⟨rest, hnext, -⟩ := hrest.head
    rcases numeral?_or_continuesRange hnext hd with hnumeral | ⟨hrange, -⟩
    · exact hnumeral (numeral?_eq_none (by simpa using hsep) (.inr (.inr (.inr rfl))))
    · rw [Lexeme.staysApart, hc, hrange] at hapart
      exact absurd hapart (by decide)

private theorem not_greaterThan (hreads : Reads w (settle (m :: ms)) tail)
    (hapart : (Lexeme.atom (.ident ['-', '-'])).staysApart (m :: ms) = true) :
    startsWith (· == '>') w = false := by
  refine startsWith_beq_eq_false fun after heq => ?_
  subst heq
  obtain ⟨rest, hread, -⟩ := hreads.head
  obtain ⟨rfl, -⟩ := readsAs_sign rfl rfl hread
  exact absurd hapart (by simp [Lexeme.staysApart])

private theorem not_pointDigit (hreads : Reads w (settle (m :: ms)) tail)
    (hrun : Kind.runsInto .number m.kind = false) : pointDigit w = false := by
  obtain ⟨rest, hread, -⟩ := hreads.head
  rw [hread.startsLike.point, Lexeme.numeral?_reread, numeral?_eq_none hrun (.inr (.inl rfl))]
  rfl

private theorem endsRange_of_reads (hreads : Reads w (settle (m :: ms)) tail)
    (hrun : Kind.runsInto .unicodeRange m.kind = false) : endsRange w = true := by
  have hnot_numeral := numeral?_eq_none hrun (.inr (.inr (.inl rfl)))
  obtain ⟨rest, hread, -⟩ := hreads.head
  unfold endsRange
  split
  · rename_i cs
    rw [Bool.not_eq_true', ← Bool.not_eq_true]
    intro hhex
    cases cs with
    | nil => exact absurd hhex (by decide)
    | cons d ds =>
        have hclass := @numeral?_or_named_of_hyphen d ds hhex
        obtain ⟨e, es, heq, hscan⟩ := hread
        obtain ⟨rfl, rfl⟩ := List.cons.inj heq
        have hfirst : (scan '-' (d :: ds)).1 = m.reread := congrArg Prod.fst hscan
        rw [hfirst, Lexeme.numeral?_reread] at hclass
        rcases hclass with hnumeral | ⟨name, hm | hm⟩
        · exact hnumeral hnot_numeral
        · rw [eq_of_reread_eq hm rfl] at hrun
          exact absurd (show true = false from hrun) (by decide)
        · rw [eq_of_reread_eq hm rfl] at hrun
          exact absurd (show true = false from hrun) (by decide)
  · rw [Bool.not_eq_true', ← Bool.not_eq_true]
    intro hhex
    cases w with
    | nil => exact absurd hhex (by decide)
    | cons d ds =>
        rcases numeral?_or_continuesRange hread hhex with hnumeral | ⟨-, hkind | hkind | hkind⟩
        · exact hnumeral hnot_numeral
        · rw [hkind] at hrun
          exact absurd hrun (by decide)
        · rw [hkind] at hrun
          exact absurd hrun (by decide)
        · rw [hkind] at hrun
          exact absurd hrun (by decide)

/-- Nothing that is written right behind a lexeme makes something else of it. -/
theorem staysBefore_of_reads (hreads : Reads w (settle (m :: ms)) tail)
    (hclosed : isClosed (m :: ms) = true) (hapart : l.staysApart (m :: ms) = true)
    (hrun : l.kind.runsInto m.kind = false) : l.staysBefore w = true := by
  unfold Lexeme.staysBefore
  split
  · unfold Lexeme.isIdentBefore
    split
    · simp only [Bool.not_eq_true']
      exact not_startsUnicodeRange hreads hclosed hapart hrun
    · rename_i c cs
      rw [Bool.not_eq_true', ← Bool.not_eq_true, Bool.and_eq_true, Bool.and_eq_true, beq_iff_eq,
        List.isEmpty_iff]
      rintro ⟨⟨rfl, rfl⟩, hgreater⟩
      rw [not_greaterThan hreads hapart] at hgreater
      exact absurd hgreater (by decide)
    · rfl
  · simp only [Bool.not_eq_true']
    exact not_pointDigit hreads hrun
  · exact endsRange_of_reads hreads hrun
  · rfl

end Step

/-- An empty comment ends every lexeme before which it is written, and keeps it what it is. -/
private theorem ends_of_runsInto {l : Lexeme} {k : Kind} (h : l.kind.runsInto k = true)
    (w : List Char) : l.endsWith ('/' :: '*' :: w) = true ∧ l.staysBefore ('/' :: '*' :: w) = true := by
  constructor
  · unfold Lexeme.endsWith
    split
    · rfl
    · rename_i c
      unfold endsDelimiter
      split
      · rfl
      · rfl
      · rfl
      · rfl
      · rfl
      · rfl
      · rfl
      · exact absurd h (by simp [Lexeme.kind, Atom.kind, Kind.runsInto, Kind.isSign, Kind.endsInName])
      · rfl
      · simp
    · rfl
    · rfl
    · rfl
    · rfl
    · rfl
    · exact absurd h (by simp [Lexeme.kind, Kind.runsInto, Kind.isSign, Kind.endsInName])
    · rfl
  · unfold Lexeme.staysBefore
    split
    · unfold Lexeme.isIdentBefore
      split
      · simp [startsUnicodeRange]
      · simp
      · rfl
    · rfl
    · rfl
    · rfl

private theorem eq_literal_of_kind {l : Lexeme} {text : List Char}
    (h : l.kind = .literal text) : l = .atom (.literal text) := by
  cases l with
  | atom a => cases a <;> simp_all [Lexeme.kind, Atom.kind]
  | openBlock b => cases b <;> exact absurd h (by simp [Lexeme.kind])
  | openFunction name => exact absurd h (by simp [Lexeme.kind])
  | close b => exact absurd h (by simp [Lexeme.kind])

/-- The line feed that keeps a backslash apart is always there already. -/
theorem separator_eq_nil {l m : Lexeme} {ms : List Lexeme} {s : List Char}
    (hrun : l.kind.runsInto m.kind = false) (hends : l.endsWith s = true)
    (hrow : Row s (m :: ms)) : Piece.separator l.piece m.piece = [] := by
  have hline : l.kind = .literal ['\\'] → m.kind = .whitespace ∧ m.text.head? = some '\n' := by
    intro hkind
    obtain rfl := eq_literal_of_kind hkind
    have hs : startsWith (· == '\n') s = true := hends
    cases s with
    | nil => exact absurd hs (by decide)
    | cons c cs =>
        obtain rfl := beq_iff_eq.mp hs
        cases hrow with
        | cons h _ =>
            obtain ⟨rfl, -⟩ := h.unique ⟨'\n', cs, rfl, scan_of_isSpace cs rfl⟩
            exact ⟨rfl, rfl⟩
  unfold Piece.separator
  rw [if_neg (by simp [Lexeme.piece, hrun]), if_neg]
  rintro ⟨hkind, hnot⟩
  exact hnot (hline hkind)

/-- A row is read back from its first lexeme on if it is from its second. -/
private theorem reads_cons {l m : Lexeme} {ms : List Lexeme} {s w tail : List Char}
    (hl : l.WellFormed) (hsound : l.isSound = true) (hends : l.endsWith s = true)
    (hrow : Row s (m :: ms)) (hreads : Reads w (settle (m :: ms)) tail)
    (hclosed : isClosed (m :: ms) = true) (hapart : l.staysApart (m :: ms) = true) :
    Reads (l.text ++ (Piece.separator l.piece m.piece ++ w)) (settle (l :: m :: ms)) tail := by
  rw [settle]
  by_cases hrun : l.kind.runsInto m.kind = true
  · have hcomment : separators l (m :: ms) = [.atom (.comment [])] := if_pos hrun
    have hseparator : Piece.separator l.piece m.piece = ['/', '*', '*', '/'] := if_pos hrun
    obtain ⟨hends', hstays⟩ := ends_of_runsInto hrun ('*' :: '/' :: w)
    rw [hcomment, hseparator]
    exact .cons (Lexeme.readsAs_text hl hsound hends' hstays)
      (.cons (@readsAs_comment _ [] rfl) hreads)
  · have hnone : separators l (m :: ms) = [] := if_neg hrun
    rw [Bool.not_eq_true] at hrun
    rw [hnone, separator_eq_nil hrun hends hrow]
    exact .cons (Lexeme.readsAs_text hl hsound (endsWith_of_reads hends hrow hreads hclosed hapart)
      (staysBefore_of_reads hreads hclosed hapart hrun)) hreads

private theorem isEnder_cases {l : Lexeme} (hl : l.isEnder = true) :
    (∃ b, l = .close b) ∨ l = .atom (.literal [';']) := by
  unfold Lexeme.isEnder at hl
  split at hl
  · exact .inl ⟨_, rfl⟩
  · rw [beq_iff_eq.mp hl]
    exact .inr rfl
  · exact absurd hl (by decide)

private theorem readsAs_ender {l : Lexeme} (hl : l.isEnder = true) (tail : List Char) :
    ReadsAs (l.text ++ tail) l.reread tail := by
  rcases isEnder_cases hl with ⟨b, rfl⟩ | rfl
  · exact readsAs_close b
  · exact readsAs_delimiter rfl rfl

theorem ender_wellFormed {l : Lexeme} (hl : l.isEnder = true) :
    l.WellFormed ∧ l.endsWith [] = true := by
  rcases isEnder_cases hl with ⟨b, rfl⟩ | rfl
  · exact ⟨trivial, rfl⟩
  · exact ⟨.delimiter rfl (by simp [IsNormalized.nil]), rfl⟩

/-- A sound row that was read from a text is read back from its written form. -/
theorem reads_writeRow {s : List Char} {ls : List Lexeme} (hrow : Row s ls) (hs : IsNormalized s)
    (hsound : isSoundRow ls = true) (hclosed : isClosed ls = true) (tail : List Char) :
    Reads (writeRow ls ++ tail) (settle ls) tail := by
  induction hrow with
  | nil => exact absurd hclosed (by decide)
  | cons h hrest ih =>
      rename_i s rest l ls
      have hscanned := h.scanned hs
      simp only [isSoundRow, Bool.and_eq_true] at hsound
      cases ls with
      | nil => exact .cons (readsAs_ender hclosed tail) (.nil tail)
      | cons m ms =>
          rw [writeRow_cons, List.append_assoc, List.append_assoc]
          exact reads_cons hscanned.wellFormed hsound.1.1 hscanned.ends hrest
            (ih hscanned.normalized hsound.2 hclosed) hclosed hsound.1.2
  | added hl hrest ih =>
      rename_i l ls
      simp only [isSoundRow, Bool.and_eq_true] at hsound
      cases ls with
      | nil => exact .cons (readsAs_ender hl tail) (.nil tail)
      | cons m ms =>
          rw [writeRow_cons, List.append_assoc, List.append_assoc]
          obtain ⟨hl', hends⟩ := ender_wellFormed hl
          exact reads_cons hl' hsound.1.1 hends hrest (ih hs hsound.2 hclosed) hclosed
            hsound.1.2

end MediaSplit.Css
