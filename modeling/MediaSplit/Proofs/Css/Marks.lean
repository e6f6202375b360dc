import MediaSplit.Proofs.Css.Beginnings
import MediaSplit.Proofs.Css.Blocks

/-!
A byte-order mark in front of a text. Nothing takes it away, so it is read as a character like
others: it starts a name, which goes on with the name that the text begins with, and that name
starts a rule. The rule ends with the first block in braces that stands at the top of the text, and
from there on nothing is changed, unless the text begins with something that is no longer the same
behind a name: a number, an address without quotes or a range of code points.
-/

namespace MediaSplit.Css

def mark : Char := '\uFEFF'

/-- Whether a lexeme is read as far behind a name as at the beginning of a text. -/
def Lexeme.isSteady : Lexeme → Bool
  | .atom (.number _) | .atom (.percentage _) | .atom (.dimension _ _) | .atom (.url _ _)
  | .atom .badUrl | .atom (.unicodeRange _ _) => false
  | _ => true

theorem Lexeme.numeral?_of_isSteady {l : Lexeme} (h : l.isSteady = true) : l.numeral? = none := by
  unfold numeral?
  split
  · exact nomatch h
  · exact nomatch h
  · exact nomatch h
  · rfl

theorem Lexeme.oversizedDigits?_of_numeral? {l : Lexeme} (h : l.numeral? = none) :
    l.oversizedDigits? = none := by
  unfold oversizedDigits?
  split
  · exact nomatch h
  · exact nomatch h
  · exact nomatch h
  · rfl

/-- Whether a text begins with no name, or with a lexeme that a mark in front of it only renames. -/
def beginsSteadily : List Char → Bool
  | [] => true
  | c :: cs => endsName (c :: cs) || (scan c cs).1.isSteady

section Reading

variable {text name rest : List Char}

theorem normalize_mark (text : List Char) : normalize (mark :: text) = mark :: normalize text := by
  rw [normalize]
  · rfl
  · rintro _ ⟨⟩

private theorem scan_mark (text : List Char) : scan mark text = scanIdent (mark :: text) := by
  have hspace : ¬ isSpace mark = true := by decide
  have hrange : ¬ startsUnicodeRange mark text = true := by
    simp [startsUnicodeRange, mark]
  have hhyphen : ¬ (mark == '-' && ['-', '>'].isPrefixOf text) = true := by
    simp [mark]
  rw [scan, if_neg hspace, if_neg hrange, if_neg hhyphen,
    if_pos (startsIdent_of_isNameStart text (by decide))]

private theorem scanName_mark (hname : scanName text = (name, rest)) :
    scanName (mark :: text) = (mark :: name, rest) := by
  rw [scanName_cons text (by decide), hname]

/-- The mark takes the name behind it. -/
theorem readsAs_mark (hname : scanName text = (name, rest))
    (hparen : startsWith (· == '(') rest = false) :
    ReadsAs (mark :: text) (.atom (.ident (mark :: name))) rest := by
  refine ⟨mark, text, rfl, ?_⟩
  rw [scan_mark, scanIdent, scanName_mark hname]
  split
  · rename_i heq
    obtain ⟨-, rfl⟩ := Prod.mk.inj heq
    exact absurd hparen (by simp)
  · rename_i heq
    obtain ⟨rfl, rfl⟩ := Prod.mk.inj heq
    rfl

/-- With the mark in it no name is that of an address. -/
theorem readsAs_mark_function (hname : scanName text = (name, '(' :: rest)) :
    ReadsAs (mark :: text) (.openFunction (mark :: name)) rest := by
  refine ⟨mark, text, rfl, ?_⟩
  have hurl : (asciiLower (mark :: name) == ['u', 'r', 'l']) = false := by
    simp [asciiLower, mark]
  rw [scan_mark, scanIdent, scanName_mark hname]
  simp [hurl]

end Reading

/-- What a text begins with, and what it begins with when a mark stands in front of it. Names and
other atoms make no difference to the nesting, and what opens a parenthesis opens one still. -/
inductive Joined : List Lexeme → List Lexeme → Prop
  | name (atoms : List Atom) (name : List Char) (others : List Atom)
      (h : ∀ a ∈ others, (Lexeme.atom a).numeral? = none) :
      Joined (atoms.map .atom) (.atom (.ident name) :: others.map .atom)
  | function (atoms : List Atom) (o : Token.Opener) (h : o.bracket = .paren) (name : List Char) :
      Joined (atoms.map .atom ++ [o.lexeme]) [.openFunction name]

theorem Joined.numeral? {ls ls' : List Lexeme} (h : Joined ls ls') :
    ∀ l ∈ ls', l.numeral? = none := by
  cases h with
  | name atoms name others h =>
      refine List.forall_mem_cons.mpr ⟨rfl, fun l hl => ?_⟩
      obtain ⟨a, ha, rfl⟩ := List.mem_map.mp hl
      exact h a ha
  | function => exact List.forall_mem_singleton.mpr rfl

/-- With and without the mark a text is read alike from some place on. -/
def Meets (text : List Char) : Prop :=
  ∃ ls ls' tail, Joined ls ls' ∧ Reads text ls tail ∧ Reads (mark :: text) ls' tail

section Meets

variable {text name rest : List Char} {c : Char} {cs : List Char}

theorem meets_of_reads {atoms : List Atom} (hname : scanName text = (name, rest))
    (hreads : Reads text (atoms.map .atom) rest) : Meets text := by
  by_cases hparen : startsWith (· == '(') rest = true
  · cases rest with
    | nil => exact nomatch hparen
    | cons c cs =>
        obtain rfl : c = '(' := by simpa using hparen
        have hopen : ReadsAs ('(' :: cs) (.openBlock .paren) cs := readsAs_openBlock .paren
        exact ⟨_, _, cs, .function atoms (.block .paren) rfl (mark :: name),
          hreads.trans (.cons hopen (.nil cs)), .cons (readsAs_mark_function hname) (.nil cs)⟩
  · rw [Bool.not_eq_true] at hparen
    exact ⟨_, _, rest, .name atoms (mark :: name) [] nofun, hreads,
      .cons (readsAs_mark hname hparen) (.nil rest)⟩

theorem meets_of_endsName (h : endsName text = true) : Meets text :=
  @meets_of_reads text [] text [] (scanName_of_endsName h) (.nil text)

private theorem isSteady_of_isAddress {a : Atom} (h : a.isAddress = true) :
    (Lexeme.atom a).isSteady = false := by
  cases a with
  | url | badUrl => rfl
  | _ => exact nomatch h

/-- A name that is not that of an address goes on to be read behind the mark. -/
theorem meets_of_scanIdent (hscan : scan c cs = scanIdent (c :: cs))
    (hsteady : (scan c cs).1.isSteady = true) : Meets (c :: cs) := by
  have hread : ReadsAs (c :: cs) (scanIdent (c :: cs)).1 (scanIdent (c :: cs)).2 :=
    ⟨c, cs, rfl, hscan⟩
  rw [hscan] at hsteady
  generalize hident : scanIdent (c :: cs) = ident at hread hsteady
  unfold scanIdent at hident
  split at hident
  · rename_i name rest hname
    have hfunction (h : (.openFunction name, rest) = ident) : Meets (c :: cs) :=
      ⟨_, _, rest, .function [] (.function name) rfl (mark :: name),
        .cons (by rwa [← h] at hread) (.nil rest), .cons (readsAs_mark_function hname) (.nil rest)⟩
    split at hident
    · split at hident
      · exact hfunction hident
      · exact hfunction hident
      · rw [← hident, isSteady_of_isAddress (isAddress_scanUrl _)] at hsteady
        exact nomatch hsteady
    · exact hfunction hident
  · rename_i name rest _ hname
    obtain rfl := hident
    exact @meets_of_reads _ _ _ [.ident name] hname (.cons hread (.nil rest))

/-- A hyphen alone joins the name of the mark. -/
theorem meets_of_hyphen (hident : startsIdent ('-' :: cs) = false)
    (hnumeral : scanNumeral? ('-' :: cs) = none) : Meets ('-' :: cs) := by
  rw [scanNumeral?_eq_none_iff] at hnumeral
  have hends : endsName cs = true := endsName_of_hyphen hident hnumeral.1
  have hdelimiter : endsDelimiter '-' cs = true := by
    simp only [endsDelimiter, hends, Bool.true_and, Bool.not_eq_true']
    exact hnumeral.2
  have hname : scanName ('-' :: cs) = (['-'], cs) := by
    rw [scanName_cons cs rfl, scanName_of_endsName hends]
  exact @meets_of_reads _ _ _ [.literal ['-']] hname
    (.cons (readsAs_delimiter (by decide) hdelimiter) (.nil cs))

/-- The mark that ends a hidden part falls into a name and a delimiter. -/
theorem meets_of_hiding (cs : List Char) : Meets ('-' :: '-' :: '>' :: cs) := by
  have hname : scanName ('-' :: '-' :: '>' :: cs) = (['-', '-'], '>' :: cs) := by
    rw [scanName_cons _ rfl, scanName_cons _ rfl, scanName_of_endsName rfl]
  have hdelimiter : ReadsAs ('>' :: cs) (.atom (.literal ['>'])) cs :=
    readsAs_delimiter (by decide) rfl
  exact ⟨_, _, cs, .name [.literal ['-', '-', '>']] _ [.literal ['>']] (by simp [Lexeme.numeral?]),
    .cons ⟨_, _, rfl, rfl⟩ (.nil cs),
    .cons (readsAs_mark hname rfl) (.cons hdelimiter (.nil cs))⟩

/-- Where no identifier starts, a name has a digit or a hyphen at its beginning, and the digit is
that of a number. -/
theorem meets_of_not_startsIdent (hident : startsIdent (c :: cs) = false)
    (hsteady : (scan c cs).1.isSteady = true) : Meets (c :: cs) := by
  cases hends : endsName (c :: cs) with
  | true => exact meets_of_endsName hends
  | false =>
      have hchar : isNameChar c = true := by
        simpa [endsName, startsEscape_of_not_startsIdent hident] using hends
      have hnumeral (hspace : isSpace c = false) : scanNumeral? (c :: cs) = none := by
        by_contra hnumeral
        exact numeral?_scan hspace hident hnumeral (Lexeme.numeral?_of_isSteady hsteady)
      rcases isDigit_or_hyphen_of_not_startsIdent hident hchar with hdigit | rfl
      · exact absurd (hnumeral (isSpace_of_isDigit hdigit))
          (@scanNumeral?_ne_none [] c cs .none hdigit)
      · exact meets_of_hyphen hident (hnumeral rfl)

/-- A text that begins steadily is read on as before. -/
theorem meets_of_beginsSteadily (h : beginsSteadily text = true) : Meets text := by
  cases text with
  | nil => exact meets_of_endsName rfl
  | cons c cs =>
      rcases Bool.or_eq_true _ _ ▸ h with hends | hsteady
      · exact meets_of_endsName hends
      · cases hident : startsIdent (c :: cs) with
        | true =>
            rcases scan_cases_of_startsIdent hident with
              ⟨-, first, last, hrange⟩ | ⟨after, heq⟩ | hscan
            · rw [hrange] at hsteady
              exact nomatch hsteady
            · rw [heq]
              exact meets_of_hiding after
            · exact meets_of_scanIdent hscan hsteady
        | false => exact meets_of_not_startsIdent hident hsteady

end Meets

namespace Token

/-- What stands at the heads of two rows of tokens. There is no block in braces in it, and the
second row starts a rule with it. -/
structure Heads (heads heads' : List Token) : Prop where
  inline : ∀ t ∈ heads, t.isInline = true
  prelude : ArePrelude .top heads'
  ne_nil : heads' ≠ []

/-- Two rows of tokens that are the same behind their heads. -/
def SameBehind (ts ts' : List Token) : Prop :=
  ∃ heads heads' later, Heads heads heads' ∧ ts = heads ++ later ∧ ts' = heads' ++ later

theorem SameBehind.append {ts ts' : List Token} (h : SameBehind ts ts') (us : List Token) :
    SameBehind (ts ++ us) (ts' ++ us) := by
  obtain ⟨heads, heads', later, hheads, rfl, rfl⟩ := h
  exact ⟨heads, heads', later ++ us, hheads, List.append_assoc .., List.append_assoc ..⟩

theorem Opener.isInline_close {o : Opener} (h : o.bracket = .paren) (p : Place)
    (content : List Token) : (o.close p content).isInline = true := by
  cases o with
  | function name => rfl
  | block bracket =>
      obtain rfl : bracket = .paren := h
      rfl

namespace Builder

/-- The list that an open token leaves behind when it is closed. -/
def closed (frame : Frame) (content : List Token) : List Token :=
  frame.opener.close frame.start content :: frame.before

/-- Two builders whose outermost lists are the same behind their heads, if need be after the
outermost open tokens are closed. All that is inside these is the same. -/
inductive SameBehind : Builder → Builder → Prop
  | outside {ts ts' : List Token} (h : Token.SameBehind ts.reverse ts'.reverse) :
      SameBehind ⟨[], ts⟩ ⟨[], ts'⟩
  | inside {frame frame' : Frame} (hbracket : frame.opener.bracket = frame'.opener.bracket)
      (h : ∀ content, Token.SameBehind (closed frame content).reverse
        (closed frame' content).reverse) (frames : List Frame) (current : List Token) :
      SameBehind ⟨frames ++ [frame], current⟩ ⟨frames ++ [frame'], current⟩

variable {b b' : Builder}

theorem SameBehind.push {ts ts' : List Token} (h : Token.SameBehind ts.reverse ts'.reverse)
    (t : Token) : Token.SameBehind (t :: ts).reverse (t :: ts').reverse := by
  rw [List.reverse_cons, List.reverse_cons]
  exact h.append [t]

theorem SameBehind.openToken (h : SameBehind b b') (p : Place) (o : Opener) :
    SameBehind (b.openToken p o) (b'.openToken p o) := by
  cases h with
  | @outside ts ts' h =>
      exact @inside ⟨p, o, ts⟩ ⟨p, o, ts'⟩ rfl (fun content => push h (o.close p content)) [] []
  | inside hbracket h frames current => exact .inside hbracket h (⟨p, o, current⟩ :: frames) []

theorem SameBehind.close (h : SameBehind b b') (p : Place) (bracket : Bracket) :
    SameBehind (b.step (p, .close bracket)) (b'.step (p, .close bracket)) := by
  cases h with
  | outside h => exact .outside (push h (.stray p bracket))
  | @inside frame frame' hbracket h frames current =>
      cases frames with
      | nil =>
          by_cases hcloses : frame.opener.bracket = bracket
          · simp only [step, List.nil_append, if_pos hcloses, if_pos (hbracket ▸ hcloses)]
            exact .outside (h current.reverse)
          · simp only [step, List.nil_append, if_neg hcloses, if_neg (hbracket ▸ hcloses)]
            exact .inside hbracket h [] _
      | cons inner frames =>
          simp only [step, List.cons_append]
          split
          · exact .inside hbracket h frames _
          · exact .inside hbracket h (inner :: frames) _

theorem SameBehind.step (h : SameBehind b b') (l : Place × Lexeme) :
    SameBehind (b.step l) (b'.step l) := by
  obtain ⟨p, l⟩ := l
  cases l with
  | atom a =>
      cases h with
      | outside h => exact .outside (push h (.atom p a))
      | inside hbracket h frames current => exact .inside hbracket h frames _
  | openFunction name => exact h.openToken p (.function name)
  | openBlock bracket => exact h.openToken p (.block bracket)
  | close bracket => exact h.close p bracket

theorem SameBehind.foldl (h : SameBehind b b') (ls : List (Place × Lexeme)) :
    SameBehind (ls.foldl Builder.step b) (ls.foldl Builder.step b') := by
  induction ls generalizing b b' with
  | nil => exact h
  | cons l ls ih => exact ih (h.step l)

theorem SameBehind.finish (h : SameBehind b b') :
    Token.SameBehind (Builder.finish b.frames b.current) (Builder.finish b'.frames b'.current) := by
  cases h with
  | outside h => exact h
  | inside hbracket h frames current =>
      induction frames generalizing current with
      | nil => exact h current.reverse
      | cons inner frames ih => exact ih (closed inner current.reverse)

/-- Atoms are added as they come. -/
theorem foldl_step_atoms {atoms : List Atom} {taken : List (Place × Lexeme)}
    (h : taken.map Prod.snd = atoms.map .atom) (current : List Token) :
    ∃ ts : List Token, (∀ t ∈ ts, t.isInline = true) ∧
      taken.foldl Builder.step ⟨[], current⟩ = ⟨[], ts.reverse ++ current⟩ := by
  induction taken generalizing atoms current with
  | nil => exact ⟨[], List.forall_mem_nil _, rfl⟩
  | cons l taken ih =>
      obtain ⟨p, l⟩ := l
      cases atoms with
      | nil => exact nomatch h
      | cons a atoms =>
          obtain ⟨rfl, htaken⟩ := List.cons.inj h
          obtain ⟨ts, hinline, hfold⟩ := ih htaken (.atom p a :: current)
          refine ⟨.atom p a :: ts, List.forall_mem_cons.mpr ⟨rfl, hinline⟩, ?_⟩
          rw [List.foldl_cons, List.reverse_cons, List.append_assoc, List.singleton_append]
          exact hfold

/-- What a text begins with leaves builders that go on alike. -/
theorem sameBehind_of_joined {ls ls' : List Lexeme} {taken taken' : List (Place × Lexeme)}
    (h : Joined ls ls') (htaken : taken.map Prod.snd = ls) (htaken' : taken'.map Prod.snd = ls') :
    SameBehind (taken.foldl Builder.step empty) (taken'.foldl Builder.step empty) := by
  cases h with
  | name atoms name others =>
      obtain ⟨⟨p, l⟩, taken', rfl, rfl, hothers⟩ := List.map_eq_cons_iff.mp htaken'
      obtain ⟨ts, hinline, hfold⟩ := foldl_step_atoms htaken []
      obtain ⟨ts', hinline', hfold'⟩ := foldl_step_atoms hothers [.atom p (.ident name)]
      rw [empty, hfold, List.foldl_cons, step, push, hfold']
      refine .outside ⟨ts, .atom p (.ident name) :: ts', [], ⟨hinline, ⟨?_, ?_⟩, ?_⟩, ?_, ?_⟩
      · rintro t ⟨⟩
        rfl
      · exact List.forall_mem_cons.mpr ⟨rfl, hinline'⟩
      · exact List.cons_ne_nil _ _
      · simp
      · simp
  | function atoms o hparen name =>
      obtain ⟨before, opening, rfl, hbefore, hopening⟩ := List.map_eq_append_iff.mp htaken
      obtain ⟨⟨p, l⟩, rfl, rfl⟩ := List.map_eq_singleton_iff.mp hopening
      obtain ⟨⟨p', l'⟩, rfl, rfl⟩ := List.map_eq_singleton_iff.mp htaken'
      obtain ⟨ts, hinline, hfold⟩ := foldl_step_atoms hbefore []
      have hopen : step ⟨[], ts.reverse ++ []⟩ (p, o.lexeme) =
          ⟨[⟨p, o, ts.reverse ++ []⟩], []⟩ := by
        cases o <;> rfl
      rw [List.foldl_append, empty, hfold, List.foldl_cons, hopen]
      refine @SameBehind.inside ⟨p, o, ts.reverse ++ []⟩ ⟨p', .function name, []⟩ hparen
        (fun content => ?_) [] []
      refine ⟨ts ++ [o.close p content], [.function p' name content], [], ⟨?_, ⟨?_, ?_⟩, ?_⟩,
        by simp [closed], rfl⟩
      · rw [List.forall_mem_append, List.forall_mem_singleton]
        exact ⟨hinline, Opener.isInline_close hparen p content⟩
      · rintro t ⟨⟩
        rfl
      · exact List.forall_mem_singleton.mpr rfl
      · exact List.cons_ne_nil _ _

end Builder

/-- Behind a mark the same tokens follow as without it. -/
theorem sameBehind_of_meets {text : List Char} (h : Meets text) :
    SameBehind (ofLexemes (lexemes text)) (ofLexemes (lexemes (mark :: text))) := by
  obtain ⟨ls, ls', tail, hjoined, hreads, hreads'⟩ := h
  obtain ⟨taken, htaken, hls⟩ := hreads.exists_lexemes
  obtain ⟨taken', htaken', hls'⟩ := hreads'.exists_lexemes
  rw [htaken, htaken', ofLexemes, ofLexemes, List.foldl_append, List.foldl_append]
  exact ((Builder.sameBehind_of_joined hjoined hls hls').foldl (lexemes tail)).finish

end Token

namespace Rule

/-- Two lists of rules, the first without a rule with a block where the second is unfinished, or
with a first such rule in whose place the second has another one, and nothing before it. -/
inductive FirstReplaced : List Rule → List Rule → Prop
  | unfinished {rules : List Rule} (h : ∀ r ∈ rules, r.content? = none) (place : Place) :
      FirstReplaced rules [.unfinished place]
  | block {before : List Rule} {r : Rule} {content : List Token}
      (h : ∀ q ∈ before, q.content? = none) (hr : r.content? = some content)
      (prelude : List Token) (after : List Rule) :
      FirstReplaced (before ++ r :: after) (.qualified prelude content :: after)

/-- All that differs is taken into the rule that the heads of the second row start. -/
theorem firstReplaced_of_sameBehind {ts ts' : List Token} (h : Token.SameBehind ts ts') :
    FirstReplaced (ofTokens .top ts) (ofTokens .top ts') := by
  obtain ⟨heads, heads', later, hheads, rfl, rfl⟩ := h
  have hprelude {more : List Token} (hmore : ∀ t ∈ more, t.isInline = true) :
      Token.ArePrelude .top (heads' ++ more) := by
    refine ⟨?_, List.forall_mem_append.mpr ⟨hheads.prelude.inline, hmore⟩⟩
    rw [List.head?_append_of_ne_nil _ hheads.ne_nil]
    exact hheads.prelude.starts
  rcases Token.exists_firstBlock later with hlater | ⟨more, p, content, after, rfl, hmore⟩
  · obtain ⟨place, hplace⟩ := split_unfinished (hprelude hlater)
      (List.append_ne_nil_of_left_ne_nil hheads.ne_nil later)
    rw [ofTokens, ofTokens, hplace]
    exact .unfinished (content?_of_mem_split
      (List.forall_mem_append.mpr ⟨hheads.inline, hlater⟩) .top none) place
  · obtain ⟨before, r, hbefore, hr, hsplit⟩ := exists_split_block
      (List.forall_mem_append.mpr ⟨hheads.inline, hmore⟩) .top none p content after
    rw [ofTokens, ofTokens, ← List.append_assoc, ← List.append_assoc, hsplit,
      split_qualified (hprelude hmore)]
    exact .block hbefore hr _ _

end Rule

/-- The mark makes no integer. -/
theorem oversizedDigits?_of_meets {text : List Char} (h : Meets text)
    (hsize : ∀ l ∈ lexemes text, l.2.oversizedDigits? = none) :
    ∀ l ∈ lexemes (mark :: text), l.2.oversizedDigits? = none := by
  obtain ⟨ls, ls', tail, hjoined, hreads, hreads'⟩ := h
  obtain ⟨taken, htaken, hls⟩ := hreads.exists_lexemes
  obtain ⟨taken', htaken', hls'⟩ := hreads'.exists_lexemes
  rw [htaken', List.forall_mem_append]
  rw [htaken, List.forall_mem_append] at hsize
  refine ⟨fun l hl => ?_, hsize.2⟩
  have hmem : l.2 ∈ ls' := hls' ▸ List.mem_map_of_mem hl
  exact Lexeme.oversizedDigits?_of_numeral? (hjoined.numeral? l.2 hmem)

end MediaSplit.Css
