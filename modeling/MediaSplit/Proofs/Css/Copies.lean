import MediaSplit.Proofs.Css.Rules
import MediaSplit.Stylesheet

/-!
At-rules that are written again. A rule that is cut out of a text is a part of its lexemes. Where
a sound at-rule is written, whatever stands before and behind it, it is cut out again: with the
same keyword, with copies of its prelude and its content, and with the same written form.
-/

namespace MediaSplit.Css

section Row

variable {s : List Char} {xs ys : List Lexeme}

theorem Row.left (h : Row s (xs ++ ys)) : Row s xs := by
  induction xs generalizing s with
  | nil => exact .nil s
  | cons x xs ih =>
      cases h with
      | cons hread hrest => exact .cons hread (ih hrest)
      | added hender hrest => exact .added hender (ih hrest)

theorem Row.right (h : Row s (xs ++ ys)) (hs : IsNormalized s) :
    ∃ s', IsNormalized s' ∧ Row s' ys := by
  induction xs generalizing s with
  | nil => exact ⟨s, hs, h⟩
  | cons x xs ih =>
      cases h with
      | cons hread hrest => exact ih hrest (hread.scanned hs).normalized
      | added hender hrest => exact ih hrest hs

/-- The lexemes of a text, with what its end left out. -/
theorem row_lexemes (text : List Char) {enders : List Lexeme}
    (h : ∀ l ∈ enders, l.isEnder = true) : Row text ((lexemes text).map Prod.snd ++ enders) := by
  fun_induction lexemes text with
  | case1 =>
      induction enders with
      | nil => exact .nil []
      | cons l ls ih =>
          rw [List.forall_mem_cons] at h
          exact .added h.1 (ih h.2)
  | case2 c cs scanned ih => exact .cons ⟨c, cs, rfl, rfl⟩ ih

/-- What is read of a text stands at the front of its lexemes. -/
theorem Reads.exists_lexemes {text tail : List Char} {ls : List Lexeme} (h : Reads text ls tail) :
    ∃ taken, Css.lexemes text = taken ++ Css.lexemes tail ∧ taken.map Prod.snd = ls := by
  induction h with
  | nil tail => exact ⟨[], rfl, rfl⟩
  | cons h _ ih =>
      obtain ⟨c, cs, rfl, hscan⟩ := h
      obtain ⟨taken, htaken, rfl⟩ := ih
      refine ⟨(⟨c :: cs⟩, (scan c cs).1) :: taken, ?_, ?_⟩
      · rw [Css.lexemes, hscan, htaken]
        rfl
      · rw [hscan]
        rfl

theorem Row.wellFormed (h : Row s xs) (hs : IsNormalized s) : ∀ l ∈ xs, l.WellFormed := by
  induction h with
  | nil => exact fun l hl => absurd hl List.not_mem_nil
  | cons hread _ ih =>
      have hscanned := hread.scanned hs
      exact List.forall_mem_cons.mpr ⟨hscanned.wellFormed, ih hscanned.normalized⟩
  | added hender _ ih => exact List.forall_mem_cons.mpr ⟨(ender_wellFormed hender).1, ih hs⟩

end Row

section Normalized

private theorem isNormalized_of_isSpace {text : List Char} (h : ∀ c ∈ text, isSpace c = true) :
    IsNormalized text := by
  intro c hc
  have hspace := h c hc
  refine ⟨?_, ?_, ?_⟩ <;> rintro rfl <;> exact absurd hspace (by decide)

private theorem isNormalized_writeUnit {unit : List Char} (h : '\x00' ∉ unit) :
    IsNormalized (writeUnit unit) := by
  cases unit with
  | nil => exact IsNormalized.nil
  | cons c cs =>
      rw [writeUnit]
      split
      · rw [List.mem_cons, not_or] at h
        simp [isNormalized_writeName h.2]
      · exact isNormalized_writeIdent h

private theorem IsLiteral.isNormalized {text : List Char} (h : IsLiteral text) :
    IsNormalized text := by
  cases h with
  | opening => simp [IsNormalized.nil]
  | closing => simp [IsNormalized.nil]
  | column => simp [IsNormalized.nil]
  | sign h =>
      simp only [isMatchSign, Bool.or_eq_true, beq_iff_eq] at h
      rcases h with (((rfl | rfl) | rfl) | rfl) | rfl <;> simp [IsNormalized.nil]
  | delimiter _ hnormal => exact hnormal

private theorem Atom.isNormalized_text {a : Atom} (h : (Lexeme.atom a).WellFormed) :
    IsNormalized a.text := by
  match a with
  | .whitespace text => exact @isNormalized_of_isSpace text h.2
  | .comment text =>
      change IsNormalized (['/', '*'] ++ text ++ ['*', '/'])
      exact IsNormalized.append_iff.mpr ⟨IsNormalized.append_iff.mpr ⟨by decide, h.2⟩, by decide⟩
  | .literal text => exact IsLiteral.isNormalized h
  | .ident name => exact isNormalized_writeIdent h.2
  | .atKeyword name =>
      exact IsNormalized.cons_iff.mpr ⟨by decide, isNormalized_writeIdent h.2⟩
  | .hash name true =>
      exact IsNormalized.cons_iff.mpr ⟨by decide, isNormalized_writeIdent h.1.2⟩
  | .hash name false =>
      exact IsNormalized.cons_iff.mpr ⟨by decide, isNormalized_writeName h.1.2⟩
  | .number numeral => exact IsNumeral.normalized h
  | .percentage numeral =>
      exact IsNormalized.append_iff.mpr ⟨IsNumeral.normalized h, by decide⟩
  | .dimension numeral unit =>
      exact IsNormalized.append_iff.mpr ⟨IsNumeral.normalized h.1, isNormalized_writeUnit h.2.2⟩
  | .string value closed =>
      refine IsNormalized.append_iff.mpr ⟨IsNormalized.cons_iff.mpr
        ⟨by decide, isNormalized_writeString h⟩, ?_⟩
      cases closed <;> decide
  | .badString => decide
  | .url value closed =>
      refine IsNormalized.append_iff.mpr ⟨IsNormalized.append_iff.mpr
        ⟨by decide, isNormalized_writeUrl h⟩, ?_⟩
      cases closed <;> decide
  | .badUrl => decide
  | .unicodeRange first last =>
      have hlast : IsNormalized (if first = last then [] else '-' :: hexDigits last) := by
        split <;> simp [isNormalized_hexDigits, IsNormalized.nil]
      exact IsNormalized.cons_iff.mpr ⟨by decide, IsNormalized.cons_iff.mpr ⟨by decide,
        IsNormalized.append_iff.mpr ⟨isNormalized_hexDigits first, hlast⟩⟩⟩

theorem Lexeme.isNormalized_text {l : Lexeme} (h : l.WellFormed) : IsNormalized l.text := by
  cases l with
  | atom a => exact Atom.isNormalized_text h
  | openFunction name =>
      exact IsNormalized.append_iff.mpr ⟨isNormalized_writeIdent h.2, by decide⟩
  | openBlock b => cases b <;> decide
  | close b => cases b <;> decide

private theorem isNormalized_separator (left right : Piece) :
    IsNormalized (Piece.separator left right) := by
  unfold Piece.separator
  split
  · simp [IsNormalized.nil]
  · split <;> simp [IsNormalized.nil]

theorem isNormalized_writeRow {ls : List Lexeme} (h : ∀ l ∈ ls, l.WellFormed) :
    IsNormalized (writeRow ls) := by
  induction ls with
  | nil => exact IsNormalized.nil
  | cons l ls ih =>
      rw [List.forall_mem_cons] at h
      cases ls with
      | nil => exact Lexeme.isNormalized_text h.1
      | cons m ms =>
          rw [writeRow_cons, IsNormalized.append_iff, IsNormalized.append_iff]
          exact ⟨Lexeme.isNormalized_text h.1, isNormalized_separator _ _, ih h.2⟩

end Normalized

theorem Lexeme.oversizedDigits?_reread (l : Lexeme) :
    l.reread.oversizedDigits? = l.oversizedDigits? := by
  cases l with
  | atom a => cases a <;> rfl
  | _ => rfl

/-- What is read where a row is written has no number that the row has not. -/
theorem oversizedDigits?_of_mem_settle {ls : List Lexeme} (h : ∀ l ∈ ls, l.oversizedDigits? = none) :
    ∀ l ∈ settle ls, l.oversizedDigits? = none := by
  induction ls with
  | nil => exact h
  | cons m ms ih =>
      rw [List.forall_mem_cons] at h
      rw [settle_cons, List.forall_mem_cons, Lexeme.oversizedDigits?_reread, List.forall_mem_append]
      refine ⟨h.1, ?_, ih h.2⟩
      intro l hl
      unfold separators at hl
      split at hl
      · exact absurd hl List.not_mem_nil
      · split at hl
        · rw [List.mem_singleton.mp hl]
          rfl
        · exact absurd hl List.not_mem_nil

namespace Token

/-- The tokens that are read where `ts` are written. -/
structure IsCopy (ts ts' : List Token) : Prop where
  settled : Settled ts ts'
  rows_eq : rows ts' = settle (rows ts)

theorem Builder.taken_append (frames : List Frame) (ts current : List Token) :
    taken frames (ts.reverse ++ current) = taken frames current ++ rows ts := by
  induction ts generalizing current with
  | nil => simp [rows]
  | cons t ts ih =>
      rw [List.reverse_cons, List.append_assoc, List.singleton_append, ih, taken_cons, rows,
        List.append_assoc]

/-- Nesting what is written for nested tokens gives a copy of them. -/
theorem Builder.foldl_step_settle {ts : List Token} {taken : List (Place × Lexeme)} {b : Builder}
    (h : taken.map Prod.snd = settle (rows ts)) (hnested : areNestedIn (outer b.frames) ts = true) :
    ∃ ts', IsCopy ts ts' ∧ taken.foldl Builder.step b = ⟨b.frames, ts'.reverse ++ b.current⟩ := by
  obtain ⟨ts', hsettled, hfold⟩ := foldl_step_spaced (h ▸ spaced_settle (rows ts)) hnested
  refine ⟨ts', ⟨hsettled, ?_⟩, hfold⟩
  have hrows := (foldl_step_spec taken b).1
  rw [hfold, h, taken_append] at hrows
  exact List.append_cancel_left hrows

theorem IsCopy.write_eq {ts ts' : List Token} {l : Lexeme} {ls : List Lexeme} (h : IsCopy ts ts')
    (hstrings : HasClosedStrings (rows ts)) (hkept : IsKept (rows ts ++ l :: ls))
    (hl : l.isBarrier = true) : write ts' = write ts :=
  write_eq_of_settle h.rows_eq hstrings hkept hl

end Token

namespace Rule

def body (prelude : List Token) (content : Option (List Token)) : List Lexeme :=
  Token.rows prelude ++ ending content

/-- The at-rule that is read where another is written. -/
inductive IsCopy : Rule → Rule → Prop
  | atRule {keyword : List Char} {prelude prelude' : List Token}
      {ends ends' : Option (List Token)} (hprelude : Token.IsCopy prelude prelude')
      (hends : Option.Rel Token.IsCopy ends ends') :
      IsCopy (.atRule keyword prelude ends) (.atRule keyword prelude' ends')

structure IsRead (r : Rule) : Prop where
  proper : r.IsProper
  row : ∃ s, IsNormalized s ∧ Row s r.row
  sized : ∀ l ∈ r.row, l.oversizedDigits? = none

/-- Whether every lexeme of a rule is read back where the rule is written. -/
def isSound (r : Rule) : Bool :=
  isSoundRow r.row

section AtRule

variable {keyword : List Char} {prelude content : List Token} {ends : Option (List Token)}

theorem row_atRule : (Rule.atRule keyword prelude ends).row =
    .atom (.atKeyword keyword) :: body prelude ends := rfl

theorem body_none : body prelude none = Token.rows prelude ++ [.atom (.literal [';'])] := rfl

theorem body_some : body prelude (some content) =
    Token.rows prelude ++ .openBlock .brace :: (Token.rows content ++ [.close .brace]) := rfl

theorem body_ne_nil : body prelude ends ≠ [] := by
  cases ends <;> simp [body, ending]

theorem isClosed_append {xs ys : List Lexeme} (h : isClosed ys = true) :
    isClosed (xs ++ ys) = true := by
  induction xs with
  | nil => exact h
  | cons x xs ih =>
      rw [List.cons_append]
      cases hrest : xs ++ ys with
      | nil => rw [hrest] at ih; exact absurd ih (by decide)
      | cons y zs => rwa [hrest] at ih

theorem isClosed_body : isClosed (body prelude ends) = true := by
  apply isClosed_append
  cases ends with
  | none => rfl
  | some content =>
      rw [ending, ← List.cons_append]
      exact isClosed_append rfl

theorem startsWith_text (p : Char → Bool) (tail : List Char) :
    startsWith p ((Rule.atRule keyword prelude ends).text ++ tail) = p '@' := by
  cases ends <;> rfl

/-- A prelude and a block are written as their lexemes are. -/
theorem writeRow_body_some (hstrings : HasClosedStrings (body prelude (some content)))
    (hkept : IsKept (body prelude (some content))) :
    writeRow (body prelude (some content)) =
      Token.write prelude ++ '{' :: (Token.write content ++ ['}']) := by
  obtain ⟨hprelude, hcontent⟩ := HasClosedStrings.append_iff.mp hstrings
  have hinside : writeRow (Token.rows content ++ [.close .brace]) = Token.write content ++ ['}'] :=
    writeRow_append_barrier (HasClosedStrings.append_iff.mp hcontent.tail).1
      hkept.of_append.tail rfl
  have hwritten : writeRow (body prelude (some content)) =
      Token.write prelude ++ '{' :: writeRow (Token.rows content ++ [.close .brace]) :=
    writeRow_append_barrier hprelude hkept rfl
  rw [hwritten, hinside]

/-- An at-rule is written as its keyword and the lexemes behind it. -/
theorem text_atRule (hstrings : HasClosedStrings (body prelude ends))
    (hkept : IsKept (body prelude ends)) :
    (Rule.atRule keyword prelude ends).text =
      '@' :: writeIdent keyword ++ writeRow (body prelude ends) := by
  cases ends with
  | none =>
      obtain ⟨hprelude, -⟩ := HasClosedStrings.append_iff.mp hstrings
      have hwritten : writeRow (body prelude none) = Token.write prelude ++ [';'] :=
        writeRow_append_barrier hprelude hkept rfl
      simp only [hwritten, text, List.cons_append, List.append_assoc]
  | some content =>
      have hwritten := writeRow_body_some hstrings hkept
      simp only [hwritten, text, List.cons_append, List.append_assoc]

theorem isSoundRow_body (h : (Rule.atRule keyword prelude ends).isSound = true) :
    isSoundRow (body prelude ends) = true := by
  rw [isSound, row_atRule, isSoundRow, Bool.and_eq_true] at h
  exact h.2

/-- A sound at-rule is read back before every text. -/
theorem reads_text (hread : (Rule.atRule keyword prelude ends).IsRead)
    (hsound : (Rule.atRule keyword prelude ends).isSound = true) (tail : List Char) :
    Reads ((Rule.atRule keyword prelude ends).text ++ tail)
      (.atom (.atKeyword keyword) :: settle (body prelude ends)) tail := by
  obtain ⟨s, hs, hrow⟩ := hread.row
  have hbody := isSoundRow_body hsound
  rw [row_atRule] at hrow
  cases hrow with
  | cons hkeyword hrest =>
      have hscanned := hkeyword.scanned hs
      have hreads := reads_writeRow hrest hscanned.normalized hbody isClosed_body tail
      rw [text_atRule (hasClosedStrings_of_isSoundRow hbody)
        (isKept_of_row hrest hscanned.normalized), List.append_assoc]
      refine .cons (Lexeme.readsAs_text hscanned.wellFormed rfl ?_ rfl) hreads
      obtain ⟨m, ms, hm⟩ := List.exists_cons_of_ne_nil (@body_ne_nil prelude ends)
      have hclosed := @isClosed_body prelude ends
      rw [hm] at hrest hreads hclosed ⊢
      exact endsWith_of_reads hscanned.ends hrest hreads hclosed rfl
  | added hender _ => exact absurd hender (by simp [Lexeme.isEnder])

end AtRule

section Split

variable {keyword : List Char} {prelude content : List Token} {ends : Option (List Token)}

theorem split_plain {t : Token} (h : t.isPlain = true) (level : Level)
    (before rest : List Token) :
    split level (some (.atRule keyword before)) (t :: rest) =
      split level (some (.atRule keyword (t :: before))) rest := by
  cases t with
  | atom p a =>
      have ha : a ≠ .literal [';'] := by simpa [Token.isPlain] using h
      simp [split, ha, Pending.push]
  | block p b content =>
      have hb : b ≠ .brace := by simpa [Token.isPlain] using h
      simp [split, hb, Pending.push]
  | function p name args => simp [split, Pending.push]
  | stray p b => simp [split, Pending.push]

/-- A prelude is read up to what ends it. -/
theorem split_prelude (hplain : ∀ t ∈ prelude, t.isPlain = true) (level : Level)
    (before rest : List Token) :
    split level (some (.atRule keyword before)) (prelude ++ rest) =
      split level (some (.atRule keyword (prelude.reverse ++ before))) rest := by
  induction prelude generalizing before with
  | nil => rfl
  | cons t ts ih =>
      rw [List.forall_mem_cons] at hplain
      rw [List.cons_append, split_plain hplain.1, ih hplain.2, List.reverse_cons,
        List.append_assoc, List.singleton_append]

theorem split_ended (hplain : ∀ t ∈ prelude, t.isPlain = true) (level : Level) (p q : Place)
    (rest : List Token) :
    split level none (.atom p (.atKeyword keyword) :: (prelude ++
        .atom q (.literal [';']) :: rest)) =
      .atRule keyword prelude none :: split level none rest := by
  rw [split, split_prelude hplain]
  simp [split, Pending.finish, Pending.isAtRule]

theorem split_closed (hplain : ∀ t ∈ prelude, t.isPlain = true) (level : Level) (p q : Place)
    (content rest : List Token) :
    split level none (.atom p (.atKeyword keyword) :: (prelude ++
        .block q .brace content :: rest)) =
      .atRule keyword prelude (some content) :: split level none rest := by
  rw [split, split_prelude hplain]
  simp [split, Pending.close]

open Token (Builder) in
/-- Where a proper at-rule is read, its copy is cut out. -/
theorem exists_copy {taken : List (Place × Lexeme)} (hproper : (Rule.atRule keyword prelude ends).IsProper)
    (h : taken.map Prod.snd = .atom (.atKeyword keyword) :: settle (body prelude ends))
    (current : List Token) :
    ∃ r ts, IsCopy (.atRule keyword prelude ends) r ∧
      taken.foldl Builder.step ⟨[], current⟩ = ⟨[], ts.reverse ++ current⟩ ∧
      ∀ level rest, split level none (ts ++ rest) = r :: split level none rest := by
  obtain ⟨⟨p, l⟩, after, rfl, rfl, hafter⟩ := List.map_eq_cons_iff.mp h
  obtain ⟨hplain, hnested, hcontent⟩ := hproper
  cases ends with
  | none =>
      rw [body_none, settle_append_barrier _ _ rfl] at hafter
      obtain ⟨inside, last, rfl, hinside, hlast⟩ := List.map_eq_append_iff.mp hafter
      obtain ⟨⟨q, l⟩, none, rfl, rfl, hnone⟩ := List.map_eq_cons_iff.mp hlast
      obtain rfl := List.map_eq_nil_iff.mp hnone
      obtain ⟨prelude', hcopy, hfold⟩ := Builder.foldl_step_settle
        (b := ⟨[], .atom p (.atKeyword keyword) :: current⟩) hinside hnested
      refine ⟨.atRule keyword prelude' none,
        .atom p (.atKeyword keyword) :: (prelude' ++ [.atom q (.literal [';'])]),
        .atRule hcopy .none, ?_, ?_⟩
      · rw [List.foldl_cons, List.foldl_append]
        refine (congrArg (List.foldl Builder.step · _) hfold).trans ?_
        simp [Builder.step, Builder.push]
      · intro level rest
        rw [List.cons_append, List.append_assoc]
        exact split_ended (hcopy.settled.isPlain hplain) level p q rest
  | some content =>
      rw [body_some, settle_append_barrier _ _ rfl, settle_append_barrier _ _ rfl] at hafter
      obtain ⟨inside, last, rfl, hinside, hlast⟩ := List.map_eq_append_iff.mp hafter
      obtain ⟨⟨q, l⟩, tail, rfl, rfl, htail⟩ := List.map_eq_cons_iff.mp hlast
      obtain ⟨within, closing, rfl, hwithin, hclosing⟩ := List.map_eq_append_iff.mp htail
      obtain ⟨⟨q', l⟩, none, rfl, rfl, hnone⟩ := List.map_eq_cons_iff.mp hclosing
      obtain rfl := List.map_eq_nil_iff.mp hnone
      obtain ⟨prelude', hcopy, hfold⟩ := Builder.foldl_step_settle
        (b := ⟨[], .atom p (.atKeyword keyword) :: current⟩) hinside hnested
      obtain ⟨content', hcopy', hfold'⟩ := Builder.foldl_step_settle
        (b := Builder.openToken ⟨[], prelude'.reverse ++ .atom p (.atKeyword keyword) :: current⟩ q
          (.block .brace)) hwithin (hcontent content rfl)
      refine ⟨.atRule keyword prelude' (some content'),
        .atom p (.atKeyword keyword) :: (prelude' ++ [.block q .brace content']),
        .atRule hcopy (.some hcopy'), ?_, ?_⟩
      · rw [List.foldl_cons, List.foldl_append]
        refine (congrArg (List.foldl Builder.step · _) hfold).trans ?_
        rw [List.foldl_cons]
        refine (Builder.foldl_step_opened q q' hfold').trans ?_
        simp [Builder.push, Token.Opener.close]
      · intro level rest
        rw [List.cons_append, List.append_assoc]
        exact split_closed (hcopy.settled.isPlain hplain) level p q content' rest

end Split

section Text

variable {keyword : List Char} {prelude prelude' : List Token} {ends : Option (List Token)}

/-- The copy of a prelude is written as the prelude is. -/
theorem write_prelude (h : Token.IsCopy prelude prelude')
    (hstrings : HasClosedStrings (body prelude ends)) (hkept : IsKept (body prelude ends)) :
    Token.write prelude' = Token.write prelude := by
  have hclosed := (HasClosedStrings.append_iff.mp hstrings).1
  cases ends with
  | none => exact h.write_eq hclosed hkept rfl
  | some content => exact h.write_eq hclosed hkept rfl

/-- The copy of an at-rule is written as the at-rule is. -/
theorem text_of_isCopy {r : Rule} (h : IsCopy (.atRule keyword prelude ends) r)
    (hstrings : HasClosedStrings (body prelude ends)) (hkept : IsKept (body prelude ends)) :
    r.text = (Rule.atRule keyword prelude ends).text := by
  cases h with
  | atRule hprelude hends =>
      have hwritten := write_prelude hprelude hstrings hkept
      cases hends with
      | none => rw [text, text, hwritten]
      | some hcontent =>
          have hclosed := (HasClosedStrings.append_iff.mp hstrings).2.tail
          have hinside := (HasClosedStrings.append_iff.mp hclosed).1
          rw [text, text, hwritten, hcontent.write_eq hinside hkept.of_append.tail rfl]

end Text

section Written

variable {r : Rule}

def keywordRow : Rule → List Lexeme
  | .atRule keyword _ _ => [.atom (.atKeyword keyword)]
  | _ => []

def inside : Rule → List Lexeme
  | .atRule _ prelude ends => body prelude ends
  | r => r.row

theorem row_eq (r : Rule) : r.row = r.keywordRow ++ r.inside := by
  cases r <;> rfl

/-- A rule is written as its lexemes are, with nothing between a keyword and what follows it. -/
theorem text_eq (hstrings : HasClosedStrings r.inside) (hkept : IsKept r.inside) :
    r.text = r.keywordRow.flatMap Lexeme.text ++ writeRow r.inside := by
  cases r with
  | whitespace text => rfl
  | comment text => rfl
  | unfinished place => rfl
  | atRule keyword prelude ends =>
      rw [text_atRule hstrings hkept, keywordRow, List.flatMap_singleton]
      rfl
  | qualified prelude content =>
      have hwritten := writeRow_body_some hstrings hkept
      rw [text, List.append_assoc]
      exact hwritten.symm

/-- What is needed to write a sound rule token by token. -/
theorem IsRead.writable (h : r.IsRead) (hsound : r.isSound = true) :
    HasClosedStrings r.inside ∧ IsKept r.inside := by
  obtain ⟨s, hs, hrow⟩ := h.row
  have hstrings := hasClosedStrings_of_isSoundRow hsound
  have hkept := isKept_of_row hrow hs
  rw [row_eq] at hstrings hkept
  exact ⟨(HasClosedStrings.append_iff.mp hstrings).2, hkept.of_append⟩

theorem IsRead.isNormalized_text (h : r.IsRead) (hsound : r.isSound = true) :
    IsNormalized r.text := by
  obtain ⟨s, hs, hrow⟩ := h.row
  obtain ⟨hstrings, hkept⟩ := h.writable hsound
  have hwell := hrow.wellFormed hs
  rw [row_eq, List.forall_mem_append] at hwell
  rw [text_eq hstrings hkept, IsNormalized.append_iff]
  constructor
  · intro c hc
    obtain ⟨l, hl, hcl⟩ := List.mem_flatMap.mp hc
    exact Lexeme.isNormalized_text (hwell.1 l hl) c hcl
  · exact isNormalized_writeRow hwell.2

end Written

/-- The rules of an accepted text are parts of its lexemes. -/
theorem isRead_of_mem {text : List Char} {r : Rule} (htext : IsNormalized text)
    (hsized : ∀ l ∈ lexemes text, l.2.oversizedDigits? = none) {level : Level}
    (h : r ∈ ofTokens level (Token.ofLexemes (lexemes text))) : r.IsRead := by
  obtain ⟨⟨closers, hrows⟩, hnested⟩ := Token.rows_ofLexemes (lexemes text)
  obtain ⟨before, behind, hrow⟩ := exists_row_of_mem_split h
  -- What the end of the text left out: the closing brackets, and a semicolon.
  have hall : (lexemes text).map Prod.snd ++
      (closers.map Lexeme.close ++ [.atom (.literal [';'])]) = before ++ (r.row ++ behind) := by
    rw [← hrow, hrows, List.append_assoc]
    rfl
  have henders : ∀ l ∈ closers.map Lexeme.close ++ [.atom (.literal [';'])],
      l.isEnder = true ∧ l.oversizedDigits? = none := by
    intro l hl
    rcases List.mem_append.mp hl with hl | hl
    · obtain ⟨b, -, rfl⟩ := List.mem_map.mp hl
      exact ⟨rfl, rfl⟩
    · rw [List.mem_singleton.mp hl]
      exact ⟨rfl, rfl⟩
  have hstarts := row_lexemes text fun l hl => (henders l hl).1
  rw [hall] at hstarts
  obtain ⟨s, hs, hrest⟩ := hstarts.right htext
  refine ⟨(properInvariant level).of_mem_split (by simp) hnested h, ⟨s, hs, hrest.left⟩, fun l hl => ?_⟩
  have hmem : l ∈ before ++ (r.row ++ behind) :=
    List.mem_append_right _ (List.mem_append_left _ hl)
  rw [← hall] at hmem
  rcases List.mem_append.mp hmem with hmem | hmem
  · obtain ⟨q, hq, rfl⟩ := List.mem_map.mp hmem
    exact hsized q hq
  · exact (henders l hmem).2

end Rule

end MediaSplit.Css
