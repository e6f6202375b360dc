import MediaSplit.Partition
import MediaSplit.Proofs.Css.RuleLists
import MediaSplit.Proofs.Nodes
import MediaSplit.Proofs.Partition

/-!
Which texts are written back as they stand. Every lexeme has one written form, marks that hide a
style sheet are left out, what the end of the text left open is closed, and lexemes that would run
together are kept apart by a comment. A text that uses the written forms only, has no such mark and
leaves nothing open is written back unchanged exactly if nothing in it has to be kept apart.
-/

namespace MediaSplit.Css

section OpenStrings

/-- Only the end of a text leaves a string open. -/
theorem scanString_endOfText (quote : Char) (cs : List Char)
    (h : (scanString quote cs).2.1 = .endOfText) : (scanString quote cs).2.2 = [] := by
  fun_induction scanString quote cs with
  | case1 | case4 => rfl
  | case2 => cases h
  | case3 => cases h
  | case5 c rest _ _ _ ih => exact ih h
  | case6 c _ _ _ d rest _ escape value ending rest' heq ih =>
      rw [heq] at ih
      exact ih h
  | case7 c cs _ _ _ value ending rest heq ih =>
      rw [heq] at ih
      exact ih h

theorem ReadsAs.eq_nil_of_openString {text rest value : List Char}
    (h : ReadsAs text (.atom (.string value false)) rest) : rest = [] := by
  obtain ⟨c, cs, rfl, hc⟩ := h.startsLike.first rfl
  have hident : startsIdent (c :: cs) = false := h.startsLike.ident
  have hquote : isQuote c = true := by
    rcases hc with rfl | ⟨-, rfl⟩ <;> rfl
  have hspace : isSpace c = false := by
    rcases hc with rfl | ⟨-, rfl⟩ <;> rfl
  have hscan : scan c cs = (.atom (.string value false), rest) := by
    obtain ⟨d, ds, heq, hscan⟩ := h
    obtain ⟨rfl, rfl⟩ := List.cons.inj heq
    exact hscan
  have hnumeral : scanNumeral? (c :: cs) = none := by
    by_contra hsome
    have hread := numeral?_scan hspace hident hsome
    rw [hscan] at hread
    exact hread rfl
  rw [scan_of_not_startsIdent hspace hident, hnumeral] at hscan
  simp only [hquote, if_true] at hscan
  obtain ⟨hatom, hrest⟩ := Prod.mk.inj hscan
  have hend := scanString_endOfText c cs
  unfold scanStringAtom at hatom hrest
  split at hatom
  · cases hatom
  · rename_i heq
    rw [heq] at hend hrest
    rw [← hrest]
    exact hend rfl
  · cases hatom

/-- Every lexeme of a text is read somewhere in it, and the lexemes after it are those of what is
left there. -/
theorem exists_readsAs_of_lexemes {text : List Char} {xs ys : List Lexeme} {l : Lexeme}
    (h : (lexemes text).map Prod.snd = xs ++ l :: ys) :
    ∃ s rest, ReadsAs s l rest ∧ (lexemes rest).map Prod.snd = ys := by
  fun_induction lexemes text generalizing xs with
  | case1 => exact absurd h (by simp)
  | case2 c cs scanned =>
      rename_i ih
      cases xs with
      | nil =>
          obtain ⟨rfl, rfl⟩ := List.cons.inj h
          exact ⟨c :: cs, scanned.2, ⟨c, cs, rfl, rfl⟩, rfl⟩
      | cons x xs => exact ih (List.cons.inj h).2

/-- Nothing follows a string that is cut short. -/
theorem eq_nil_of_openString {text value : List Char} {xs ys : List Lexeme}
    (h : (lexemes text).map Prod.snd = xs ++ .atom (.string value false) :: ys) : ys = [] := by
  obtain ⟨s, rest, hread, rfl⟩ := exists_readsAs_of_lexemes h
  rw [hread.eq_nil_of_openString, lexemes]
  rfl

end OpenStrings

section Rows

/-- Rows of which no lexeme runs into the next one. -/
def AreApart (ls : List Lexeme) : Prop :=
  ls.IsChain fun l m => l.kind.runsInto m.kind = false

variable {ls : List Lexeme}

theorem writeRow_eq_flatMap {s : List Char} (hrow : Row s ls) (hs : IsNormalized s)
    (hapart : AreApart ls) : writeRow ls = ls.flatMap Lexeme.text := by
  have hcons {l : Lexeme} {ls : List Lexeme} {s : List Char} (hapart : AreApart (l :: ls))
      (hends : l.endsWith s = true) (hrow : Row s ls)
      (ih : AreApart ls → writeRow ls = ls.flatMap Lexeme.text) :
      writeRow (l :: ls) = (l :: ls).flatMap Lexeme.text := by
    cases ls with
    | nil => simp [writeRow_singleton]
    | cons m ms =>
        obtain ⟨hrun, htail⟩ := List.isChain_cons_cons.mp hapart
        rw [writeRow_cons, separator_eq_nil hrun hends hrow, ih htail, List.nil_append]
        rfl
  induction hrow with
  | nil => rfl
  | cons h hrest ih =>
      have hscanned := h.scanned hs
      exact hcons hapart hscanned.ends hrest (ih hscanned.normalized)
  | added hl hrest ih => exact hcons hapart (ender_wellFormed hl).2 hrest (ih hs)

/-- A row is never written shorter than its lexemes are. -/
theorem length_flatMap_le (ls : List Lexeme) :
    (ls.flatMap Lexeme.text).length ≤ (writeRow ls).length := by
  induction ls with
  | nil => exact Nat.le_refl _
  | cons l ls ih =>
      cases ls with
      | nil => simp [writeRow_singleton]
      | cons m ms =>
          rw [writeRow_cons, List.flatMap_cons]
          simp only [List.length_append]
          omega

/-- A row in which something has to be kept apart is written longer than its lexemes are. -/
theorem areApart_of_length (h : (writeRow ls).length = (ls.flatMap Lexeme.text).length) :
    AreApart ls := by
  induction ls with
  | nil => exact .nil
  | cons l ls ih =>
      cases ls with
      | nil => exact List.isChain_singleton _
      | cons m ms =>
          have hle := length_flatMap_le (m :: ms)
          rw [writeRow_cons, List.flatMap_cons] at h
          simp only [List.length_append] at h
          refine List.isChain_cons_cons.mpr ⟨?_, ih (by omega)⟩
          by_contra hrun
          rw [Bool.not_eq_false] at hrun
          have hcomment : Piece.separator l.piece m.piece = ['/', '*', '*', '/'] := if_pos hrun
          rw [hcomment, List.length_cons] at h
          omega

end Rows

def rulesOf (text : List Char) : List Rule :=
  Rule.ofTokens .top (Token.ofLexemes (lexemes (normalize text)))

/-- Texts in which each lexeme has its written form, none is a mark that is left out, and nothing is
left open at the end. -/
structure IsPlain (text : List Char) : Prop where
  spelled : (lexemes (normalize text)).flatMap (fun l => l.2.text) = text
  whole : (rulesOf text).flatMap Rule.row = (lexemes (normalize text)).map Prod.snd

namespace Rule

variable {r : Rule} {text : List Char}

/-- The last lexeme of a rule is no string. -/
theorem row_ne_append_string (r : Rule) (xs : List Lexeme) (value : List Char) (closed : Bool) :
    r.row ≠ xs ++ [.atom (.string value closed)] := by
  intro h
  have hlast := congrArg List.getLast? h
  rw [List.getLast?_concat] at hlast
  cases r with
  | whitespace blank => cases hlast
  | comment remark => cases hlast
  | unfinished place => cases hlast
  | qualified prelude content =>
      rw [row, ending, ← List.cons_append, ← List.append_assoc, List.getLast?_concat] at hlast
      cases hlast
  | atRule keyword prelude ends =>
      cases ends with
      | none =>
          rw [row, ending, ← List.cons_append, List.getLast?_concat] at hlast
          cases hlast
      | some content =>
          rw [row, ending, ← List.cons_append, ← List.cons_append, ← List.append_assoc,
            List.getLast?_concat] at hlast
          cases hlast

/-- No string in the rules of a plain text is cut short. -/
theorem hasClosedStrings_of_isPlain (h : IsPlain text) (hr : r ∈ rulesOf text) :
    HasClosedStrings r.row := by
  intro value hmem
  obtain ⟨xs, ys, hrow⟩ := List.append_of_mem hmem
  obtain ⟨before, behind, hrules⟩ := List.append_of_mem hr
  have hall : (lexemes (normalize text)).map Prod.snd =
      (before.flatMap row ++ xs) ++ .atom (.string value false) :: (ys ++ behind.flatMap row) := by
    rw [← h.whole, hrules, List.flatMap_append, List.flatMap_cons, hrow]
    simp only [List.append_assoc, List.cons_append]
  obtain ⟨rfl, -⟩ := List.append_eq_nil_iff.mp (eq_nil_of_openString hall)
  exact row_ne_append_string r xs value false hrow

theorem length_row_eq (r : Rule) : (r.row.flatMap Lexeme.text).length =
    (r.keywordRow.flatMap Lexeme.text).length + (r.inside.flatMap Lexeme.text).length := by
  rw [row_eq, List.flatMap_append, List.length_append]

/-- A rule of a plain text is written as its lexemes are, never shorter, and with nothing between
them exactly if none has to be kept apart. -/
theorem text_of_isPlain (h : IsPlain text) (hr : r ∈ rulesOf text) (hread : r.IsRead) :
    (r.row.flatMap Lexeme.text).length ≤ r.text.length ∧
      (r.text = r.row.flatMap Lexeme.text ↔ AreApart r.inside) := by
  obtain ⟨s, hs, hrow⟩ := hread.row
  have hstrings := hasClosedStrings_of_isPlain h hr
  have hkept := isKept_of_row hrow hs
  rw [row_eq] at hstrings hkept hrow
  obtain ⟨s', hs', hrow'⟩ := hrow.right hs
  have htext := text_eq (HasClosedStrings.append_iff.mp hstrings).2 hkept.of_append
  have hle := length_flatMap_le r.inside
  refine ⟨?_, ?_, ?_⟩
  · rw [length_row_eq, htext, List.length_append]
    omega
  · intro heq
    have hlength := congrArg List.length heq
    rw [length_row_eq, htext, List.length_append] at hlength
    exact areApart_of_length (by omega)
  · intro hapart
    rw [htext, writeRow_eq_flatMap hrow' hs' hapart, row_eq, List.flatMap_append]

/-- Rules that are each written no shorter than their lexemes are written as these only if each of
them is. -/
theorem text_eq_of_flatMap_eq {rules : List Rule}
    (hle : ∀ r ∈ rules, (r.row.flatMap Lexeme.text).length ≤ r.text.length)
    (h : rules.flatMap Rule.text = (rules.flatMap row).flatMap Lexeme.text) :
    ∀ r ∈ rules, r.text = r.row.flatMap Lexeme.text := by
  have hlengths (rules : List Rule)
      (hle : ∀ r ∈ rules, (r.row.flatMap Lexeme.text).length ≤ r.text.length) :
      ((rules.flatMap row).flatMap Lexeme.text).length ≤ (rules.flatMap Rule.text).length := by
    induction rules with
    | nil => exact Nat.le_refl _
    | cons r rules ih =>
        rw [List.forall_mem_cons] at hle
        have htail := ih hle.2
        simp only [List.flatMap_cons, List.flatMap_append, List.length_append]
        omega
  induction rules with
  | nil => exact fun r hr => absurd hr List.not_mem_nil
  | cons r rules ih =>
      rw [List.forall_mem_cons] at hle ⊢
      have htail := hlengths rules hle.2
      have hlength := congrArg List.length h
      simp only [List.flatMap_cons, List.flatMap_append, List.length_append] at h hlength
      obtain ⟨hfirst, hrest⟩ := List.append_inj h (by omega)
      exact ⟨hfirst, ih hle.2 hrest⟩

/-- A plain text is what is written for its rules exactly if nothing in them has to be kept
apart. -/
theorem write_eq_iff (h : IsPlain text) (hread : ∀ r ∈ rulesOf text, r.IsRead) :
    write (rulesOf text) = text ↔ ∀ r ∈ rulesOf text, AreApart r.inside := by
  have hspelled : ((rulesOf text).flatMap row).flatMap Lexeme.text = text := by
    rw [h.whole, List.flatMap_map]
    exact h.spelled
  rw [write_eq_flatMap]
  constructor
  · intro hsame r hr
    have heach := text_eq_of_flatMap_eq (fun r hr => (text_of_isPlain h hr (hread r hr)).1)
      (hsame.trans hspelled.symm)
    exact (text_of_isPlain h hr (hread r hr)).2.mp (heach r hr)
  · intro hapart
    have heach : ∀ r ∈ rulesOf text, r.text = r.row.flatMap Lexeme.text := fun r hr =>
      (text_of_isPlain h hr (hread r hr)).2.mpr (hapart r hr)
    rw [List.flatMap_congr heach, ← List.flatMap_assoc, hspelled]

end Rule

end MediaSplit.Css

namespace MediaSplit.Node

/-- A plain text is written back as it stands exactly if nothing in its rules has to be kept apart,
and stripping it of widths that it has no block for writes it back likewise. -/
theorem written_back_iff {path text : String} {sheet : Stylesheet}
    (hparse : Stylesheet.parse path text = .ok sheet) (hplain : Css.IsPlain text.toList) :
    (sheet.write = text ↔ ∀ r ∈ Css.rulesOf text.toList, Css.AreApart r.inside) ∧
      ∀ widths unwrap, matching widths sheet.nodes = [] → matching unwrap sheet.nodes = [] →
        write (stripped widths unwrap sheet.nodes) = sheet.write := by
  obtain ⟨hsized, hnodes, -⟩ := Stylesheet.parse_eq_ok_iff.mp hparse
  obtain ⟨-, hstands⟩ := accepted_of_ofRules hnodes
  have hread : ∀ r ∈ Css.rulesOf text.toList, r.IsRead := fun r hr =>
    Css.Rule.isRead_of_mem (Css.isNormalized_normalize text.toList) hsized hr
  have hwrite : sheet.write = String.ofList (Css.Rule.write (Css.rulesOf text.toList)) := by
    rw [Stylesheet.write, write, map_source_of_stands hstands]
    rfl
  constructor
  · rw [← Css.Rule.write_eq_iff hplain hread, hwrite]
    constructor
    · intro h
      have hsame := congrArg String.toList h
      rwa [String.toList_ofList] at hsame
    · intro h
      rw [h, String.ofList_toList]
  · intro widths unwrap hwidths hunwrap
    have huntouched : ∀ n ∈ sheet.nodes, isUntouched widths unwrap n = true := by
      intro n hn
      rw [isUntouched_iff]
      have hnot := List.filter_eq_nil_iff.mp hwidths n hn
      have hnot' := List.filter_eq_nil_iff.mp hunwrap n hn
      exact ⟨Bool.not_eq_true _ ▸ hnot, Bool.not_eq_true _ ▸ hnot'⟩
    rw [stripped_eq_self_of_isUntouched widths unwrap sheet.nodes huntouched]
    rfl

/-- A sheet with an import, a comment, a block for another width and one with a calculation. -/
theorem written_back_calculated :
    let text :=
      "@import \"a.css\";/* b */\n@media (width:8px)\x7b.c>d:e(2n + 1)\x7bf:calc(1px + 2%)\x7d\x7d\n"
    ∃ sheet : Stylesheet, Stylesheet.parse "a.css" text = .ok sheet ∧
      Css.IsPlain text.toList ∧ (∀ r ∈ Css.rulesOf text.toList, Css.AreApart r.inside) ∧
      sheet.write = text ∧ write (stripped ["4"] ["6"] sheet.nodes) = text := by
  intro text
  have hplain : Css.IsPlain text.toList := by
    constructor <;> decide +kernel
  have hapart : ∀ r ∈ Css.rulesOf text.toList, Css.AreApart r.inside := by
    unfold Css.AreApart
    decide +kernel
  have hsheet : (Stylesheet.parse "a.css" text).toOption.any (fun sheet =>
      (matching ["4"] sheet.nodes).isEmpty && (matching ["6"] sheet.nodes).isEmpty) = true := by
    decide +kernel
  simp only [Option.any_eq_true, Bool.and_eq_true, List.isEmpty_iff] at hsheet
  obtain ⟨sheet, hparse, hnone, hnone'⟩ := hsheet
  obtain ⟨hwrite, hstripped⟩ := written_back_iff (eq_ok_of_toOption hparse) hplain
  have hsame := hwrite.mpr hapart
  exact ⟨sheet, eq_ok_of_toOption hparse, hplain, hapart, hsame,
    (hstripped ["4"] ["6"] hnone hnone').trans hsame⟩

/-- The quotes of a string are written anew. -/
theorem quotes_not_kept :
    ∃ sheet : Stylesheet, Stylesheet.parse "" "a\x7bcontent:'x'\x7d" = .ok sheet ∧
      sheet.write = "a\x7bcontent:\"x\"\x7d" ∧ sheet.write ≠ "a\x7bcontent:'x'\x7d" := by
  have hwritten : (Stylesheet.parse "" "a\x7bcontent:'x'\x7d").toOption.any (fun sheet =>
      sheet.write == "a\x7bcontent:\"x\"\x7d") = true := by decide +kernel
  simp only [Option.any_eq_true, beq_iff_eq] at hwritten
  obtain ⟨sheet, hparse, hwrite⟩ := hwritten
  refine ⟨sheet, eq_ok_of_toOption hparse, hwrite, ?_⟩
  rw [hwrite]
  decide

end MediaSplit.Node
