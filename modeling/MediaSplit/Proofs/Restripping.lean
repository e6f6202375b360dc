import MediaSplit.Partition
import MediaSplit.Proofs.Css.RuleLists
import MediaSplit.Proofs.Nodes

/-!
Stripping a stripped text. Where every node that is left is sound, the text that is written for
them is accepted, none of its nodes matches, and stripping it gives the text itself. A node that
is not sound need not come back: a string that the end of the text cut short is written without its
closing quote, and takes in the brackets written behind it, one more each time.
-/

namespace MediaSplit.Node

open Css (Rule)

section Reading

variable {rules rules' : List Rule}

theorem accepted_iff :
    Accepted rules ↔ ∀ r ∈ rules, (∀ place, r ≠ .unfinished place) ∧
      ∀ keyword prelude content, r = .atRule keyword prelude (some content) →
        isMediaKeyword keyword = true → Accepted (Rule.ofTokens .nested content) := by
  constructor
  · intro h
    induction h with
    | nil => exact fun r hr => absurd hr List.not_mem_nil
    | cons hr hinside _ _ ih => exact List.forall_mem_cons.mpr ⟨⟨hr, hinside⟩, ih⟩
  · intro h
    induction rules with
    | nil => exact .nil
    | cons r rules ih =>
        rw [List.forall_mem_cons] at h
        exact .cons h.1.1 h.1.2 (ih h.2)

/-- A list stays accepted where its rules are read again. -/
theorem Accepted.recut (h : Accepted rules) (hrecut : List.Forall₂ Rule.IsRecut rules rules') :
    Accepted rules' := by
  induction hrecut with
  | nil => exact .nil
  | cons hr _ ih =>
      cases h with
      | cons hfinished hinside hrest =>
          refine .cons ?_ ?_ (ih hrest)
          · rintro place rfl
            cases hr with
            | atRule h => cases h
          · rintro keyword prelude content rfl hmedia
            cases hr with
            | atRule h =>
                cases h with
                | atRule hprelude hends =>
                    cases hends with
                    | some hcopy =>
                        exact (hinside _ _ _ rfl hmedia).areAlike
                          (Rule.areAlike_split hcopy.settled .none)

/-- The node of a rule that is read again has the same condition. -/
theorem isMatching_of_recut {r r' : Rule} {n n' : Node} {level : Rule.Level}
    (hr : r.IsIntact level) (hrecut : Rule.IsRecut r r') (hn : Stands r n) (hn' : Stands r' n')
    (widths : List String) : n'.isMatching widths = n.isMatching widths := by
  obtain ⟨hstrings, hkept⟩ := hr.read.writable hr.sound
  cases hrecut with
  | whitespace text | comment text | qualified hprelude hcontent =>
      cases hn
      cases hn'
      rfl
  | atRule h =>
      cases h with
      | atRule hprelude hends =>
          have hcondition := conditionOf_eq (Rule.write_prelude hprelude hstrings hkept)
          cases hn with
          | rule hplain =>
              cases hn' with
              | rule _ => rfl
              | media _ _ _ hmedia => exact absurd (hplain.symm.trans hmedia) (by decide)
          | media _ _ _ hmedia =>
              cases hn' with
              | rule hplain => exact absurd (hplain.symm.trans hmedia) (by decide)
              | media _ _ _ _ => rw [isMatching, isMatching, hcondition]

end Reading

/-- Nodes whose rules are read back where they are written. -/
structure IsSteady (n : Node) : Prop where
  intact : n.source.IsIntact .top
  stands : Stands n.source n
  accepted : Accepted [n.source]

section Steady

variable {nodes : List Node} {widths : List String}

theorem isIntact_sources (h : ∀ n ∈ nodes, n.IsSteady) :
    ∀ r ∈ nodes.map source, r.IsIntact .top := by
  intro r hr
  obtain ⟨n, hn, rfl⟩ := List.mem_map.mp hr
  exact (h n hn).intact

theorem accepted_joinBlanks (h : ∀ n ∈ nodes, n.IsSteady) :
    Accepted (Rule.joinBlanks (nodes.map source)) := by
  apply accepted_iff.mpr
  intro r hr
  rcases Rule.mem_of_mem_joinBlanks hr with hblank | hmem
  · constructor
    · exact (Rule.isIntact_joinBlanks (isIntact_sources h) r hr).finished
    · rintro keyword prelude content rfl
      exact nomatch hblank
  · obtain ⟨n, hn, rfl⟩ := List.mem_map.mp hmem
    exact accepted_iff.mp (h n hn).accepted _ List.mem_cons_self

/-- A node that is read again matches only if the node that was written does. -/
theorem isMatching_of_joined (h : ∀ n ∈ nodes, n.IsSteady)
    (hnone : ∀ n ∈ nodes, n.isMatching widths = false) {r r' : Rule} {n' : Node}
    (hr : r ∈ Rule.joinBlanks (nodes.map source)) (hrecut : Rule.IsRecut r r')
    (hn' : Stands r' n') : n'.isMatching widths = false := by
  rcases Rule.mem_of_mem_joinBlanks hr with hblank | hmem
  · cases hrecut with
    | whitespace text =>
        cases hn'
        rfl
    | comment text => exact nomatch hblank
    | qualified hprelude hcontent => exact nomatch hblank
    | atRule h =>
        cases h
        exact nomatch hblank
  · obtain ⟨n, hn, rfl⟩ := List.mem_map.mp hmem
    rw [isMatching_of_recut (h n hn).intact hrecut (h n hn).stands hn']
    exact hnone n hn

/-- What is written for steady nodes is accepted and written again in the same way, and a set of
widths that none of them matches is matched by no node of it. -/
theorem parse_write (h : ∀ n ∈ nodes, n.IsSteady) (path : String) :
    ∃ again, Stylesheet.parse path (write nodes) = .ok again ∧ again.write = write nodes ∧
      ∀ widths, (∀ n ∈ nodes, n.isMatching widths = false) →
        ∀ n ∈ again.nodes, n.isMatching widths = false := by
  have hintact := isIntact_sources h
  obtain ⟨hsized, hrecut⟩ := Rule.recut_of_write hintact
  obtain ⟨again, hagain⟩ := ((accepted_joinBlanks h).recut hrecut).exists_nodes
  obtain ⟨-, hstands⟩ := accepted_of_ofRules hagain
  refine ⟨⟨again, path⟩, ?_, ?_, ?_⟩
  · rw [Stylesheet.parse_eq_ok_iff, write, String.toList_ofList,
      Css.normalize_eq_self (Rule.isNormalized_write hintact)]
    exact ⟨hsized, hagain, rfl⟩
  · rw [Stylesheet.write, write, map_source_of_stands hstands,
      Rule.write_of_recut hintact hrecut, write]
  · intro widths hnone n' hn'
    obtain ⟨r', hr', hstand'⟩ := exists_of_mem_right hstands hn'
    obtain ⟨r, hr, hcopy⟩ := exists_of_mem_right hrecut hr'
    exact isMatching_of_joined h hnone hr hcopy hstand'

end Steady

section Sources

variable {path text : String} {sheet : Stylesheet} {widths : List String}

/-- A sound node of an accepted text is read back where it is written. -/
theorem isSteady_of_parse (hparse : Stylesheet.parse path text = .ok sheet) {n : Node}
    (hn : n ∈ sheet.nodes) (hsound : n.source.isSound = true) : n.IsSteady := by
  obtain ⟨hsized, hnodes, -⟩ := Stylesheet.parse_eq_ok_iff.mp hparse
  obtain ⟨haccepted, hstands⟩ := accepted_of_ofRules hnodes
  obtain ⟨r, hr, hstand⟩ := exists_of_mem_right hstands hn
  obtain ⟨hfinished, hinside⟩ := accepted_iff.mp haccepted r hr
  have hread := Rule.isRead_of_mem (Css.isNormalized_normalize text.toList) hsized hr
  have hnested := (Css.Token.rows_ofLexemes (Css.lexemes (Css.normalize text.toList))).2
  have hwhole := (Rule.wholeInvariant .top).of_mem_split (by simp) hnested hr
  obtain rfl := hstand.source_eq
  exact ⟨⟨hread, hsound, hwhole, hfinished⟩, hstand, .cons hfinished hinside .nil⟩

/-- Stripping once is enough. Where the nodes of an accepted text that match no width are sound,
the text written for them is accepted, has no matching node, and is what stripping makes of it. -/
theorem restripped_of_parse (hparse : Stylesheet.parse path text = .ok sheet)
    (hsound : ∀ n ∈ unmatched widths sheet.nodes, n.source.isSound = true) (path' : String) :
    ∃ again, Stylesheet.parse path' (write (unmatched widths sheet.nodes)) = .ok again ∧
      matching widths again.nodes = [] ∧
      write (unmatched widths again.nodes) = write (unmatched widths sheet.nodes) := by
  have hsteady : ∀ n ∈ unmatched widths sheet.nodes, n.IsSteady := fun n hn =>
    isSteady_of_parse hparse (List.mem_filter.mp hn).1 (hsound n hn)
  have hleft : ∀ n ∈ unmatched widths sheet.nodes, n.isMatching widths = false := by
    intro n hn
    simpa using (List.mem_filter.mp hn).2
  obtain ⟨again, hagain, hwrite, hmatching⟩ := parse_write hsteady path'
  have hnone := hmatching widths hleft
  have hall : unmatched widths again.nodes = again.nodes := by
    apply List.filter_eq_self.mpr
    intro n hn
    rw [hnone n hn]
    rfl
  refine ⟨again, hagain, ?_, ?_⟩
  · apply List.filter_eq_nil_iff.mpr
    intro n hn
    rw [hnone n hn]
    decide
  · rw [hall]
    exact hwrite

/-- A text with marks that are left out, two blanks that are joined, a quote that is written
anew, a comment that is written between two values, and a block that is left open. -/
theorem restripped_of_parse_open :
    ∃ sheet again : Stylesheet,
      Stylesheet.parse "a.css"
        "<!-- a\x7bb:'x';c:d+5\x7d --> @media (width:8px)\x7bp\x7b\x7d\x7d@media (width:4px)\x7bq\x7b" =
          .ok sheet ∧
      write (unmatched ["8"] sheet.nodes) =
        " a\x7bb:\"x\";c:d/**/+5\x7d  @media (width:4px)\x7bq\x7b\x7d\x7d" ∧
      Stylesheet.parse "b.css" (write (unmatched ["8"] sheet.nodes)) = .ok again ∧
      matching ["8"] again.nodes = [] ∧
      write (unmatched ["8"] again.nodes) = write (unmatched ["8"] sheet.nodes) := by
  have hsheet : (Stylesheet.parse "a.css"
      "<!-- a\x7bb:'x';c:d+5\x7d --> @media (width:8px)\x7bp\x7b\x7d\x7d@media (width:4px)\x7bq\x7b").toOption.any
      (fun sheet => (unmatched ["8"] sheet.nodes).all (fun n => n.source.isSound) &&
        write (unmatched ["8"] sheet.nodes) ==
          " a\x7bb:\"x\";c:d/**/+5\x7d  @media (width:4px)\x7bq\x7b\x7d\x7d") = true := by
    decide +kernel
  simp only [Option.any_eq_true, Bool.and_eq_true, List.all_eq_true, beq_iff_eq] at hsheet
  obtain ⟨sheet, hparse, hsound, hwrite⟩ := hsheet
  have hparse := eq_ok_of_toOption hparse
  obtain ⟨again, hagain⟩ := restripped_of_parse hparse hsound "b.css"
  exact ⟨sheet, again, hparse, hwrite, hagain⟩

/-- The string that the end of the text cut short takes in the bracket that is written behind it. -/
theorem changed_behind_open_string :
    ∃ sheet again : Stylesheet,
      Stylesheet.parse "" "a\x7bcontent:\"x" = .ok sheet ∧
      write (unmatched [] sheet.nodes) = "a\x7bcontent:\"x\x7d" ∧
      Stylesheet.parse "" (write (unmatched [] sheet.nodes)) = .ok again ∧
      write (unmatched [] again.nodes) = "a\x7bcontent:\"x\x7d\x7d" ∧
      write (unmatched [] again.nodes) ≠ write (unmatched [] sheet.nodes) := by
  have hchanged : (Stylesheet.parse "" "a\x7bcontent:\"x").toOption.any (fun sheet =>
      write (unmatched [] sheet.nodes) == "a\x7bcontent:\"x\x7d" &&
        (Stylesheet.parse "" (write (unmatched [] sheet.nodes))).toOption.any fun again =>
          write (unmatched [] again.nodes) == "a\x7bcontent:\"x\x7d\x7d") = true := by
    decide +kernel
  simp only [Option.any_eq_true, Bool.and_eq_true, beq_iff_eq] at hchanged
  obtain ⟨sheet, hparse, hwrite, again, hagain, hwrite'⟩ := hchanged
  refine ⟨sheet, again, eq_ok_of_toOption hparse, hwrite, eq_ok_of_toOption hagain, hwrite', ?_⟩
  rw [hwrite, hwrite']
  decide

end Sources

end MediaSplit.Node
