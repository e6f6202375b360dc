import MediaSplit.Proofs.Css.Copies
import MediaSplit.Proofs.Nodes
import MediaSplit.Splitter

/-!
The combined file as a style sheet. The blocks of several sources are written one after the other,
with line feeds between those of one source and those of the next. Where every block is sound, the
file is read as just these blocks again. A block that is not sound, such as one in which the end
of its source cut a string short, can swallow those behind it.
-/

namespace MediaSplit

open Css (Place Lexeme Token Rule)

namespace Node

/-- A media block that was read where another one was written: it has the same condition, the same
written form, and the same tokens but for comments between them. -/
inductive IsCopy : Node → Node → Prop
  | media {condition : String} {children children' : List Node} {source source' : Rule}
      (hsource : Rule.IsCopy source source')
      (hwrite : write [.media condition children' source'] =
        write [.media condition children source]) :
      IsCopy (.media condition children source) (.media condition children' source')

/-- Media blocks that are read back from their written form. -/
inductive IsIntact : Node → Prop
  | media {keyword : List Char} {prelude : List Token} {ends : Option (List Token)}
      (children : List Node) (hkeyword : isMediaKeyword keyword = true)
      (hread : (Rule.atRule keyword prelude ends).IsRead)
      (hsound : (Rule.atRule keyword prelude ends).isSound = true)
      (hinside : ∀ content ∈ ends, Accepted (Rule.ofTokens .nested content)) :
      IsIntact (.media (conditionOf prelude) children (.atRule keyword prelude ends))

/-- Texts that consist of blocks, with line feeds between them. -/
inductive Laid : List Node → List Char → Prop
  | nil : Laid [] []
  | line {blocks : List Node} {text : List Char} (h : Laid blocks text) :
      Laid blocks ('\n' :: text)
  | block {n : Node} {blocks : List Node} {text : List Char} (hn : n.IsIntact)
      (h : Laid blocks text) : Laid (n :: blocks) (n.source.text ++ text)

/-- The lexemes of such a text. -/
inductive Strung : List Node → List (Place × Lexeme) → Prop
  | nil : Strung [] []
  | blank {blocks : List Node} {ls : List (Place × Lexeme)} (p : Place) (text : List Char)
      (h : Strung blocks ls) : Strung blocks ((p, .atom (.whitespace text)) :: ls)
  | block {n : Node} {keyword : List Char} {prelude : List Token} {ends : Option (List Token)}
      {blocks : List Node} {taken ls : List (Place × Lexeme)} (hn : n.IsIntact)
      (hsource : n.source = .atRule keyword prelude ends)
      (htaken : taken.map Prod.snd =
        .atom (.atKeyword keyword) :: Css.settle (Rule.body prelude ends))
      (h : Strung blocks ls) : Strung (n :: blocks) (taken ++ ls)

/-- The rules that are cut out of such a text. -/
inductive Cut : List Node → List Rule → Prop
  | nil : Cut [] []
  | blank {blocks : List Node} {rules : List Rule} (text : List Char) (h : Cut blocks rules) :
      Cut blocks (.whitespace text :: rules)
  | block {n : Node} {r : Rule} {blocks : List Node} {rules : List Rule} (hn : n.IsIntact)
      (hr : Rule.IsCopy n.source r) (h : Cut blocks rules) : Cut (n :: blocks) (r :: rules)

section Laid

variable {blocks more : List Node} {text text' : List Char}

theorem Laid.append (h : Laid blocks text) (h' : Laid more text') :
    Laid (blocks ++ more) (text ++ text') := by
  induction h with
  | nil => exact h'
  | line _ ih => exact .line ih
  | block hn _ ih =>
      rw [List.append_assoc]
      exact .block hn ih

theorem Laid.isNormalized (h : Laid blocks text) : Css.IsNormalized text := by
  induction h with
  | nil => exact .nil
  | line _ ih => exact Css.IsNormalized.cons_iff.mpr ⟨by decide, ih⟩
  | block hn _ ih =>
      rw [Css.IsNormalized.append_iff]
      cases hn with
      | media children hkeyword hread hsound hinside =>
          exact ⟨hread.isNormalized_text hsound, ih⟩

/-- Blanks before such a text are one lexeme, if there are any. -/
private theorem Strung.lines (h : Strung blocks (Css.lexemes text))
    (htext : Css.startsWith Css.isSpace text = false) (k : Nat) :
    Strung blocks (Css.lexemes (List.replicate k '\n' ++ text)) := by
  cases k with
  | zero => exact h
  | succ k =>
      have hread := @Css.readsAs_whitespace text (List.replicate (k + 1) '\n') (by simp)
        (by simp [Css.isSpace]) htext
      obtain ⟨taken, hlexemes, htaken⟩ := (Css.Reads.cons hread (.nil text)).exists_lexemes
      obtain ⟨⟨p, l⟩, rest, rfl, rfl, hrest⟩ := List.map_eq_cons_iff.mp htaken
      obtain rfl := List.map_eq_nil_iff.mp hrest
      rw [hlexemes]
      exact .blank p _ h

/-- Reading a text of blocks behind any number of line feeds. -/
private theorem Laid.strung_lines (h : Laid blocks text) (k : Nat) :
    Strung blocks (Css.lexemes (List.replicate k '\n' ++ text)) := by
  induction h generalizing k with
  | nil => exact Strung.lines (by rw [Css.lexemes]; exact .nil) rfl k
  | @line blocks text _ ih =>
      have hlines : List.replicate k '\n' ++ '\n' :: text = List.replicate (k + 1) '\n' ++ text := by
        rw [List.replicate_succ', List.append_assoc, List.singleton_append]
      rw [hlines]
      exact ih (k + 1)
  | @block n blocks text hn _ ih =>
      obtain ⟨children, hkeyword, hread, hsound, hinside⟩ := hn
      obtain ⟨taken, hlexemes, htaken⟩ := (Rule.reads_text hread hsound text).exists_lexemes
      refine Strung.lines ?_ (Rule.startsWith_text _ _) k
      rw [hlexemes]
      exact .block (.media children hkeyword hread hsound hinside) rfl htaken (ih 0)

theorem Laid.strung (h : Laid blocks text) : Strung blocks (Css.lexemes text) :=
  h.strung_lines 0

end Laid

section Strung

variable {blocks : List Node} {ls : List (Place × Lexeme)} {rules : List Rule}

theorem Strung.sized (h : Strung blocks ls) : ∀ l ∈ ls, l.2.oversizedDigits? = none := by
  induction h with
  | nil => exact fun l hl => absurd hl List.not_mem_nil
  | blank p text _ ih => exact List.forall_mem_cons.mpr ⟨rfl, ih⟩
  | block hn hsource htaken _ ih =>
      refine List.forall_mem_append.mpr ⟨fun l hl => ?_, ih⟩
      have hmem := List.mem_map_of_mem (f := Prod.snd) hl
      obtain ⟨children, hkeyword, hread, hsound, hinside⟩ := hn
      obtain ⟨rfl, rfl, rfl⟩ := Rule.atRule.inj hsource
      have hsized := hread.sized
      rw [Rule.row_atRule, List.forall_mem_cons] at hsized
      rw [htaken, List.mem_cons] at hmem
      rcases hmem with heq | hmem
      · rw [heq]
        rfl
      · exact Css.oversizedDigits?_of_mem_settle hsized.2 _ hmem

/-- Nesting and cutting the lexemes of a text of blocks gives a copy of each block. -/
theorem Strung.cut (h : Strung blocks ls) (current : List Token) :
    ∃ ts, ls.foldl Token.Builder.step ⟨[], current⟩ = ⟨[], ts.reverse ++ current⟩ ∧
      Cut blocks (Rule.split .top none ts) := by
  induction h generalizing current with
  | nil => exact ⟨[], rfl, .nil⟩
  | blank p text _ ih =>
      obtain ⟨ts, hfold, hcut⟩ := ih (.atom p (.whitespace text) :: current)
      refine ⟨.atom p (.whitespace text) :: ts, ?_, .blank text hcut⟩
      rw [List.foldl_cons, List.reverse_cons, List.append_assoc]
      exact hfold
  | block hn hsource htaken _ ih =>
      obtain ⟨children, hkeyword, hread, hsound, hinside⟩ := hn
      obtain ⟨rfl, rfl, rfl⟩ := Rule.atRule.inj hsource
      obtain ⟨r, ts, hcopy, hfold, hsplit⟩ := Rule.exists_copy hread.proper htaken current
      obtain ⟨ts', hfold', hcut⟩ := ih (ts.reverse ++ current)
      refine ⟨ts ++ ts', ?_, ?_⟩
      · rw [List.foldl_append, hfold, hfold', List.reverse_append, List.append_assoc]
      · rw [hsplit]
        exact .block (.media children hkeyword hread hsound hinside) hcopy hcut

/-- A copy of an intact block becomes a copy of its node. -/
private theorem IsIntact.ofRules_cons {n : Node} {r : Rule} {nodes : List Node} (hn : n.IsIntact)
    (hr : Rule.IsCopy n.source r) (hrules : ofRules rules = .ok nodes) :
    ∃ n', IsCopy n n' ∧ ofRules (r :: rules) = .ok (n' :: nodes) := by
  cases hn with
  | @media keyword prelude ends children hkeyword hread hsound hinside =>
      obtain ⟨hstrings, hkept⟩ := hread.writable hsound
      have hwrite := congrArg String.ofList (Rule.text_of_isCopy hr hstrings hkept)
      cases hr with
      | @atRule _ _ prelude' _ ends' hprelude hends =>
          have hcondition := conditionOf_eq (Rule.write_prelude hprelude hstrings hkept)
          have hnested : ∀ content ∈ ends', ∃ children,
              ofRules (Rule.ofTokens .nested content) = .ok children := by
            intro content hcontent
            cases hends with
            | none => exact nomatch hcontent
            | some hcopy =>
                obtain rfl := Option.some.inj hcontent
                exact ((hinside _ rfl).areAlike
                  (Rule.areAlike_split hcopy.settled .none)).exists_nodes
          obtain ⟨children', hnodes⟩ := ofRules_media hkeyword hnested hrules
          rw [hcondition] at hnodes
          exact ⟨_, .media (.atRule hprelude hends) hwrite, hnodes⟩

/-- The rules of a text of blocks become copies of the blocks, and blanks. -/
theorem Cut.exists_nodes (h : Cut blocks rules) :
    ∃ nodes, ofRules rules = .ok nodes ∧
      List.Forall₂ IsCopy blocks (nodes.filter fun n => !n.isTrivia) := by
  induction h with
  | nil => exact ⟨[], by rw [ofRules], .nil⟩
  | blank text _ ih =>
      obtain ⟨nodes, hnodes, hcopies⟩ := ih
      refine ⟨.rule (.whitespace text) :: nodes, ?_, hcopies⟩
      rw [ofRules, hnodes]
      rfl
  | block hn hr _ ih =>
      obtain ⟨nodes, hnodes, hcopies⟩ := ih
      obtain ⟨n', hcopy, hcons⟩ := hn.ofRules_cons hr hnodes
      refine ⟨n' :: nodes, hcons, ?_⟩
      cases hcopy with
      | media hsource hwrite => exact .cons (.media hsource hwrite) hcopies

/-- A text of intact blocks is accepted and read as copies of the blocks. -/
theorem Laid.parse {text : String} (h : Laid blocks text.toList) (path : String) :
    ∃ nodes, Stylesheet.parse path text = .ok ⟨nodes, path⟩ ∧
      List.Forall₂ IsCopy blocks (nodes.filter fun n => !n.isTrivia) := by
  have hstrung := h.strung
  obtain ⟨ts, hfold, hcut⟩ := hstrung.cut []
  obtain ⟨nodes, hnodes, hcopies⟩ := hcut.exists_nodes
  have htokens : Token.ofLexemes (Css.lexemes text.toList) = ts := by
    rw [Token.ofLexemes, Token.Builder.empty, hfold]
    simp [Token.Builder.finish]
  refine ⟨nodes, Stylesheet.parse_eq_ok_iff.mpr ?_, hcopies⟩
  rw [Css.normalize_eq_self h.isNormalized, htokens]
  exact ⟨hstrung.sized, hnodes, rfl⟩

end Strung

section Sources

variable {path text : String} {sheet : Stylesheet} {widths : List String}

/-- A matching block of an accepted text is read back if it is sound. -/
theorem isIntact_of_parse (hparse : Stylesheet.parse path text = .ok sheet) {n : Node}
    (hn : n ∈ matching widths sheet.nodes) (hsound : n.source.isSound = true) : n.IsIntact := by
  obtain ⟨hmem, hmatching⟩ := List.mem_filter.mp hn
  obtain ⟨hsized, hnodes, -⟩ := Stylesheet.parse_eq_ok_iff.mp hparse
  obtain ⟨haccepted, hstands⟩ := accepted_of_ofRules hnodes
  obtain ⟨r, hr, hstand⟩ := exists_of_mem_right hstands hmem
  have hread := Rule.isRead_of_mem (Css.isNormalized_normalize text.toList) hsized hr
  cases hstand with
  | rule _ => exact nomatch hmatching
  | media prelude ends children hmedia =>
      refine .media children hmedia hread hsound ?_
      rintro content rfl
      exact haccepted.inside hr hmedia

theorem laid_write {blocks : List Node} (h : ∀ n ∈ blocks, n.IsIntact) :
    Laid blocks (write blocks).toList := by
  rw [write_eq_ofList, String.toList_ofList]
  induction blocks with
  | nil => exact .nil
  | cons n blocks ih =>
      rw [List.forall_mem_cons] at h
      rw [List.flatMap_cons]
      exact .block h.1 (ih h.2)

/-- Rows of intact blocks, written one after the other with a line feed between them. -/
theorem laid_intercalate {rows : List (List Node)} (h : ∀ blocks ∈ rows, ∀ n ∈ blocks, n.IsIntact) :
    Laid rows.flatten ("\n".intercalate (rows.map write)).toList := by
  rw [String.toList_intercalate]
  induction rows with
  | nil => exact .nil
  | cons blocks rows ih =>
      rw [List.forall_mem_cons] at h
      have hblocks := laid_write h.1
      cases rows with
      | nil => simpa using hblocks
      | cons next rest =>
          have hjoin : "\n".toList.intercalate
              (((blocks :: next :: rest).map write).map String.toList) =
                (write blocks).toList ++ '\n' ::
                  "\n".toList.intercalate (((next :: rest).map write).map String.toList) := by
            simp [List.intercalate_cons_cons]
          rw [hjoin, List.flatten_cons]
          exact hblocks.append (.line (ih h.2))

theorem countRules_matching (nodes : List Node) :
    countRules (matching widths nodes) = (matching widths nodes).length := by
  refine List.countP_eq_length.mpr fun n hn => ?_
  have hmatching := (List.mem_filter.mp hn).2
  cases n with
  | rule source => exact nomatch hmatching
  | media condition children source => rfl

end Sources

end Node

namespace Splitter

open Node

private theorem total_eq (dest : String) (pieces : Table String Piece) :
    Combined.total ⟨dest, pieces.map fun piece => (piece.1, (piece.2.ruleCount : Int))⟩ =
      ((pieces.map fun piece => piece.2.ruleCount).sum : Nat) := by
  induction pieces with
  | nil => rfl
  | cons piece pieces ih =>
      have hcons : Combined.total ⟨dest, (piece :: pieces).map fun piece =>
          (piece.1, (piece.2.ruleCount : Int))⟩ = piece.2.ruleCount +
            Combined.total ⟨dest, pieces.map fun piece => (piece.1, (piece.2.ruleCount : Int))⟩ := rfl
      rw [hcons, ih, List.map_cons, List.sum_cons, Nat.cast_add]

/-- Where the matching blocks of all sources are sound, the combined file is accepted, and its
nodes are the blocks of the sources, in order, and blanks. So the total of a run is the number of
rules in the file that it writes. -/
theorem blocks_of_combined (s : Splitter) {texts : List String}
    {sources : List (String × Stylesheet)}
    (hparse : List.Forall₂ (fun text source => Stylesheet.parse source.1 text = .ok source.2)
      texts sources)
    (hsound : ∀ source ∈ sources,
      ∀ n ∈ matching s.configuration.widths.tokens source.2.nodes, n.source.isSound = true) :
    let pieces := sources.map fun source => (source.1, s.pieceOf .extract source.2)
    ∃ combined, Stylesheet.parse s.configuration.dest (combinedText pieces) = .ok combined ∧
      List.Forall₂ IsCopy
        (sources.flatMap fun source => matching s.configuration.widths.tokens source.2.nodes)
        (combined.nodes.filter fun n => !n.isTrivia) ∧
      Combined.total ⟨s.configuration.dest, pieces.map fun piece =>
        (piece.1, (piece.2.ruleCount : Int))⟩ = combined.ruleCount := by
  intro pieces
  have hintact : ∀ blocks ∈ sources.map fun source =>
      matching s.configuration.widths.tokens source.2.nodes, ∀ n ∈ blocks, n.IsIntact := by
    intro blocks hblocks n hn
    obtain ⟨source, hsource, rfl⟩ := List.mem_map.mp hblocks
    obtain ⟨text, -, htext⟩ := exists_of_mem_right hparse hsource
    exact isIntact_of_parse htext hn (hsound source hsource n hn)
  have hlaid := laid_intercalate hintact
  have htext : combinedText pieces = "\n".intercalate ((sources.map fun source =>
      matching s.configuration.widths.tokens source.2.nodes).map write) := by
    simp [pieces, combinedText, pieceOf, nodesFor, Function.comp_def]
  obtain ⟨nodes, hnodes, hcopies⟩ := hlaid.parse s.configuration.dest
  rw [← htext] at hnodes
  refine ⟨_, hnodes, hcopies, ?_⟩
  have hcount : Stylesheet.ruleCount ⟨nodes, s.configuration.dest⟩ =
      (nodes.filter fun n => !n.isTrivia).length := List.countP_eq_length_filter
  have hcounts : pieces.map (fun piece => piece.2.ruleCount) = (sources.map fun source =>
      matching s.configuration.widths.tokens source.2.nodes).map List.length := by
    simp only [pieces, List.map_map, Function.comp_def, pieceOf, nodesFor, countRules_matching]
  rw [total_eq, hcount, ← hcopies.length_eq, List.length_flatten, hcounts]

def forWidth (width : String) : Splitter where
  configuration :=
    { files := [], dest := "out.css", widths := WidthSet.ofList [width], extract := WidthSet.empty
      inPlace := false, strippedSuffix := "x", encoding := "utf-8" }
  listener _ := none
  workers := none
  schedule _ := []

/-- The first source leaves its blocks open, and the second has a string and a rule of its own. -/
theorem blocks_of_combined_two :
    ∃ first second combined : Stylesheet,
      Stylesheet.parse "a.css" "@media (width:8px)\x7ba\x7b/*x" = .ok first ∧
      Stylesheet.parse "b.css" "p\x7b\x7d@media (width:8px)\x7bb\x7bcontent:'x'\x7d\x7d" = .ok second ∧
      Stylesheet.parse "out.css" (combinedText ([("a.css", first), ("b.css", second)].map
        fun source => (source.1, (forWidth "8").pieceOf .extract source.2))) = .ok combined ∧
      (combined.nodes.filter fun n => !n.isTrivia).length = 2 := by
  have hsound : (Stylesheet.parse "a.css" "@media (width:8px)\x7ba\x7b/*x").toOption.any
      (fun first => (Stylesheet.parse "b.css" "p\x7b\x7d@media (width:8px)\x7bb\x7bcontent:'x'\x7d\x7d").toOption.any
        fun second => (matching ["8"] first.nodes).all (fun n => n.source.isSound) &&
          (matching ["8"] second.nodes).all (fun n => n.source.isSound) &&
          (matching ["8"] first.nodes ++ matching ["8"] second.nodes).length == 2) = true := by
    decide +kernel
  simp only [Option.any_eq_true, Bool.and_eq_true, List.all_eq_true, beq_iff_eq] at hsound
  obtain ⟨first, hfirst, second, hsecond, hsound, hlength⟩ := hsound
  have htokens : (forWidth "8").configuration.widths.tokens = ["8"] := by decide +kernel
  have hparse : List.Forall₂ (fun text source => Stylesheet.parse source.1 text = .ok source.2) _
      [("a.css", first), ("b.css", second)] :=
    .cons (eq_ok_of_toOption hfirst) (.cons (eq_ok_of_toOption hsecond) .nil)
  obtain ⟨combined, hcombined, hcopies, -⟩ := blocks_of_combined (forWidth "8") hparse (by
    rw [htokens, List.forall_mem_cons, List.forall_mem_singleton]
    exact hsound)
  refine ⟨first, second, combined, eq_ok_of_toOption hfirst, eq_ok_of_toOption hsecond,
    hcombined, ?_⟩
  rw [htokens] at hcopies
  rw [← hcopies.length_eq, List.flatMap_cons, List.flatMap_singleton]
  exact hlength

/-- The end of its source cuts a string short, and the string goes on into the next block. -/
theorem blocks_lost_behind_open_string :
    ∃ first second combined : Stylesheet,
      Stylesheet.parse "a.css" "@media (width:8px)\x7ba\x7bcontent:\"x" = .ok first ∧
      Stylesheet.parse "b.css" "@media (width:8px){b{}}" = .ok second ∧
      Stylesheet.parse "out.css" ("\n".intercalate
        [write (matching ["8"] first.nodes), write (matching ["8"] second.nodes)]) =
          .ok combined ∧
      countRules (matching ["8"] first.nodes) + countRules (matching ["8"] second.nodes) = 2 ∧
      combined.ruleCount = 1 := by
  have hlost : (Stylesheet.parse "a.css" "@media (width:8px)\x7ba\x7bcontent:\"x").toOption.any
      (fun first => (Stylesheet.parse "b.css" "@media (width:8px){b{}}").toOption.any
        fun second => (Stylesheet.parse "out.css" ("\n".intercalate
          [write (matching ["8"] first.nodes), write (matching ["8"] second.nodes)])).toOption.any
            fun combined => countRules (matching ["8"] first.nodes) +
              countRules (matching ["8"] second.nodes) == 2 && combined.ruleCount == 1) = true := by
    decide +kernel
  simp only [Option.any_eq_true, Bool.and_eq_true, beq_iff_eq] at hlost
  obtain ⟨first, hfirst, second, hsecond, combined, hcombined, htotal, hcount⟩ := hlost
  exact ⟨first, second, combined, eq_ok_of_toOption hfirst, eq_ok_of_toOption hsecond,
    eq_ok_of_toOption hcombined, htotal, hcount⟩

end Splitter

end MediaSplit
