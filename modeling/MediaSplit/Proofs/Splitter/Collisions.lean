import MediaSplit.Encoding.HostNames
import MediaSplit.Proofs.Files.Spelling
import MediaSplit.Proofs.Resolving
import MediaSplit.Proofs.Splitter.Stripping

/-!
Whether outputs collide. Nothing compares them with each other, so it is for the suffix to keep them
apart: the names of the sources do not have it and the names of the copies do. What is left is a
source that is another one with the extension added, and a combined file that is named like a copy;
where neither is the case every source has its own copy after a run.
-/

namespace MediaSplit

open FileTree

/-- The path that a text is read under is only noted down. -/
theorem Stylesheet.nodes_of_parse {path other text : String} {sheet sheet' : Stylesheet}
    (h : parse path text = .ok sheet) (h' : parse other text = .ok sheet') :
    sheet.nodes = sheet'.nodes := by
  simp only [parse] at h h'
  cases htokens : tokensOf (Css.normalize text.toList) with
  | error digits =>
      rw [htokens] at h
      cases h
  | ok tokens =>
      rw [htokens] at h h'
      simp only at h h'
      cases hnodes : Node.ofRules (Css.Rule.ofTokens .top tokens) with
      | error place =>
          rw [hnodes] at h
          cases h
      | ok nodes =>
          rw [hnodes] at h h'
          obtain rfl := Except.ok.inj h
          obtain rfl := Except.ok.inj h'
          rfl

/-- The nodes of a style sheet depend on the place of its file only, not on how the path is
spelled. -/
theorem Cache.nodes_of_placeOf [Codecs] {t : FileTree} {encoding path other : String}
    {sheet sheet' : Stylesheet} (hplace : t.placeOf path = t.placeOf other)
    (h : load t encoding path = .ok sheet) (h' : load t encoding other = .ok sheet') :
    sheet.nodes = sheet'.nodes := by
  obtain ⟨bytes, e, chars, hread, hencoding, hdecode, hparse⟩ := load_eq_ok h
  obtain ⟨bytes', e', chars', hread', hencoding', hdecode', hparse'⟩ := load_eq_ok h'
  obtain rfl := content_eq_of_placeOf_eq hplace hread hread'
  rw [hencoding] at hencoding'
  obtain rfl := Except.ok.inj hencoding'
  rw [hdecode] at hdecode'
  obtain rfl := Except.ok.inj hdecode'
  exact Stylesheet.nodes_of_parse hparse hparse'

namespace Splitter

open Act

variable {s : Splitter}

/-- A run that gives a report has gone through both phases. -/
theorem phases_of_report [Codecs] {w w' : World} {report : Report}
    (h : s.run.perform w = (.ok report, w')) :
    ∃ w₁ w₂ w₃, w₁.tree = w.tree ∧ w₁.cache = w.cache ∧
      s.extractMedia.perform w₁ = (.ok report.combined, w₂) ∧
      s.writeStripped.perform w₂ = (.ok report.stripped, w₃) ∧ w'.tree = w₃.tree := by
  unfold run at h
  rw [perform_bind] at h
  obtain ⟨w₁, htree, hcache, hstarted⟩ := s.announce_cases
    (.runStarted s.configuration.files s.configuration.dest) w
  rcases hstarted with hstarted | ⟨fault, -, hstarted⟩
  · rw [hstarted] at h
    simp only [perform_bind] at h
    cases hextract : s.extractMedia.perform w₁ with
    | mk combined w₂ =>
        cases combined with
        | error stop =>
            rw [hextract] at h
            cases h
        | ok combined =>
            rw [hextract] at h
            simp only at h
            cases hstrip : s.writeStripped.perform w₂ with
            | mk stripped w₃ =>
                cases stripped with
                | error stop =>
                    rw [hstrip] at h
                    cases h
                | ok stripped =>
                    rw [hstrip] at h
                    simp only at h
                    obtain ⟨w₄, htree', -, hcompleted⟩ := s.announce_cases
                      (.runCompleted ⟨combined, stripped⟩) w₃
                    rcases hcompleted with hcompleted | ⟨fault, -, hcompleted⟩
                    · rw [hcompleted] at h
                      obtain ⟨hreport, rfl⟩ := Prod.mk.inj h
                      obtain rfl := Except.ok.inj hreport
                      exact ⟨w₁, w₂, w₃, htree, hcache, hextract, hstrip, htree'⟩
                    · rw [hcompleted] at h
                      cases h
  · rw [hstarted] at h
    cases h

/-- A second phase that went through has run all its jobs and had no failures. -/
theorem exists_round_of_writeStripped [Codecs] {w w' : World} {stripped : List StrippedFile}
    (h : s.writeStripped.perform w = (.ok stripped, w')) :
    ∃ w₁, w₁.tree = w.tree ∧ w₁.cache = w.cache ∧ w'.tree = (Round.run s .strip w₁).world.tree ∧
      (Round.run s .strip w₁).interruption = none ∧
      (Round.run s .strip w₁).failures s.configuration.files = [] := by
  unfold writeStripped at h
  rw [perform_bind] at h
  obtain ⟨w₁, htree, hcache, hstarted⟩ := s.announce_cases (.phaseStarted .strip) w
  rcases hstarted with hstarted | ⟨fault, -, hstarted⟩
  · rw [hstarted] at h
    simp only [perform_bind] at h
    have hfanOut := s.fanOut_cases .strip w₁
    generalize (s.fanOut .strip).perform w₁ = fanned at hfanOut h
    cases hfanOut with
    | unstaffed => cases h
    | interrupted refused => cases h
    | failed tree cache reason => cases h
    | done going succeeded =>
        simp only at h
        obtain ⟨w₂, htree', -, hcompleted⟩ := s.announce_cases (.phaseCompleted .strip)
          (Round.run s .strip w₁).world
        rcases hcompleted with hcompleted | ⟨fault, -, hcompleted⟩
        · rw [hcompleted] at h
          obtain ⟨-, rfl⟩ := Prod.mk.inj h
          exact ⟨w₁, htree, hcache, htree', going, succeeded⟩
        · rw [hcompleted] at h
          cases h
  · rw [hstarted] at h
    cases h

/-- After a second phase that went through, the job of every source has ended well. -/
theorem ends_of_writeStripped [Codecs] {w w' : World} {stripped : List StrippedFile}
    (hworking : w.tree.entry? w.tree.workingDirectory = some .directory)
    (hsteady : ∀ path ∈ s.configuration.files, w.cache.get? path = none → s.IsSteady w.tree path)
    (h : s.writeStripped.perform w = (.ok stripped, w')) :
    (∀ path ∈ s.configuration.files, ∃ piece, s.Ends w.tree w.cache w'.tree path (.ok piece)) ∧
      Touched (s.configuration.files.map s.outputPath) w.tree w'.tree := by
  obtain ⟨w₁, htree, hcache, htree', going, succeeded⟩ := exists_round_of_writeStripped h
  have hholds : (s.stripping w.tree w.cache).Holds s (Round.run s .strip w₁) := by
    refine Round.Invariant.holds_run (stripping_isKept hworking hsteady) ⟨?_, ?_, ?_, ?_⟩
      fun _ _ => trivial
    · rw [hcache]
    · exact fun path parsed hget => hcache ▸ hget
    · exact fun path parsed hget => Cache.known_of_some (hcache ▸ hget) w.tree
    · rw [htree]
      exact .refl _ _
  rw [htree']
  constructor
  · intro path hpath
    obtain ⟨piece, hpiece⟩ := Option.isSome_iff_exists.mp
      (results_isSome hholds going succeeded path hpath)
    exact ⟨piece, (hholds.results path piece hpiece).2⟩
  · exact hholds.shared.2.2.2.mono (List.map_subset _ List.filter_sublist.subset)

/-- That the combined file is named like a stripped copy: the name that it has after all has the
end of the suffix and the extension in it. -/
def NamedLikeCopy (t : FileTree) (c : Configuration) : Prop :=
  ∃ name, (t.placeOf c.dest).getLast? = some name ∧
    Path.nameOf c.strippedSuffix.toList ++ cssExtension <:+: name.toList

/-- Sources with one place for their copies have the same text to write there, as long as they do
not differ by the extension only. -/
private theorem strippedText_eq_of_placeOf_eq [Codecs] {s : Splitter} {t : FileTree}
    {sheetOf : String → Stylesheet} (hresolved : s.configuration.IsResolved t)
    (hcopies : s.configuration.inPlace = false)
    (hhead : s.configuration.strippedSuffix.toList.head? ≠ some '/')
    (hextended : ∀ path ∈ s.configuration.files, ∀ other ∈ s.configuration.files,
      ¬ t.IsExtended path other)
    (hsource : ∀ path ∈ s.configuration.files,
      Cache.load t s.configuration.encoding path = .ok (sheetOf path)) {path other : String}
    (hpath : path ∈ s.configuration.files) (hother : other ∈ s.configuration.files)
    (hplace : t.placeOf (s.outputPath other) = t.placeOf (s.outputPath path)) :
    s.strippedText (sheetOf other) = s.strippedText (sheetOf path) := by
  simp only [outputPath, hcopies, Bool.false_eq_true, if_false] at hplace
  have hsame : t.placeOf other = t.placeOf path := by
    rcases sources_of_copies t hresolved.dotless hhead (hresolved.notCopy other hother)
      (hresolved.notCopy path hpath) hplace with hsame | hadded | hadded
    · exact hsame
    · exact absurd hadded (hextended other hother path hpath)
    · exact absurd hadded (hextended path hpath other hother)
  have hnodes := Cache.nodes_of_placeOf hsame (hsource other hother) (hsource path hpath)
  simp only [strippedText, pieceOf, nodesFor, hnodes]

/-- After a run that gave a report, with sources that do not differ by the extension only, every copy
is there, and so is the combined file unless a copy has taken its place. -/
theorem outputs_of_report [Codecs] {s : Splitter} {t : FileTree} {report : Report} {w : World}
    (hresolved : s.configuration.IsResolved t) (hcopies : s.configuration.inPlace = false)
    (hhead : s.configuration.strippedSuffix.toList.head? ≠ some '/')
    (hworking : t.entry? t.workingDirectory = some .directory)
    (hextended : ∀ path ∈ s.configuration.files, ∀ other ∈ s.configuration.files,
      ¬ t.IsExtended path other)
    (hrun : s.run.perform (World.fresh t s.configuration.encoding) = (.ok report, w)) :
    ∃ sheetOf bytes content,
      (∀ path ∈ s.configuration.files,
        Cache.load t s.configuration.encoding path = .ok (sheetOf path)) ∧
      (TextFile.written s.configuration.encoding (s.combinedOf sheetOf) = .ok bytes ∧
        w.tree.read s.configuration.dest = .ok content ∧
        ((∀ path ∈ s.configuration.files,
            t.placeOf (s.outputPath path) ≠ t.placeOf s.configuration.dest) → content = bytes)) ∧
      ∀ path ∈ s.configuration.files, TextFile.Holds w.tree s.configuration.encoding
        (s.outputPath path) (s.copyOf sheetOf path) := by
  obtain ⟨w₁, w₂, w₃, htree, hcache, hextract, hstrip, htree'⟩ := phases_of_report hrun
  have hextracted := s.extractMedia_cases htree hcache
  rw [hextract] at hextracted
  cases hextracted with
  | @written _ _ sheetOf knows succeeded outcome =>
      have hsource : ∀ path ∈ s.configuration.files,
          Cache.load t s.configuration.encoding path = .ok (sheetOf path) :=
        fun path hpath => knows.load rfl hpath
      have hknown : ∀ path ∈ s.configuration.files,
          w₂.cache.known w₂.tree path = .ok (sheetOf path) := by
        intro path hpath
        obtain ⟨serial, hget⟩ := knows.cached path hpath
        exact Cache.known_of_some hget _
      have hsteady : ∀ path ∈ s.configuration.files, w₂.cache.get? path = none →
          s.IsSteady w₂.tree path := by
        intro path hpath hnone
        obtain ⟨serial, hget⟩ := knows.cached path hpath
        rw [hget] at hnone
        cases hnone
      have hchanges := changes_write t s.configuration.encoding s.configuration.dest
        (s.combinedOf sheetOf)
      have hdestOutcome := TextFile.write_outcome t s.configuration.encoding s.configuration.dest
        (s.combinedOf sheetOf)
      change TextFile.write t _ _ _ = _ at succeeded
      rw [succeeded] at hchanges hdestOutcome
      have hworking₂ : w₂.tree.entry? w₂.tree.workingDirectory = some .directory := by
        rw [hchanges.workingDirectory]
        exact hchanges.directoryStays _ hworking
      obtain ⟨hends, htouched⟩ := ends_of_writeStripped hworking₂ hsteady hstrip
      cases hdestOutcome with
      | written named opens changes full =>
          obtain ⟨bytes, hwritten, hread, -⟩ := full
          obtain ⟨content, hread'⟩ := htouched.changes.readable hread
          refine ⟨sheetOf, bytes, content, hsource, ⟨hwritten, ?_, ?_⟩, ?_⟩
          · rw [htree']
            exact hread'
          · intro hapart
            have hkept := htouched.changes.read hread fun hmem => by
              obtain ⟨output, houtput', hplace⟩ := List.mem_map.mp hmem
              obtain ⟨path, hpath, rfl⟩ := List.mem_map.mp houtput'
              rw [hchanges.placeOf, hchanges.placeOf] at hplace
              exact hapart path hpath hplace
            rw [hread'] at hkept
            exact Except.ok.inj hkept
          · intro path hpath
            obtain ⟨piece, sheet, hsheet, rfl, -, hholds⟩ := hends path hpath
            rw [hknown path hpath] at hsheet
            obtain rfl := Except.ok.inj hsheet
            rw [htree']
            refine hholds fun other hother hplace sheet sheet' hsheet hsheet' => ?_
            rw [hchanges.placeOf, hchanges.placeOf] at hplace
            rw [hknown path hpath] at hsheet
            rw [hknown other hother] at hsheet'
            obtain rfl := Except.ok.inj hsheet
            obtain rfl := Except.ok.inj hsheet'
            exact strippedText_eq_of_placeOf_eq hresolved hcopies hhead hextended hsource hpath
              hother hplace

/-- After a run that gave a report, with sources that do not differ by the extension only and a
combined file that is not named like a copy, everything that was to be written is there. -/
theorem copied_of_report [Codecs] {s : Splitter} {t : FileTree} {report : Report} {w : World}
    (hresolved : s.configuration.IsResolved t) (hcopies : s.configuration.inPlace = false)
    (hhead : s.configuration.strippedSuffix.toList.head? ≠ some '/')
    (hworking : t.entry? t.workingDirectory = some .directory)
    (hextended : ∀ path ∈ s.configuration.files, ∀ other ∈ s.configuration.files,
      ¬ t.IsExtended path other)
    (hdest : ¬ NamedLikeCopy t s.configuration)
    (hrun : s.run.perform (World.fresh t s.configuration.encoding) = (.ok report, w)) :
    ∃ sheetOf, (∀ path ∈ s.configuration.files,
        Cache.load t s.configuration.encoding path = .ok (sheetOf path)) ∧
      TextFile.Holds w.tree s.configuration.encoding s.configuration.dest
        (s.combinedOf sheetOf) ∧
      ∀ path ∈ s.configuration.files, TextFile.Holds w.tree s.configuration.encoding
        (strippedPath path s.configuration.strippedSuffix) (s.copyOf sheetOf path) := by
  have houtput : ∀ path, s.outputPath path =
      strippedPath path s.configuration.strippedSuffix := by
    intro path
    simp [outputPath, hcopies]
  obtain ⟨sheetOf, bytes, content, hsource, ⟨hwritten, hread, hkept⟩, hcopied⟩ :=
    outputs_of_report hresolved hcopies hhead hworking hextended hrun
  simp only [houtput] at hcopied hkept
  refine ⟨sheetOf, hsource, TextFile.holds_of_read hwritten ?_, hcopied⟩
  rw [hread, hkept]
  intro path _ hplace
  apply hdest
  unfold NamedLikeCopy
  rw [← hplace]
  exact getLast?_placeOf_strippedPath t path hresolved.dotless hhead

/-- Of the outputs of a configuration that options give, two have one place only when one source is
the other with the extension added, and one has the place of the combined file only when that is
named like a copy. Where neither is the case, everything is there after a run that gave a
report. -/
theorem copies_apart_of_resolve [Codecs] (t : FileTree) (options : Value) (c : Configuration)
    (hresolve : Configuration.resolve t options = .ok c) (hcopies : c.inPlace = false)
    (hhead : c.strippedSuffix.toList.head? ≠ some '/') :
    (∀ path ∈ c.files, ∀ other ∈ c.files, Selection.samePath t path other = false →
      Selection.samePath t (strippedPath path c.strippedSuffix)
          (strippedPath other c.strippedSuffix) = true →
      t.IsExtended path other ∨ t.IsExtended other path) ∧
    (∀ path ∈ c.files, Selection.samePath t (strippedPath path c.strippedSuffix) c.dest = true →
      NamedLikeCopy t c) ∧
    (t.entry? t.workingDirectory = some .directory →
      (∀ path ∈ c.files, ∀ other ∈ c.files, ¬ t.IsExtended path other) → ¬ NamedLikeCopy t c →
      ∀ listener workers schedule report w,
        (Splitter.mk c listener workers schedule).run.perform (World.fresh t c.encoding) =
          (.ok report, w) →
        ∃ sheetOf : String → Stylesheet,
          (∀ path ∈ c.files, Cache.load t c.encoding path = .ok (sheetOf path)) ∧
          TextFile.Holds w.tree c.encoding c.dest ("\n".intercalate (c.files.eraseDups.map
            fun path => Node.write (Node.matching c.widths.tokens (sheetOf path).nodes))) ∧
          ∀ path ∈ c.files, TextFile.Holds w.tree c.encoding
            (strippedPath path c.strippedSuffix)
            (Node.write (Node.stripped c.widths.tokens c.extract.tokens (sheetOf path).nodes))) := by
  have hresolved := Configuration.isResolved_of_resolve hresolve
  refine ⟨?_, ?_, ?_⟩
  · intro path hpath other hother hdifferent hsame
    rw [samePath_iff, slashes_strippedPath, slashes_strippedPath] at hsame
    obtain ⟨hplace, hslashes⟩ := hsame
    rcases sources_of_copies t hresolved.dotless hhead (hresolved.notCopy path hpath)
      (hresolved.notCopy other hother) hplace with hsource | hadded
    · have hsame := (samePath_iff t path other).mpr ⟨hsource, hslashes⟩
      rw [hsame] at hdifferent
      cases hdifferent
    · exact hadded
  · intro path hpath hsame
    obtain ⟨hplace, -⟩ := (samePath_iff t _ _).mp hsame
    unfold NamedLikeCopy
    rw [← hplace]
    exact getLast?_placeOf_strippedPath t path hresolved.dotless hhead
  · intro hworking hextended hdest listener workers schedule report w hrun
    let s : Splitter := ⟨c, listener, workers, schedule⟩
    obtain ⟨sheetOf, hsource, hcombined, hcopied⟩ :=
      @copied_of_report _ s t report w hresolved hcopies hhead hworking hextended hdest hrun
    refine ⟨sheetOf, hsource, ?_, hcopied⟩
    have hpieces : s.combinedOf sheetOf = "\n".intercalate (c.files.eraseDups.map
        fun path => Node.write (Node.matching c.widths.tokens (sheetOf path).nodes)) := by
      simp [combinedOf, combinedText, Function.comp_def, pieceOf, nodesFor, s]
    rwa [← hpieces]

def optionsFor (files : List String) (dest suffix : String) : Value :=
  .map [(.text "files", .list (files.map .text)), (.text "dest", .text dest),
    (.text "widths", .text "8"), (.text "stripped_suffix", .text suffix)]

def treeOf (files : List Location) : FileTree :=
  files.foldl (fun t place => t.put place (.file "a\x7b\x7d".toUTF8.toList)) ⟨[], []⟩

def splitterFor (c : Configuration) : Splitter :=
  ⟨c, fun _ => none, none, fun _ => [0, 1, 2]⟩

theorem copies_apart_of_resolve_spelled :
    let t := treeOf [["a.css"], ["b"]]
    ∃ c, Configuration.resolve t (optionsFor ["a.css", "./a.css", "b"] "out.css" "x") = .ok c ∧
      c.files = ["a.css", "./a.css", "b"] ∧
      Selection.samePath t (strippedPath "a.css" c.strippedSuffix)
        (strippedPath "b" c.strippedSuffix) = false ∧
      Selection.samePath t (strippedPath "b" c.strippedSuffix) c.dest = false ∧
      ∃ report w, ∃ sheetOf : String → Stylesheet,
        (splitterFor c).run.perform (World.fresh t c.encoding) = (.ok report, w) ∧
        ∀ path ∈ c.files, TextFile.Holds w.tree c.encoding (strippedPath path c.strippedSuffix)
          (Node.write (Node.stripped c.widths.tokens c.extract.tokens (sheetOf path).nodes)) := by
  intro t
  obtain ⟨c, hc, hvalues⟩ := @exists_of_toOption_map _ _ _
    (Configuration.resolve t (optionsFor ["a.css", "./a.css", "b"] "out.css" "x"))
    (fun c => (c.files, c.inPlace, c.strippedSuffix, c.dest,
      ((splitterFor c).run.perform (World.fresh t c.encoding)).1.isOk))
    (["a.css", "./a.css", "b"], false, "x", "out.css", true) (by decide +kernel)
  simp only [Prod.mk.injEq] at hvalues
  obtain ⟨hfiles, hcopies, hsuffix, hdest, hok⟩ := hvalues
  have hnotExtended : ∀ path ∈ c.files, ∀ other ∈ c.files, ¬ t.IsExtended path other := by
    rw [hfiles]
    decide
  have hnotNamed : ¬ NamedLikeCopy t c := by
    rintro ⟨name, hname, hinfix⟩
    rw [hdest] at hname
    obtain rfl : "out.css" = name := Option.some.inj hname
    rw [hsuffix] at hinfix
    revert hinfix
    decide +kernel
  obtain ⟨hapart, hcombined, hwritten⟩ := copies_apart_of_resolve t _ c hc hcopies
    (by rw [hsuffix]; decide)
  refine ⟨c, hc, hfiles, ?_, ?_, ?_⟩
  · rw [← Bool.not_eq_true]
    intro hsame
    have hextended := hapart "a.css" (by simp [hfiles]) "b" (by simp [hfiles]) (by decide) hsame
    revert hextended
    decide
  · rw [← Bool.not_eq_true]
    intro hsame
    exact hnotNamed (hcombined "b" (by simp [hfiles]) hsame)
  · cases hrun : (splitterFor c).run.perform (World.fresh t c.encoding) with
    | mk result w =>
        rw [hrun] at hok
        cases result with
        | error stop => cases hok
        | ok report =>
            obtain ⟨sheetOf, -, -, hholds⟩ :=
              hwritten (by decide) hnotExtended hnotNamed _ _ _ report w hrun
            exact ⟨report, w, sheetOf, rfl, hholds⟩

/-- Outputs can collide: those of a source and the same with the extension added, that of a source
and a combined file that is named like it, and those of sources in different directories where the
suffix has a slash. -/
theorem not_apart_by_names :
    (¬ ∀ t options c, Configuration.resolve t options = .ok c → c.inPlace = false →
      ∀ path ∈ c.files, ∀ other ∈ c.files, Selection.samePath t path other = false →
        Selection.samePath t (strippedPath path c.strippedSuffix)
          (strippedPath other c.strippedSuffix) = false) ∧
    (¬ ∀ t options c, Configuration.resolve t options = .ok c → c.inPlace = false →
      ∀ path ∈ c.files, Selection.samePath t (strippedPath path c.strippedSuffix) c.dest = false) ∧
    ¬ ∀ t options c, Configuration.resolve t options = .ok c → c.inPlace = false →
      ∀ path ∈ c.files, ∀ other ∈ c.files, Selection.samePath t path other = false →
        ¬ t.IsExtended path other → ¬ t.IsExtended other path →
        Selection.samePath t (strippedPath path c.strippedSuffix)
          (strippedPath other c.strippedSuffix) = false := by
  refine ⟨fun h => ?_, fun h => ?_, fun h => ?_⟩
  · obtain ⟨c, hc, hvalues⟩ := @exists_of_toOption_map _ _ _
      (Configuration.resolve (treeOf [["a"], ["a.css"]]) (optionsFor ["a", "a.css"] "out.css" "x"))
      (fun c => (c.files, c.inPlace, c.strippedSuffix)) (["a", "a.css"], false, "x")
      (by decide +kernel)
    simp only [Prod.mk.injEq] at hvalues
    obtain ⟨hfiles, hcopies, hsuffix⟩ := hvalues
    have hdifferent := h _ _ c hc hcopies "a" (by simp [hfiles]) "a.css" (by simp [hfiles]) (by decide)
    rw [hsuffix] at hdifferent
    revert hdifferent
    decide
  · obtain ⟨c, hc, hvalues⟩ := @exists_of_toOption_map _ _ _
      (Configuration.resolve (treeOf [["a.css"]]) (optionsFor ["a.css"] "a.x.css" "x"))
      (fun c => (c.files, c.inPlace, c.strippedSuffix, c.dest)) (["a.css"], false, "x", "a.x.css")
      (by decide +kernel)
    simp only [Prod.mk.injEq] at hvalues
    obtain ⟨hfiles, hcopies, hsuffix, hdest⟩ := hvalues
    have hdifferent := h _ _ c hc hcopies "a.css" (by simp [hfiles])
    rw [hsuffix, hdest] at hdifferent
    revert hdifferent
    decide
  · obtain ⟨c, hc, hvalues⟩ := @exists_of_toOption_map _ _ _
      (Configuration.resolve (treeOf [[".css"], ["d", "..css"]])
        (optionsFor [".css", "d/..css"] "out.css" "/x"))
      (fun c => (c.files, c.inPlace, c.strippedSuffix)) ([".css", "d/..css"], false, "/x")
      (by decide +kernel)
    simp only [Prod.mk.injEq] at hvalues
    obtain ⟨hfiles, hcopies, hsuffix⟩ := hvalues
    have hdifferent := h _ _ c hc hcopies ".css" (by simp [hfiles]) "d/..css" (by simp [hfiles])
      (by decide) (by decide) (by decide)
    rw [hsuffix] at hdifferent
    revert hdifferent
    decide

end Splitter

end MediaSplit
