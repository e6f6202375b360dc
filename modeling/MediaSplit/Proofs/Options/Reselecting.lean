import MediaSplit.Proofs.Files.Matching
import MediaSplit.Proofs.Options.Resolution

/-!
Options resolved once more, after the tree has grown. All that was asked for is asked for again, so
the same files are selected in the same order, unless a new path to be ignored leads to one of them;
and any other file that is selected is new.
-/

namespace MediaSplit

namespace Selection

variable {t t' : FileTree}

/-- That a path is asked for on one tree and was not asked for on another one. -/
def IsGained (t t' : FileTree) (onlyExisting : Bool) (v : Value) (path : String) : Prop :=
  ∃ paths paths', expand t onlyExisting v = .ok paths ∧ expand t' onlyExisting v = .ok paths' ∧
    path ∈ paths' ∧ path ∉ paths

theorem isGained_iff {onlyExisting : Bool} {v : Value} {paths paths' : List String}
    (h : expand t onlyExisting v = .ok paths) (h' : expand t' onlyExisting v = .ok paths')
    (path : String) : IsGained t t' onlyExisting v path ↔ path ∈ paths' ∧ path ∉ paths := by
  constructor
  · rintro ⟨found, found', hfound, hfound', hmem, hnew⟩
    obtain rfl := Except.ok.inj (h.symm.trans hfound)
    obtain rfl := Except.ok.inj (h'.symm.trans hfound')
    exact ⟨hmem, hnew⟩
  · rintro ⟨hmem, hnew⟩
    exact ⟨paths, paths', h, h', hmem, hnew⟩

/-- That a path is to be ignored. -/
def IsIgnored (t : FileTree) (v : Value) (path : String) : Prop :=
  ∃ ignored, expand t true v = .ok ignored ∧ ignored.any (samePath t path) = true

theorem samePath_eq (h : t'.workingDirectory = t.workingDirectory) : samePath t' = samePath t := by
  funext path other
  unfold samePath place
  rw [h]

theorem isKept_eq (h : t'.workingDirectory = t.workingDirectory) : isKept t' = isKept t := by
  funext ignored dest suffix path
  simp only [isKept, samePath_eq h]

/-- Patterns add what they match, one after the other. -/
theorem expandItems_globs {onlyExisting : Bool} {patterns : List String}
    {matched : List (List String)}
    (h : List.Forall₂ (fun pattern found => Pattern.isMagic pattern.toList = true ∧
      (Glob.expand t pattern).toOption = some found) patterns matched) (before : List String) :
    expandItems t onlyExisting before (patterns.map .text) = .ok (matched.foldl addNew before) := by
  induction h generalizing before with
  | nil => rfl
  | cons hfirst _ ih =>
      obtain ⟨hmagic, hfound⟩ := hfirst
      simp only [List.map_cons, expandItems, expandItem, if_pos hmagic, expandPattern,
        eq_ok_of_toOption hfound, bind, Except.bind]
      exact ih _

/-- What was there is ignored only if it was before: a new path to be ignored leads to something
new. -/
theorem any_samePath_of_gains {ignored ignored' : List String}
    (hgains : Gains t.exists? ignored ignored')
    (hnew : ∀ path ∈ ignored', path ∉ ignored → t.entry? (t.placeOf path) = none) {path : String}
    (hthere : t.exists? path = true) :
    ignored'.any (samePath t path) = ignored.any (samePath t path) := by
  rw [Bool.eq_iff_iff, List.any_eq_true, List.any_eq_true]
  constructor
  · rintro ⟨other, hother, hsame⟩
    refine ⟨other, ?_, hsame⟩
    by_contra hnot
    obtain ⟨e, hleads⟩ := FileTree.exists?_iff.mp hthere
    have hentry := hleads.entry
    rw [((FileTree.samePath_iff t path other).mp hsame).1, hnew other hother hnot] at hentry
    cases hentry
  · rintro ⟨other, hother, hsame⟩
    exact ⟨other, hgains.subset hother, hsame⟩

/-- What is kept is kept with less to be ignored. -/
theorem isKept_of_subset {ignored ignored' : List String} {dest suffix path : String}
    (hsubset : ignored ⊆ ignored') (h : isKept t ignored' dest suffix path = true) :
    isKept t ignored dest suffix path = true := by
  simp only [isKept, Bool.and_eq_true, Bool.not_eq_true'] at h ⊢
  obtain ⟨⟨hnotIgnored, hnotDest⟩, hnotCopy⟩ := h
  refine ⟨⟨?_, hnotDest⟩, hnotCopy⟩
  rw [List.any_eq_false] at hnotIgnored ⊢
  exact fun other hother => hnotIgnored other (hsubset hother)

/-- Of the paths that were there the same ones are kept, in the same order. -/
theorem filter_isKept_of_gains {paths paths' ignored ignored' : List String} {dest suffix : String}
    (hpaths : Gains t.exists? paths paths') (hignored : Gains t.exists? ignored ignored')
    (hthere : ∀ path ∈ paths.filter (isKept t ignored dest suffix), t.exists? path = true)
    (hnew : ∀ path ∈ ignored', path ∉ ignored → t.entry? (t.placeOf path) = none) :
    (paths'.filter (isKept t ignored' dest suffix)).filter t.exists? =
      paths.filter (isKept t ignored dest suffix) := by
  calc (paths'.filter (isKept t ignored' dest suffix)).filter t.exists?
      = (paths'.filter t.exists?).filter (isKept t ignored dest suffix) := by
        rw [List.filter_filter, List.filter_filter]
        refine List.filter_congr fun path _ => ?_
        cases hold : t.exists? path with
        | true => simp only [isKept, any_samePath_of_gains hignored hnew hold, Bool.and_comm]
        | false => rw [Bool.false_and, Bool.and_false]
    _ = (paths.filter t.exists?).filter (isKept t ignored dest suffix) := by
        rw [hpaths.filter_eq]
    _ = paths.filter (isKept t ignored dest suffix) := by
        rw [List.filter_filter]
        refine List.filter_congr fun path hpath => ?_
        cases hkeep : isKept t ignored dest suffix path with
        | false => rfl
        | true => exact hthere path (List.mem_filter.mpr ⟨hpath, hkeep⟩)

end Selection

namespace Configuration

variable {t t' : FileTree} {entries : List (Value × Value)} {c : Configuration}

/-- The files of a configuration are the paths that are kept, and options resolve to the rest of it
wherever paths are kept. -/
theorem exists_selection_of_resolve [Codecs] (h : resolve t (.map entries) = .ok c) :
    ∃ paths ignored, Selection.expand t false (givenSource entries) = .ok paths ∧
      Selection.expand t true (Options.lastValue "ignore" entries) = .ok ignored ∧
      paths.filter (Selection.isKept t ignored c.dest c.strippedSuffix) = c.files ∧ c.files ≠ [] ∧
      ∀ t' paths' ignored', Selection.expand t' false (givenSource entries) = .ok paths' →
        Selection.expand t' true (Options.lastValue "ignore" entries) = .ok ignored' →
        paths'.filter (Selection.isKept t' ignored' c.dest c.strippedSuffix) ≠ [] →
        resolve t' (.map entries) = .ok { c with
          files := paths'.filter (Selection.isKept t' ignored' c.dest c.strippedSuffix) } := by
  obtain ⟨options, d, judged, hoptions, hmade, hjudged, hsome, rfl⟩ := exists_draft_of_resolve h
  have hdraft := isDraft_of_draft hmade
  have hclean : cleanSuffix d.configuration.strippedSuffix = d.configuration.strippedSuffix := by
    rw [hdraft.suffix]
    exact cleanSuffix_idem _
  have hsource : d.source = givenSource entries := by
    rw [hdraft.source, sourceOf_withDefaults hoptions]
  have hignore : d.ignore = Options.lastValue "ignore" entries := by
    have hnull : optionValue defaultOptions "ignore" = .null := rfl
    rw [hdraft.ignore, optionValue_withDefaults hoptions, givenValue, hnull, Value.over_null]
  obtain ⟨paths, ignored, hpaths, hignored, hfiles⟩ := Selection.kept_eq_filter hjudged
  rw [hclean] at hfiles
  rw [hsource] at hpaths
  rw [hignore] at hignored
  refine ⟨paths, ignored, hpaths, hignored, hfiles.symm, hsome, fun t' paths' ignored' hpaths'
    hignored' hsome' => ?_⟩
  rw [← hsource] at hpaths'
  rw [← hignore] at hignored'
  obtain ⟨judged', hjudged', hkept'⟩ := Selection.exists_judged d.configuration.dest
    d.configuration.strippedSuffix hpaths' hignored'
  rw [hclean] at hkept'
  have hresolve := resolve_of_isDraft hoptions hdraft hjudged' (by rwa [hkept'])
  rw [hresolve, hkept']

/-- On a tree that has grown options resolve to the same configuration, with the same files and such
as were not there before and are asked for anew. It takes that the files were there, and that new
paths to be ignored lead to something new. -/
theorem resolve_of_grows [Codecs] (hgrows : t.Grows t') (hnames : t.HasNames) (hrooted : t.IsRooted)
    (h : resolve t (.map entries) = .ok c) (hthere : ∀ path ∈ c.files, t.exists? path = true)
    (hignore : ∀ path, Selection.IsGained t t' true (Options.lastValue "ignore" entries) path →
      t.entry? (t.placeOf path) = none) :
    ∃ files, resolve t' (.map entries) = .ok { c with files := files } ∧
      files.filter t.exists? = c.files ∧ ∀ path ∈ files, t.exists? path = false →
        Selection.IsGained t t' false (givenSource entries) path ∧
          ¬ Selection.IsIgnored t' (Options.lastValue "ignore" entries) path ∧
          Selection.samePath t path c.dest = false ∧
          Selection.hasSuffix c.strippedSuffix path = false := by
  obtain ⟨paths, ignored, hpaths, hignored, hfiles, hsome, hagain⟩ := exists_selection_of_resolve h
  obtain ⟨paths', hpaths', hgains⟩ := Selection.gains_expand hgrows hnames hrooted hpaths
  obtain ⟨ignored', hignored', hgains'⟩ := Selection.gains_expand hgrows hnames hrooted hignored
  have hsame := Selection.isKept_eq hgrows.workingDirectory
  have hold : (paths'.filter (Selection.isKept t' ignored' c.dest c.strippedSuffix)).filter
      t.exists? = c.files := by
    rw [← hfiles] at hthere
    rw [hsame, ← hfiles]
    refine Selection.filter_isKept_of_gains hgains hgains' hthere fun path hpath hnew => ?_
    exact hignore path ((Selection.isGained_iff hignored hignored' path).mpr ⟨hpath, hnew⟩)
  refine ⟨_, hagain t' paths' ignored' hpaths' hignored' ?_, hold, fun path hpath hnot => ?_⟩
  · intro hnone
    rw [hnone] at hold
    exact hsome hold.symm
  · obtain ⟨hmem, hkept⟩ := List.mem_filter.mp hpath
    rw [hsame] at hkept
    refine ⟨(Selection.isGained_iff hpaths hpaths' path).mpr ⟨hmem, fun hmem' => ?_⟩, ?_⟩
    · -- what was asked for and is kept was kept before, and so it was there
      rw [hthere path] at hnot
      · cases hnot
      · rw [← hfiles]
        exact List.mem_filter.mpr ⟨hmem', Selection.isKept_of_subset hgains'.subset hkept⟩
    · simp only [Selection.isKept, Bool.and_eq_true, Bool.not_eq_true'] at hkept
      obtain ⟨⟨hnotIgnored, hnotDest⟩, hnotCopy⟩ := hkept
      refine ⟨?_, hnotDest, hnotCopy⟩
      rintro ⟨found, hfound, hany⟩
      obtain rfl := Except.ok.inj (hignored'.symm.trans hfound)
      rw [Selection.samePath_eq hgrows.workingDirectory, hnotIgnored] at hany
      cases hany

/-- A configuration that is read again asks for what it is given as its source, and has nothing
ignored. -/
theorem asks_optionsWith [Codecs] {source : Value} (hc : c.IsNormal)
    (hsource : source.isGiven = true) :
    givenSource (c.optionsWith source).toEntries = source ∧
      Options.lastValue "ignore" (c.optionsWith source).toEntries = .null := by
  obtain ⟨options, hoptions, hdraft⟩ := exists_isDraft hc hsource
  have hnull : optionValue defaultOptions "ignore" = .null := rfl
  have hignore := hdraft.ignore
  rw [optionValue_withDefaults hoptions, givenValue, hnull, Value.over_null] at hignore
  rw [← sourceOf_withDefaults hoptions, ← hdraft.source, ← hignore]
  exact ⟨rfl, rfl⟩

end Configuration

end MediaSplit
