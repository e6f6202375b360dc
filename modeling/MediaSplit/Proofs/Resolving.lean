import MediaSplit.Configuration
import MediaSplit.Proofs.Files.CopyNames
import MediaSplit.Proofs.Results

/-!
What a configuration that options give can be relied on for: its suffix is clean and not empty, and
none of its sources is the combined file or has the suffix in its name.
-/

namespace MediaSplit

namespace Selection

theorem judge_eq_kept {t : FileTree} {ignored : List String} {dest suffix path : String}
    (h : judge t ignored dest suffix path = .kept) :
    samePath t path dest = false ∧ hasSuffix suffix path = false := by
  unfold judge at h
  split at h
  · cases h
  · split at h
    · cases h
    · rename_i hdest
      split at h
      · cases h
      · rename_i hcopy
        exact ⟨by simpa using hdest, by simpa using hcopy⟩

theorem judgeAll_eq_ok_iff {t : FileTree} {source ignore : Value} {dest suffix : String}
    {judged : List (String × Verdict)} : judgeAll t source ignore dest suffix = .ok judged ↔
      ∃ paths ignored, expand t false source = .ok paths ∧ expand t true ignore = .ok ignored ∧
        judged = paths.map fun path => (path, judge t ignored dest (cleanSuffix suffix) path) := by
  simp only [judgeAll, bind_eq_ok, Except.ok.injEq, exists_and_left, @eq_comm _ judged]

theorem judge_of_mem_kept {t : FileTree} {source ignore : Value} {dest suffix path : String}
    {judged : List (String × Verdict)} (h : judgeAll t source ignore dest suffix = .ok judged)
    (hpath : path ∈ kept judged) :
    ∃ ignored, judge t ignored dest (cleanSuffix suffix) path = .kept := by
  obtain ⟨⟨found, verdict⟩, hfound, hkept⟩ := List.mem_filterMap.mp hpath
  simp only at hkept
  split at hkept
  · rename_i hverdict
    obtain rfl := Option.some.inj hkept
    obtain ⟨paths, ignored, -, -, rfl⟩ := judgeAll_eq_ok_iff.mp h
    obtain ⟨_, -, heq⟩ := List.mem_map.mp hfound
    obtain ⟨rfl, hjudge⟩ := Prod.mk.inj heq
    exact ⟨ignored, hjudge.trans hverdict⟩
  · cases hkept

theorem exists_judged_of_sourceFiles {t : FileTree} {source ignore : Value} {dest suffix : String}
    {files : List String} (h : sourceFiles t source ignore dest suffix = .ok files) :
    ∃ judged, judgeAll t source ignore dest suffix = .ok judged ∧ kept judged = files := by
  unfold sourceFiles at h
  cases hjudged : judgeAll t source ignore dest suffix with
  | error fault =>
      rw [hjudged] at h
      cases h
  | ok judged =>
      rw [hjudged] at h
      exact ⟨judged, rfl, Except.ok.inj h⟩

theorem hasSuffix_eq_true_iff {suffix path : String} (hne : suffix ≠ "") :
    hasSuffix suffix path = true ↔ suffix.toList <:+: Path.nameOf path.toList := by
  simp [hasSuffix, Text.occursIn_iff, hne]

end Selection

namespace Configuration

theorem draft_suffix [Codecs] {options : Options} {d : Draft} (h : draft options = .ok d) :
    ∃ given, d.configuration.strippedSuffix = cleanSuffix given ∧
      d.configuration.strippedSuffix ≠ "" := by
  unfold draft at h
  simp only [bind, Except.bind, pure, Except.pure, throw, throwThe, MonadExceptOf.throw] at h
  -- every check but the last comes to an error or goes on
  repeat' split at h
  all_goals first
    | cases h; done
    | skip
  rename_i hsuffix _
  obtain rfl := Except.ok.inj h
  refine ⟨_, rfl, fun hempty => hsuffix ?_⟩
  simp only at hempty
  rw [hempty]
  rfl

/-- A configuration is a draft with the files that were kept. -/
theorem exists_draft_of_resolve [Codecs] {t : FileTree} {options : Value} {c : Configuration}
    (h : resolve t options = .ok c) :
    ∃ merged d judged, withDefaults options = .ok merged ∧ draft merged = .ok d ∧
      Selection.judgeAll t d.source d.ignore d.configuration.dest d.configuration.strippedSuffix =
        .ok judged ∧ Selection.kept judged ≠ [] ∧
      c = { d.configuration with files := Selection.kept judged } := by
  unfold resolve resolveJudged at h
  cases hdrafted : withDefaults options >>= draft with
  | error fault =>
      rw [hdrafted] at h
      cases h
  | ok d =>
      rw [hdrafted] at h
      simp only at h
      obtain ⟨merged, hmerged, hdraft⟩ := bind_eq_ok.mp hdrafted
      cases hjudged : Selection.judgeAll t d.source d.ignore d.configuration.dest
          d.configuration.strippedSuffix with
      | error fault =>
          rw [hjudged] at h
          cases h
      | ok judged =>
          rw [hjudged] at h
          simp only [finish] at h
          split at h
          · cases h
          · rename_i hfiles
            refine ⟨merged, d, judged, hmerged, hdraft, hjudged, ?_, (Except.ok.inj h).symm⟩
            simpa using hfiles

structure IsResolved (t : FileTree) (c : Configuration) : Prop where
  dotless : '.' ∉ c.strippedSuffix.toList
  suffixed : c.strippedSuffix ≠ ""
  notDest : ∀ path ∈ c.files, Selection.samePath t path c.dest = false
  notCopy : ∀ path ∈ c.files, ¬ c.strippedSuffix.toList <:+: Path.nameOf path.toList

theorem isResolved_of_resolve [Codecs] {t : FileTree} {options : Value} {c : Configuration}
    (h : resolve t options = .ok c) : c.IsResolved t := by
  obtain ⟨merged, d, judged, -, hdraft, hjudged, -, rfl⟩ := exists_draft_of_resolve h
  obtain ⟨given, hgiven, hne⟩ := draft_suffix hdraft
  have hkept : ∀ path ∈ Selection.kept judged,
      Selection.samePath t path d.configuration.dest = false ∧
        Selection.hasSuffix d.configuration.strippedSuffix path = false := by
    intro path hpath
    obtain ⟨ignored, hjudge⟩ := Selection.judge_of_mem_kept hjudged hpath
    rw [hgiven, cleanSuffix_idem, ← hgiven] at hjudge
    exact Selection.judge_eq_kept hjudge
  constructor
  · simp only [hgiven, cleanSuffix, String.toList_ofList]
    exact dot_not_mem_cleanSuffixChars _
  · exact hne
  · intro path hpath
    exact (hkept path hpath).1
  · intro path hpath
    rw [← Selection.hasSuffix_eq_true_iff hne, (hkept path hpath).2]
    exact Bool.false_ne_true

end Configuration

end MediaSplit
