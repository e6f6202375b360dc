import MediaSplit.Proofs.Files.Repeats
import MediaSplit.Proofs.Files.Spelling

/-!
What the name of a stripped copy tells. Two names without the suffix have one copy if and only if
they are the same, or one has no extension and the other is it with the extension added. A copy
stands beside its source and is known by its name if and only if the suffix has no slash.
-/

namespace MediaSplit

namespace Text

/-- A part that is added to a text without it is the first there, if it cannot overlap with
itself. -/
theorem replaceFirst_append_self {c : Char} {rest text : List Char} (hc : c ∉ rest)
    (h : ¬ c :: rest <:+: text) (replacement : List Char) :
    replaceFirst (c :: rest) replacement (text ++ c :: rest) = text ++ replacement := by
  induction text with
  | nil => simp [replaceFirst]
  | cons d text ih =>
      have hlater : ¬ c :: rest <:+: text :=
        fun hpart => h (hpart.trans (List.suffix_cons d text).isInfix)
      have hhere : ¬ c :: rest <+: d :: (text ++ c :: rest) := by
        rintro ⟨after, hafter⟩
        obtain ⟨rfl, htail⟩ := List.cons.inj hafter
        rcases List.append_eq_append_iff.mp htail with ⟨more, rfl, -⟩ | ⟨more, hrest, hmore⟩
        · exact h (List.prefix_append (c :: rest) more).isInfix
        · cases more with
          | nil => exact h (by simp [hrest])
          | cons e more =>
              obtain ⟨rfl, -⟩ := List.cons.inj hmore
              exact hc (by simp [hrest])
      rw [List.cons_append, replaceFirst, if_neg (by simpa using hhere), ih hlater,
        List.cons_append]

end Text

variable {suffix name other : List Char}

theorem strippedName_append_cssExtension (h : ¬ cssExtension <:+: name) :
    strippedName suffix (name ++ cssExtension) = strippedName suffix name := by
  have hplain : ¬ Text.occursIn cssExtension name = true := Text.occursIn_iff.not.mpr h
  have hextended : Text.occursIn cssExtension (name ++ cssExtension) = true :=
    Text.occursIn_iff.mpr (List.suffix_append _ _).isInfix
  -- the dot stands only at the start of an extension, so no other one reaches into the added one
  have hreplaced := Text.replaceFirst_append_self (by decide) h ('.' :: suffix ++ cssExtension)
  rw [strippedName, if_pos hextended, strippedName, if_neg hplain]
  exact hreplaced.trans (List.append_assoc _ _ _).symm

/-- Two names without the suffix have one copy if and only if they are the same, but for an
extension that is added where there is none. -/
theorem strippedName_eq_iff (hdot : '.' ∉ suffix) (hname : ¬ suffix <:+: name)
    (hother : ¬ suffix <:+: other) :
    strippedName suffix name = strippedName suffix other ↔
      name = other ∨ ¬ cssExtension <:+: name ∧ other = name ++ cssExtension ∨
        ¬ cssExtension <:+: other ∧ name = other ++ cssExtension := by
  have hoccurs : ∀ text, Text.occursIn cssExtension text = false ↔ ¬ cssExtension <:+: text :=
    fun text => by rw [← Text.occursIn_iff, Bool.not_eq_true]
  constructor
  · intro h
    simpa only [hoccurs] using eq_or_extended_of_strippedName hdot hname hother h
  · rintro (rfl | ⟨hplain, rfl⟩ | ⟨hplain, rfl⟩)
    · rfl
    · exact (strippedName_append_cssExtension hplain).symm
    · exact strippedName_append_cssExtension hplain

theorem infix_strippedName (suffix name : List Char) : suffix <:+: strippedName suffix name := by
  obtain ⟨before, after, hcopy, -⟩ := strippedName_eq suffix name
  exact ⟨before ++ ['.'], cssExtension ++ after, by simp [hcopy]⟩

theorem cleanSuffixChars_of_cleanSuffix {suffix : String} (h : cleanSuffix suffix = suffix) :
    cleanSuffixChars suffix.toList = suffix.toList := by
  simpa [cleanSuffix] using congrArg String.toList h

theorem strippedPath_cleanSuffix (path suffix : String) :
    strippedPath path (cleanSuffix suffix) = strippedPath path suffix := by
  have hcleaned := cleanSuffixChars_of_no_dot (dot_not_mem_cleanSuffixChars suffix.toList)
  simp only [strippedPath, cleanSuffix, String.toList_ofList, hcleaned]

namespace Path

theorem dropSlashes_idem (path : List Char) :
    dropSlashes (dropSlashes path) = dropSlashes path := by
  by_cases hall : path.all (· == '/') = true
  · have hsame : dropSlashes path = path := if_pos hall
    rw [hsame, hsame]
  · have hdropped : dropSlashes path = path.rdropWhile (· == '/') := if_neg hall
    rw [hdropped, dropSlashes]
    split
    · rfl
    · exact List.rdropWhile_idempotent _ _

variable {path suffix : String}

/-- A copy has the directory of its source. -/
theorem directoryOf_copy (hslash : '/' ∉ cleanSuffixChars suffix.toList) :
    directoryOf (strippedPath path suffix).toList = directoryOf path.toList := by
  have hcopy := slash_not_mem_strippedName (slash_not_mem_nameOf path.toList) hslash
  rw [strippedPath, String.toList_ofList, directoryOf_join hcopy]
  exact dropSlashes_idem _

theorem nameOf_copy (hslash : '/' ∉ cleanSuffixChars suffix.toList) :
    nameOf (strippedPath path suffix).toList =
      strippedName (cleanSuffixChars suffix.toList) (nameOf path.toList) := by
  have hcopy := slash_not_mem_strippedName (slash_not_mem_nameOf path.toList) hslash
  rw [strippedPath, String.toList_ofList, nameOf_join hcopy]

theorem directoryOf_of_no_slash {path : List Char} (h : '/' ∉ path) : directoryOf path = [] :=
  @directoryOf_append [] path h

theorem strippedPath_of_no_slash (h : '/' ∉ path.toList) :
    strippedPath path suffix =
      String.ofList (strippedName (cleanSuffixChars suffix.toList) path.toList) := by
  rw [strippedPath, directoryOf_of_no_slash h, nameOf_of_no_slash h,
    join, if_neg (head?_strippedName h)]
  rfl

end Path

namespace Selection

variable {t : FileTree} {source ignore : Value} {dest suffix path other : String}
  {files : List String}

/-- The name of a source does not have the suffix. -/
theorem not_infix_of_sourceFiles (hne : cleanSuffix suffix ≠ "")
    (h : sourceFiles t source ignore dest suffix = .ok files) (hpath : path ∈ files) :
    ¬ (cleanSuffix suffix).toList <:+: Path.nameOf path.toList := by
  obtain ⟨judged, hjudged, rfl⟩ := exists_judged_of_sourceFiles h
  obtain ⟨ignored, hkept⟩ := judge_of_mem_kept hjudged hpath
  rw [← hasSuffix_eq_true_iff hne, (judge_eq_kept hkept).2]
  exact Bool.false_ne_true

theorem judgeAll_cleanSuffix :
    judgeAll t source ignore dest (cleanSuffix suffix) = judgeAll t source ignore dest suffix := by
  rw [judgeAll, judgeAll, cleanSuffix_idem]

/-- Paths with one directory and one name are spellings of one place. -/
theorem samePath_of_directoryOf (t : FileTree)
    (hdirectory : Path.directoryOf path.toList = Path.directoryOf other.toList)
    (hname : Path.nameOf path.toList = Path.nameOf other.toList) :
    samePath t path other = true := by
  have hslashes : Path.slashes path.toList = Path.slashes other.toList := by
    rw [← Path.slashes_directoryOf, hdirectory, Path.slashes_directoryOf]
  have hstart : t.startOf path.toList = t.startOf other.toList := by
    simp only [FileTree.startOf, ← Path.head?_directoryOf path.toList, hdirectory,
      Path.head?_directoryOf other.toList]
  rw [FileTree.samePath_iff, t.placeOf_eq, t.placeOf_eq other, hname, hdirectory, hstart, hslashes]
  exact ⟨rfl, Iff.rfl⟩

/-- Two names without the suffix have one copy if and only if one of them is the other, as it is or
with the extension added to a name that has none. So among the sources whose names have the
extension each has a copy of its own. -/
theorem copies_coincide_iff (suffix : String) (hclean : cleanSuffix suffix = suffix)
    (hne : suffix ≠ "") (hslash : '/' ∉ suffix.toList) :
    (∀ name other : String, '/' ∉ name.toList → '/' ∉ other.toList →
      ¬ suffix.toList <:+: name.toList → ¬ suffix.toList <:+: other.toList →
      (strippedPath name suffix = strippedPath other suffix ↔
        name = other ∨ ¬ cssExtension <:+: name.toList ∧ other = name ++ ".css" ∨
          ¬ cssExtension <:+: other.toList ∧ name = other ++ ".css")) ∧
    ∀ (t : FileTree) (source ignore : Value) (dest : String) (files : List String),
      sourceFiles t source ignore dest suffix = .ok files →
      ∀ path ∈ files, ∀ other ∈ files,
        cssExtension <:+: Path.nameOf path.toList → cssExtension <:+: Path.nameOf other.toList →
        strippedPath path suffix = strippedPath other suffix →
        Path.directoryOf path.toList = Path.directoryOf other.toList ∧
          Path.nameOf path.toList = Path.nameOf other.toList ∧ samePath t path other = true := by
  have hchars := cleanSuffixChars_of_cleanSuffix hclean
  have hdot : '.' ∉ suffix.toList := hchars ▸ dot_not_mem_cleanSuffixChars suffix.toList
  have hextended : ∀ name other : String, other = name ++ ".css" ↔
      other.toList = name.toList ++ cssExtension := by
    intro name other
    rw [← String.toList_inj, String.toList_append]
    rfl
  constructor
  · intro name other hname hother hfree hfree'
    rw [Path.strippedPath_of_no_slash hname, Path.strippedPath_of_no_slash hother, hchars,
      String.ofList_inj, strippedName_eq_iff hdot hfree hfree', String.toList_inj, hextended,
      hextended]
  · intro t source ignore dest files hfiles path hpath other hother hcss hcss' hcopies
    have hclean' : '/' ∉ cleanSuffixChars suffix.toList := hchars.symm ▸ hslash
    have hdirectory : Path.directoryOf path.toList = Path.directoryOf other.toList := by
      rw [← Path.directoryOf_copy hclean', hcopies, Path.directoryOf_copy hclean']
    have hnames : strippedName suffix.toList (Path.nameOf path.toList) =
        strippedName suffix.toList (Path.nameOf other.toList) := by
      have hcopy := @Path.nameOf_copy path suffix hclean'
      rwa [hcopies, Path.nameOf_copy hclean', hchars, eq_comm] at hcopy
    have hfree : ∀ file ∈ files, ¬ suffix.toList <:+: Path.nameOf file.toList := by
      intro file hfile
      have hcleaned := not_infix_of_sourceFiles (hclean.symm ▸ hne) hfiles hfile
      rwa [hclean] at hcleaned
    have hname : Path.nameOf path.toList = Path.nameOf other.toList := by
      rcases (strippedName_eq_iff hdot (hfree path hpath) (hfree other hother)).mp hnames with
        hsame | ⟨hplain, -⟩ | ⟨hplain, -⟩
      · exact hsame
      · exact absurd hcss hplain
      · exact absurd hcss' hplain
    exact ⟨hdirectory, hname, samePath_of_directoryOf t hdirectory hname⟩

theorem copies_coincide_iff_min :
    strippedPath "a" "min" = strippedPath "a.css" "min" ∧
    strippedPath "a.css" "min" ≠ strippedPath "a.css.css" "min" ∧
    samePath ⟨[], []⟩ "d/a.css" "d//a.css" = true := by
  obtain ⟨hnames, hsources⟩ := copies_coincide_iff "min" rfl (by decide) (by decide)
  have hselected : sourceFiles ⟨[], []⟩ (.list [.text "d/a.css", .text "d//a.css"]) .null "o.css"
      "min" = .ok ["d/a.css", "d//a.css"] := rfl
  have hplain : ¬ cssExtension <:+: "a".toList := by decide
  have hextended : cssExtension <:+: "a.css".toList := by decide
  refine ⟨?_, ?_, ?_⟩
  · exact (hnames "a" "a.css" (by decide) (by decide) (by decide) (by decide)).mpr
      (.inr (.inl ⟨hplain, rfl⟩))
  · intro hsame
    have hcases := (hnames "a.css" "a.css.css" (by decide) (by decide) (by decide) (by decide)).mp
      hsame
    rcases hcases with heq | ⟨hnone, -⟩ | ⟨-, heq⟩
    · exact absurd heq (by decide)
    · exact hnone hextended
    · exact absurd heq (by decide)
  · exact (hsources _ _ _ _ _ hselected "d/a.css" (by simp) "d//a.css" (by simp) (by decide)
      (by decide) rfl).2.2

/-- What a copy that is named with a clean suffix is known by. -/
structure IsKnown (path suffix : String) : Prop where
  dotless : '.' ∉ suffix.toList
  clean : cleanSuffix suffix = suffix
  named_iff : suffix.toList <:+: Path.nameOf (strippedPath path suffix).toList ↔
    '/' ∉ suffix.toList
  /-- With a slash in the suffix a copy is chosen like any other file. -/
  kept_iff : ∀ (t : FileTree) (ignored : List String) (dest : String),
    judge t ignored dest suffix (strippedPath path suffix) = .kept ↔ '/' ∈ suffix.toList ∧
      ignored.any (samePath t (strippedPath path suffix)) = false ∧
      samePath t (strippedPath path suffix) dest = false
  leftOut : '/' ∉ suffix.toList → ∀ (t : FileTree) (source ignore : Value) (dest : String)
    (files : List String), sourceFiles t source ignore dest suffix = .ok files →
    strippedPath path suffix ∉ files
  beside : '/' ∉ suffix.toList →
    Path.directoryOf (strippedPath path suffix).toList = Path.directoryOf path.toList

/-- The name of a copy has the suffix if and only if this has no slash. -/
theorem infix_nameOf_copy_iff (hclean : cleanSuffix suffix = suffix) :
    suffix.toList <:+: Path.nameOf (strippedPath path suffix).toList ↔ '/' ∉ suffix.toList := by
  have hchars := cleanSuffixChars_of_cleanSuffix hclean
  constructor
  · exact fun hpart hslash => Path.slash_not_mem_nameOf _ (hpart.subset hslash)
  · intro hslash
    rw [Path.nameOf_copy (hchars.symm ▸ hslash), hchars]
    exact infix_strippedName _ _

theorem isKnown_of_clean (path : String) (hclean : cleanSuffix suffix = suffix)
    (hne : suffix ≠ "") : IsKnown path suffix where
  dotless := cleanSuffixChars_of_cleanSuffix hclean ▸ dot_not_mem_cleanSuffixChars suffix.toList
  clean := hclean
  named_iff := infix_nameOf_copy_iff hclean
  kept_iff := by
    intro t ignored dest
    have hunmarked : hasSuffix suffix (strippedPath path suffix) = false ↔ '/' ∈ suffix.toList := by
      rw [← Bool.not_eq_true, hasSuffix_eq_true_iff hne, infix_nameOf_copy_iff hclean, not_not]
    rw [judge_eq_kept_iff, hunmarked]
    constructor
    · rintro ⟨hignored, hdest, hslash⟩
      exact ⟨hslash, hignored, hdest⟩
    · rintro ⟨hslash, hignored, hdest⟩
      exact ⟨hignored, hdest, hslash⟩
  leftOut := by
    intro hslash t source ignore dest files hfiles hmem
    have hfree := not_infix_of_sourceFiles (hclean.symm ▸ hne) hfiles hmem
    rw [hclean] at hfree
    exact hfree ((infix_nameOf_copy_iff hclean).mpr hslash)
  beside := fun hslash =>
    Path.directoryOf_copy ((cleanSuffixChars_of_cleanSuffix hclean).symm ▸ hslash)

/-- Copies are known by their names, and to clean a suffix again makes no difference to names or to
selection. -/
theorem known_of_cleanSuffix (path raw : String) (hne : cleanSuffix raw ≠ "") :
    IsKnown path (cleanSuffix raw) ∧
    strippedPath path (cleanSuffix raw) = strippedPath path raw ∧
    ∀ (t : FileTree) (source ignore : Value) (dest : String),
      sourceFiles t source ignore dest (cleanSuffix raw) =
        sourceFiles t source ignore dest raw := by
  refine ⟨isKnown_of_clean path (cleanSuffix_idem raw) hne, strippedPath_cleanSuffix path raw, ?_⟩
  intro t source ignore dest
  rw [sourceFiles, sourceFiles, judgeAll_cleanSuffix]

theorem known_of_cleanSuffix_min :
    cleanSuffix ".min.css" ≠ "" ∧
    strippedPath "css/a.css" (cleanSuffix ".min.css") = "css/a.min.css" ∧
    "min".toList <:+: Path.nameOf "css/a.min.css".toList ∧
    Path.directoryOf "css/a.min.css".toList = Path.directoryOf "css/a.css".toList := by
  have hclean : cleanSuffix ".min.css" = "min" := rfl
  have hcopy : strippedPath "css/a.css" "min" = "css/a.min.css" := rfl
  have hne : cleanSuffix ".min.css" ≠ "" := by decide
  obtain ⟨hknown, -, -⟩ := known_of_cleanSuffix "css/a.css" ".min.css" hne
  rw [hclean] at hknown ⊢
  have hnamed := hknown.named_iff.mpr (by decide)
  have hbeside := hknown.beside (by decide)
  rw [hcopy] at hnamed hbeside ⊢
  exact ⟨by decide, rfl, hnamed, hbeside⟩

end Selection

end MediaSplit
