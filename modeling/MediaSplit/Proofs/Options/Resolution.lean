import MediaSplit.Encoding.HostNames
import MediaSplit.Proofs.Options.Precedence
import MediaSplit.Proofs.Resolving
import MediaSplit.Proofs.Results
import MediaSplit.Proofs.Widths

/-!
What a configuration that options resolve to consists of. Its values are those that the options give
last, read and cleaned, and its files are the paths that the options ask for, in their order, without
those that are to be ignored, that are the combined file, or that have the suffix in their names.
-/

namespace MediaSplit

namespace Decimal

theorem pointed_ne_nil {digits : List Char} (h : digits ≠ []) (place : Int) :
    pointed digits place ≠ [] := by
  unfold pointed
  split
  · exact List.cons_ne_nil _ _
  · rename_i hplace
    apply List.append_ne_nil_of_left_ne_nil
    rw [ne_eq, List.take_eq_nil_iff]
    rintro (hzero | hnil)
    · omega
    · exact h hnil

theorem text_ne_nil (d : Decimal) : d.text ≠ [] := by
  cases d with
  | finite negative coefficient exponent =>
      have hdigits : Nat.toDigits 10 coefficient ≠ [] := Nat.toDigits_ne_nil
      apply List.append_ne_nil_of_right_ne_nil
      unfold magnitudeText
      simp only
      split
      · exact pointed_ne_nil hdigits _
      · exact List.append_ne_nil_of_left_ne_nil (pointed_ne_nil hdigits _) _
  | infinite negative => simp [text]
  | nan negative signaling payload => simp [text]

end Decimal

namespace Value

theorem toList_shownInside_ne_nil (v : Value) : v.shownInside.toList ≠ [] := by
  cases v with
  | bool b => cases b <;> simp [shownInside]
  | int n => exact (WidthSet.isToken_toString n).nonempty
  | float x => simp [shownInside, x.text_ne_nil]
  | text s => simp [shownInside, Text.quoted]
  | bytes bs => simp [shownInside, Text.quotedBytes]
  | tuple items =>
      rcases items with _ | ⟨first, _ | ⟨second, rest⟩⟩ <;> simp [shownInside]
  | set items => cases items <;> simp [shownInside]
  | null | list | map | decimal | ellipsis => simp [shownInside]

/-- What counts as given shows as something. -/
theorem shown_ne_empty {v : Value} (h : v.isGiven = true) : v.shown ≠ "" := by
  intro hempty
  cases v with
  | text s =>
      obtain rfl : s = "" := hempty
      cases h
  | decimal d => exact d.text_ne_nil (by simpa [shown] using congrArg String.toList hempty)
  | _ => exact toList_shownInside_ne_nil _ (congrArg String.toList hempty)

end Value

namespace Selection

variable {t : FileTree}

theorem judge_eq_kept_iff {ignored : List String} {dest suffix path : String} :
    judge t ignored dest suffix path = .kept ↔
      ignored.any (samePath t path) = false ∧ samePath t path dest = false ∧
        hasSuffix suffix path = false := by
  unfold judge
  cases ignored.any (samePath t path) <;> cases samePath t path dest <;>
    cases hasSuffix suffix path <;> simp

/-- Whether a path is kept, given the paths to be ignored, the combined file and the suffix. -/
def isKept (t : FileTree) (ignored : List String) (dest suffix path : String) : Bool :=
  !ignored.any (samePath t path) && !samePath t path dest && !hasSuffix suffix path

theorem kept_map_judge (paths ignored : List String) (dest suffix : String) :
    kept (paths.map fun path => (path, judge t ignored dest suffix path)) =
      paths.filter (isKept t ignored dest suffix) := by
  rw [kept, List.filterMap_map, ← List.filterMap_eq_filter]
  apply List.filterMap_congr
  intro path _
  simp only [Function.comp_apply, Option.guard, judge_eq_kept_iff, isKept, Bool.and_eq_true,
    Bool.not_eq_true', and_assoc]

/-- The paths that are kept are those asked for, but for some of them. -/
theorem kept_eq_filter {source ignore : Value} {dest suffix : String}
    {judged : List (String × Verdict)} (h : judgeAll t source ignore dest suffix = .ok judged) :
    ∃ paths ignored, expand t false source = .ok paths ∧ expand t true ignore = .ok ignored ∧
      kept judged = paths.filter (isKept t ignored dest (cleanSuffix suffix)) := by
  obtain ⟨paths, ignored, hpaths, hignored, rfl⟩ := judgeAll_eq_ok_iff.mp h
  exact ⟨paths, ignored, hpaths, hignored, kept_map_judge ..⟩

/-- The other way round: what can be asked for is judged. -/
theorem exists_judged {source ignore : Value} {paths ignored : List String} (dest suffix : String)
    (hpaths : expand t false source = .ok paths) (hignored : expand t true ignore = .ok ignored) :
    ∃ judged, judgeAll t source ignore dest suffix = .ok judged ∧
      kept judged = paths.filter (isKept t ignored dest (cleanSuffix suffix)) :=
  ⟨_, judgeAll_eq_ok_iff.mpr ⟨paths, ignored, hpaths, hignored, rfl⟩, kept_map_judge ..⟩

theorem nodup_addNew {paths : List String} (h : paths.Nodup) (more : List String) :
    (addNew paths more).Nodup := by
  induction more generalizing paths with
  | nil => exact h
  | cons path more ih =>
      rw [addNew, List.foldl_cons]
      apply ih
      split
      · exact h
      · rename_i hnew
        apply List.nodup_append.mpr ⟨h, by simp, ?_⟩
        rintro old hold new hmem rfl
        rw [List.mem_singleton] at hmem
        apply hnew
        rw [← hmem]
        exact List.contains_iff_mem.mpr hold

theorem nodup_expandItems {onlyExisting : Bool} {items : List Value} {paths found : List String}
    (h : expandItems t onlyExisting paths items = .ok found) (hpaths : paths.Nodup) :
    found.Nodup := by
  induction items generalizing paths with
  | nil =>
      obtain rfl := Except.ok.inj h
      exact hpaths
  | cons item items ih =>
      obtain ⟨more, -, hrest⟩ := bind_eq_ok.mp h
      exact ih hrest (nodup_addNew hpaths more)

/-- A list of paths and patterns names no path twice. -/
theorem nodup_expand {onlyExisting : Bool} {source : Value} {found : List String}
    (hlist : ∀ pattern, source ≠ .text pattern) (h : expand t onlyExisting source = .ok found) :
    found.Nodup := by
  unfold expand at h
  split at h
  · obtain rfl := Except.ok.inj h
    exact List.nodup_nil
  · rename_i pattern
    exact absurd rfl (hlist pattern)
  · split at h
    · exact nodup_expandItems h List.nodup_nil
    · cases h

end Selection

namespace Configuration

variable {t : FileTree} {options : Options} {d : Draft}

structure IsDraft [Codecs] (options : Options) (d : Draft) : Prop where
  noFiles : d.configuration.files = []
  widths : WidthSet.ofValue (firstValue options ["widths", "width"]) = .ok d.configuration.widths
  someWidth : d.configuration.widths.isEmpty = false
  destGiven : (optionValue options "dest").isGiven = true
  dest : d.configuration.dest = (optionValue options "dest").shown
  extract : WidthSet.ofValue (firstValue options ["extract"]) = .ok d.configuration.extract
  known : checkEncoding (encodingOf options) = .ok ()
  encoding : d.configuration.encoding = encodingOf options
  someSuffix : (suffixOf options).isEmpty = false
  suffix : d.configuration.strippedSuffix = suffixOf options
  inPlace : d.configuration.inPlace = (optionValue options "override_original").isGiven
  sourceGiven : (sourceOf options).isGiven = true
  source : d.source = sourceOf options
  ignore : d.ignore = optionValue options "ignore"

theorem widthsOption_eq_ok {field : String} {keys : List String} {w : WidthSet} :
    widthsOption options field keys = .ok w ↔
      WidthSet.ofValue (firstValue options keys) = .ok w := by
  unfold widthsOption firstValue
  simp only
  cases WidthSet.ofValue _ <;> simp

theorem isDraft_of_draft [Codecs] (h : draft options = .ok d) : IsDraft options d := by
  unfold draft at h
  simp only [bind, Except.bind, pure, Except.pure, throw, throwThe, MonadExceptOf.throw] at h
  -- every check but the last comes to an error or goes on
  repeat' split at h
  all_goals first
    | cases h; done
    | skip
  rename_i _ widths hwidths hsome hdest _ extract hextract _ _ hknown hsuffix hsource
  obtain rfl := Except.ok.inj h
  constructor
  case noFiles | dest | encoding | suffix | inPlace | source | ignore => rfl
  case widths => exact widthsOption_eq_ok.mp hwidths
  case someWidth => simpa using hsome
  case destGiven => simpa using hdest
  case extract => exact widthsOption_eq_ok.mp hextract
  case known => exact hknown
  case someSuffix => simpa [suffixOf] using hsuffix
  case sourceGiven => simpa [sourceOf] using hsource

/-- Nothing but these facts is needed for a draft. -/
theorem draft_of_isDraft [Codecs] (h : IsDraft options d) : draft options = .ok d := by
  have hknown := h.known
  have hsuffix := h.someSuffix
  have hsource := h.sourceGiven
  unfold encodingOf at hknown
  unfold suffixOf at hsuffix
  unfold sourceOf at hsource
  unfold draft
  simp only [widthsOption_eq_ok.mpr h.widths, widthsOption_eq_ok.mpr h.extract, hknown, bind,
    Except.bind, pure, Except.pure, h.someWidth, h.destGiven, hsuffix, hsource,
    Bool.false_eq_true, if_false, Bool.not_true]
  obtain ⟨⟨files, dest, widths, extract, inPlace, suffix, encoding⟩, source, ignore⟩ := d
  obtain rfl : files = [] := h.noFiles
  obtain rfl : dest = _ := h.dest
  obtain rfl : inPlace = _ := h.inPlace
  obtain rfl : suffix = _ := h.suffix
  obtain rfl : encoding = _ := h.encoding
  obtain rfl : source = _ := h.source
  obtain rfl : ignore = _ := h.ignore
  rfl

/-- The value that options give an option, with the defaults below them. -/
def givenValue (entries : List (Value × Value)) (name : String) : Value :=
  (Options.lastValue name entries).over (optionValue defaultOptions name)

theorem optionValue_withDefaults {entries : List (Value × Value)}
    (h : withDefaults (.map entries) = .ok options) (name : String) :
    optionValue options name = givenValue entries name := by
  obtain ⟨layer, hlayer, rfl⟩ := exists_of_withDefaults h
  have hnodup := (Options.areEntered_of_ofEntries hlayer).nodup
  rw [optionValue_lay_defaultOptions hnodup, Options.optionValue_ofEntries hlayer]
  rfl

/-- What options say of the sources: the files, or the source pattern if no files are given. -/
def givenSource (entries : List (Value × Value)) : Value :=
  firstGiven (Options.lastValue "files" entries) (Options.lastValue "src" entries)

theorem sourceOf_withDefaults {entries : List (Value × Value)}
    (h : withDefaults (.map entries) = .ok options) : sourceOf options = givenSource entries := by
  have hnull : ∀ name ∈ ["files", "src"], optionValue defaultOptions name = .null := by
    intro name hname
    simp only [List.mem_cons, List.not_mem_nil, or_false] at hname
    rcases hname with rfl | rfl <;> rfl
  rw [sourceOf, optionValue_withDefaults h, optionValue_withDefaults h, givenValue, givenValue,
    hnull "files" (by simp), hnull "src" (by simp), Value.over_null, Value.over_null]
  rfl

/-- A draft whose sources can be found is a configuration. -/
theorem resolve_of_isDraft [Codecs] {entries : List (Value × Value)}
    {judged : List (String × Selection.Verdict)}
    (hoptions : withDefaults (.map entries) = .ok options) (hdraft : IsDraft options d)
    (hjudged : Selection.judgeAll t d.source d.ignore d.configuration.dest
      d.configuration.strippedSuffix = .ok judged)
    (hkept : Selection.kept judged ≠ []) :
    resolve t (.map entries) = .ok { d.configuration with files := Selection.kept judged } := by
  unfold resolve resolveJudged
  simp only [hoptions, bind, Except.bind, draft_of_isDraft hdraft, hjudged, finish]
  rw [if_neg (by simpa using hkept)]

structure IsSound (t : FileTree) (entries : List (Value × Value)) (c : Configuration) : Prop where
  someWidth : c.widths.tokens ≠ []
  widths : ∀ token ∈ c.widths, WidthSet.IsToken token
  extract : ∀ token ∈ c.extract, WidthSet.IsToken token
  dest : c.dest ≠ ""
  suffixed : c.strippedSuffix ≠ ""
  dotless : '.' ∉ c.strippedSuffix.toList
  someFile : c.files ≠ []
  files : ∃ paths ignored, Selection.expand t false (givenSource entries) = .ok paths ∧
    Selection.expand t true (Options.lastValue "ignore" entries) = .ok ignored ∧
    c.files = paths.filter fun path =>
      !ignored.any (Selection.samePath t path) && !Selection.samePath t path c.dest &&
        !Text.occursIn c.strippedSuffix.toList (Path.nameOf path.toList)
  nodup : (∀ pattern, givenSource entries ≠ .text pattern) → c.files.Nodup

theorem filter_isKept {ignored : List String} {dest suffix : String} (h : suffix ≠ "")
    (paths : List String) :
    paths.filter (Selection.isKept t ignored dest suffix) = paths.filter fun path =>
      !ignored.any (Selection.samePath t path) && !Selection.samePath t path dest &&
        !Text.occursIn suffix.toList (Path.nameOf path.toList) := by
  have hsuffix : suffix.isEmpty = false := by
    simpa using h
  apply List.filter_congr
  intro path _
  simp [Selection.isKept, Selection.hasSuffix, hsuffix]

/-- Whatever options resolve to is sound, and has just the files that the options select. -/
theorem isSound_of_resolve [Codecs] {entries : List (Value × Value)} {c : Configuration}
    (h : resolve t (.map entries) = .ok c) : c.IsSound t entries := by
  obtain ⟨options, d, judged, hoptions, hmade, hjudged, hkept, rfl⟩ := exists_draft_of_resolve h
  have hdraft := isDraft_of_draft hmade
  obtain ⟨paths, ignored, hpaths, hignored, hfiles⟩ := Selection.kept_eq_filter hjudged
  have hsuffix : d.configuration.strippedSuffix ≠ "" := by
    simpa [hdraft.suffix] using hdraft.someSuffix
  have hclean : cleanSuffix d.configuration.strippedSuffix = d.configuration.strippedSuffix := by
    rw [hdraft.suffix]
    exact cleanSuffix_idem _
  rw [hclean] at hfiles
  have hignore : d.ignore = Options.lastValue "ignore" entries := by
    have hnull : optionValue defaultOptions "ignore" = .null := rfl
    rw [hdraft.ignore, optionValue_withDefaults hoptions, givenValue, hnull, Value.over_null]
  have hsource : d.source = givenSource entries := by
    rw [hdraft.source, sourceOf_withDefaults hoptions]
  rw [hsource] at hpaths
  rw [hignore] at hignored
  constructor
  case someWidth => simpa [WidthSet.isEmpty] using hdraft.someWidth
  case widths => exact fun token htoken => WidthSet.isToken_of_ofValue hdraft.widths htoken
  case extract => exact fun token htoken => WidthSet.isToken_of_ofValue hdraft.extract htoken
  case dest =>
    rw [hdraft.dest]
    exact Value.shown_ne_empty hdraft.destGiven
  case suffixed => exact hsuffix
  case dotless =>
    rw [hdraft.suffix, suffixOf, cleanSuffix, String.toList_ofList]
    exact dot_not_mem_cleanSuffixChars _
  case someFile => exact hkept
  case files => exact ⟨paths, ignored, hpaths, hignored, hfiles.trans (filter_isKept hsuffix paths)⟩
  case nodup =>
    intro hlist
    rw [hfiles]
    exact (Selection.nodup_expand hlist hpaths).filter _

/-- A list of files with the combined file, an ignored file, a copy and a repetition in it. -/
theorem isSound_of_resolve_list :
    let t : FileTree := ⟨[(["a.css"], .file []), (["b.min.css"], .file []), (["o.css"], .file []),
      (["skip.css"], .file [])], []⟩
    let entries : List (Value × Value) := [(.text "src", .text "x"),
      (.text "Src", .list [.text "./a.css", .text "b.min.css", .text "a.css", .text "o.css",
        .text "skip.css", .text "./a.css"]),
      (.text "dest", .text "./o.css"),
      (.text "ignore", .list [.text "./skip.css", .text "none.css"]),
      (.text "stripped-suffix", .text ".min.css"),
      (.text "width", .list [.text " 9 ,, 8px", .int 10])]
    ∃ c, resolve t (.map entries) = .ok c ∧ c.files = ["./a.css", "a.css"] ∧
      c.widths.tokens = ["10", "8px", "9"] ∧ c.IsSound t entries := by
  intro t entries
  obtain ⟨c, hresolve, hfields⟩ := @exists_of_toOption_map _ _ _ (resolve t (.map entries))
    (fun c => (c.files, c.widths.tokens)) (["./a.css", "a.css"], ["10", "8px", "9"])
    (by decide +kernel)
  obtain ⟨hfiles, hwidths⟩ := Prod.mk.inj hfields
  exact ⟨c, hresolve, hfiles, hwidths, isSound_of_resolve hresolve⟩

end Configuration

end MediaSplit
