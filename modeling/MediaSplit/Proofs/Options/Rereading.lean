import MediaSplit.Encoding.HostNames
import MediaSplit.Proofs.Options.Resolution

/-!
A configuration read again as options. Everything but the files comes out as it was, since all of it
is in its normal form. The files are read as a list of paths and patterns once more: they come out
as they were unless one of them stands there twice or has the characters of a pattern in its name
and stands for something else as a pattern.
-/

namespace MediaSplit

namespace Selection

variable {t : FileTree}

theorem addNew_cons (paths : List String) (first : String) (more : List String) :
    addNew paths (first :: more) =
      addNew (if paths.contains first then paths else paths ++ [first]) more :=
  rfl

theorem mem_addNew {path : String} {paths more : List String} :
    path ∈ addNew paths more ↔ path ∈ paths ∨ path ∈ more := by
  induction more generalizing paths with
  | nil => simp [addNew]
  | cons first more ih =>
      rw [addNew_cons, ih]
      split
      · rename_i hold
        have hfirst : first ∈ paths := List.contains_iff_mem.mp hold
        grind
      · grind

/-- Paths can be left out before or after others are added. -/
theorem filter_addNew (p : String → Bool) (paths more : List String) :
    (addNew paths more).filter p = addNew (paths.filter p) (more.filter p) := by
  induction more generalizing paths with
  | nil => rfl
  | cons first more ih =>
      rw [addNew_cons, ih]
      cases hfirst : p first with
      | true =>
          have hcontains : (paths.filter p).contains first = paths.contains first := by
            rw [Bool.eq_iff_iff, List.contains_iff_mem, List.contains_iff_mem, List.mem_filter]
            simp [hfirst]
          rw [List.filter_cons_of_pos hfirst, addNew_cons, hcontains]
          split
          · rfl
          · rw [List.filter_append, List.filter_cons_of_pos hfirst, List.filter_nil]
      | false =>
          have hnot : ¬ p first = true := by
            simp [hfirst]
          rw [List.filter_cons_of_neg hnot]
          split
          · rfl
          · rw [List.filter_append, List.filter_cons_of_neg hnot, List.filter_nil, List.append_nil]

/-- Of one path, however often it is added, one is new. -/
theorem addNew_of_forall_eq {path : String} {paths more : List String} (hnew : path ∉ paths)
    (hmem : path ∈ more) (hall : ∀ other ∈ more, other = path) :
    addNew paths more = paths ++ [path] := by
  have hkept : ∀ more : List String, (∀ other ∈ more, other = path) →
      addNew (paths ++ [path]) more = paths ++ [path] := by
    intro more hall
    induction more with
    | nil => rfl
    | cons first more ih =>
        obtain ⟨rfl, hrest⟩ := List.forall_mem_cons.mp hall
        rw [addNew_cons, if_pos (by simp)]
        exact ih hrest
  cases more with
  | nil => cases hmem
  | cons first more =>
      obtain ⟨rfl, hrest⟩ := List.forall_mem_cons.mp hall
      rw [addNew_cons, if_neg (by simpa using hnew)]
      exact hkept more hrest

/-- That a path among others to be kept stands for itself, as far as anything it stands for is kept:
it is no pattern, or one that matches itself and otherwise only what is left out. -/
def StandsForItself (t : FileTree) (p : String → Bool) (path : String) : Prop :=
  Pattern.isMagic path.toList = true →
    ∃ found, Glob.expand t path = .ok found ∧ path ∈ found ∧
      ∀ other ∈ found, p other = true → other = path

theorem expandItem_of_standsForItself {p : String → Bool} {path : String} (h : StandsForItself t p path) :
    ∃ found, expandItem t false (.text path) = .ok found ∧ path ∈ found ∧
      ∀ other ∈ found, p other = true → other = path := by
  cases hmagic : Pattern.isMagic path.toList with
  | true =>
      obtain ⟨found, hfound, hmem, hall⟩ := h hmagic
      refine ⟨found, ?_, hmem, hall⟩
      rw [expandItem, if_pos hmagic, expandPattern, hfound]
  | false =>
      refine ⟨[path], ?_, List.mem_singleton_self path, ?_⟩
      · rw [expandItem, if_neg (by simp [hmagic])]
        rfl
      · intro other hother _
        exact List.mem_singleton.mp hother

/-- Paths that stand for themselves are found in their order, after those that were there. -/
theorem expandItems_of_standForThemselves {p : String → Bool} {paths : List String}
    (before : List String) (hkept : ∀ path ∈ paths, p path = true) (hself : ∀ path ∈ paths, StandsForItself t p path)
    (hnodup : (before.filter p ++ paths).Nodup) :
    ∃ found, expandItems t false before (paths.map .text) = .ok found ∧
      found.filter p = before.filter p ++ paths := by
  induction paths generalizing before with
  | nil => exact ⟨before, rfl, (List.append_nil _).symm⟩
  | cons path paths ih =>
      obtain ⟨hpath, hpaths⟩ := List.forall_mem_cons.mp hkept
      obtain ⟨hfirst, hothers⟩ := List.forall_mem_cons.mp hself
      obtain ⟨more, hmore, hmem, hall⟩ := expandItem_of_standsForItself hfirst
      have hnew : path ∉ before.filter p := by
        intro hold
        exact (List.nodup_append.mp hnodup).2.2 path hold path List.mem_cons_self rfl
      have hadded : (addNew before more).filter p = before.filter p ++ [path] := by
        rw [filter_addNew]
        apply addNew_of_forall_eq hnew
        · exact List.mem_filter.mpr ⟨hmem, hpath⟩
        · intro other hother
          obtain ⟨hother, hp⟩ := List.mem_filter.mp hother
          exact hall other hother hp
      have hnext : ((addNew before more).filter p ++ paths).Nodup := by
        rwa [hadded, List.append_assoc]
      obtain ⟨found, hfound, hfilter⟩ := ih (addNew before more) hpaths hothers hnext
      refine ⟨found, ?_, ?_⟩
      · simp only [List.map_cons, expandItems, hmore, bind, Except.bind]
        exact hfound
      · rw [hfilter, hadded, List.append_assoc]
        rfl

end Selection

namespace Configuration

variable {t : FileTree} {c c' : Configuration} {source : Value} {entries : List (Value × Value)}

/-- A configuration as options, with something that says which files. -/
def optionsWith (c : Configuration) (source : Value) : Options :=
  [("files", source), ("dest", .text c.dest), ("widths", c.widths.toValue),
    ("extract", c.extract.toValue), ("override_original", .bool c.inPlace),
    ("stripped_suffix", .text c.strippedSuffix), ("encoding", .text c.encoding)]

def filesValue (c : Configuration) : Value :=
  .list (c.files.map .text)

def toEntries (c : Configuration) : List (Value × Value) :=
  (c.optionsWith c.filesValue).toEntries

theorem areEntered_optionsWith (c : Configuration) (source : Value) :
    (c.optionsWith source).AreEntered := by
  constructor
  · change ["files", "dest", "widths", "extract", "override_original", "stripped_suffix",
      "encoding"].Nodup
    decide
  · change ∀ key ∈ ["files", "dest", "widths", "extract", "override_original", "stripped_suffix",
      "encoding"], canonicalKey key = key
    decide +kernel

structure IsNormal [Codecs] (c : Configuration) : Prop where
  someWidth : c.widths.isEmpty = false
  widths : ∀ token ∈ c.widths, WidthSet.IsToken token
  extract : ∀ token ∈ c.extract, WidthSet.IsToken token
  dest : c.dest ≠ ""
  suffixed : c.strippedSuffix ≠ ""
  clean : cleanSuffix c.strippedSuffix = c.strippedSuffix
  encoded : c.encoding ≠ ""
  known : checkEncoding c.encoding = .ok ()

theorem isNormal_of_isDraft [Codecs] {options : Options} {d : Draft} (h : IsDraft options d)
    (files : List String) : IsNormal { d.configuration with files := files } := by
  constructor
  case someWidth => exact h.someWidth
  case widths => exact fun token htoken => WidthSet.isToken_of_ofValue h.widths htoken
  case extract => exact fun token htoken => WidthSet.isToken_of_ofValue h.extract htoken
  case dest =>
    simp only [h.dest]
    exact Value.shown_ne_empty h.destGiven
  case suffixed => simpa [h.suffix] using h.someSuffix
  case clean =>
    simp only [h.suffix]
    exact cleanSuffix_idem _
  case encoded =>
    simp only [h.encoding, encodingOf]
    apply Value.shown_ne_empty
    unfold firstGiven
    split
    · assumption
    · rfl
  case known =>
    simp only [h.encoding]
    exact h.known

theorem isNormal_of_resolve [Codecs] (h : resolve t (.map entries) = .ok c) : c.IsNormal := by
  obtain ⟨options, d, judged, -, hmade, -, -, rfl⟩ := exists_draft_of_resolve h
  exact isNormal_of_isDraft (isDraft_of_draft hmade) _

def draftWith (c : Configuration) (source : Value) : Draft :=
  ⟨{ c with files := [] }, source, .null⟩

/-- Read again, everything but the files is what it was. -/
theorem exists_isDraft [Codecs] (hc : c.IsNormal) (hsource : source.isGiven = true) :
    ∃ options, withDefaults (.map (c.optionsWith source).toEntries) = .ok options ∧
      IsDraft options (c.draftWith source) := by
  obtain ⟨options, hoptions, hvalue⟩ :
      ∃ options, withDefaults (.map (c.optionsWith source).toEntries) = .ok options ∧
        ∀ name, optionValue options name =
          (optionValue (c.optionsWith source) name).over (optionValue defaultOptions name) := by
    have hentered := areEntered_optionsWith c source
    exact ⟨_, withDefaults_eq (Options.ofEntries_toEntries hentered),
      optionValue_lay_defaultOptions hentered.nodup⟩
  refine ⟨options, hoptions, ?_⟩
  have htext : ∀ s : String, s ≠ "" → (Value.text s).isGiven = true := by
    intro s hs
    simpa [Value.isGiven] using hs
  have hfirst : firstGiven source .null = source := if_pos hsource
  have hover : ∀ below, source.over below = source := by
    intro below
    apply Value.over_of_not_isNull
    cases source <;> first | rfl | cases hsource
  have hdest : optionValue options "dest" = .text c.dest := hvalue "dest"
  have hwidths : firstValue options ["widths", "width"] = c.widths.toValue := by
    rw [firstValue_pair, hvalue, hvalue]
    rfl
  have hextract : firstValue options ["extract"] = c.extract.toValue := by
    rw [firstValue_singleton, hvalue]
    rfl
  have hencoding : encodingOf options = c.encoding := by
    rw [encodingOf, hvalue]
    exact congrArg Value.shown (if_pos (htext _ hc.encoded))
  have hsuffix : suffixOf options = c.strippedSuffix := by
    rw [suffixOf, hvalue]
    refine (congrArg (fun v => cleanSuffix (Value.shown v)) (if_pos (htext _ hc.suffixed))).trans ?_
    exact hc.clean
  have hfiles : sourceOf options = source := by
    rw [sourceOf, hvalue, hvalue]
    exact (congrArg (firstGiven · .null) (hover _)).trans hfirst
  constructor
  case noFiles => rfl
  case widths => exact hwidths ▸ WidthSet.ofValue_toValue hc.widths
  case someWidth => exact hc.someWidth
  case destGiven => exact hdest ▸ htext _ hc.dest
  case dest => rw [hdest]; rfl
  case extract => exact hextract ▸ WidthSet.ofValue_toValue hc.extract
  case known => exact hencoding ▸ hc.known
  case encoding => exact hencoding.symm
  case someSuffix => rw [hsuffix]; simpa using hc.suffixed
  case suffix => exact hsuffix.symm
  case inPlace => rw [hvalue]; rfl
  case sourceGiven => exact hfiles ▸ hsource
  case source => exact hfiles.symm
  case ignore => rw [hvalue]; rfl

/-- What a configuration that is read again comes to: all that it had, and the files that its source
then asks for, but for the combined file and the copies. -/
theorem resolve_optionsWith [Codecs] (hc : c.IsNormal) (hsource : source.isGiven = true) :
    resolve t (.map (c.optionsWith source).toEntries) = .ok c' ↔
      ∃ paths, Selection.expand t false source = .ok paths ∧
        paths.filter (Selection.isKept t [] c.dest c.strippedSuffix) = c'.files ∧
        c'.files ≠ [] ∧ c' = { c with files := c'.files } := by
  obtain ⟨options, hoptions, hdraft⟩ := exists_isDraft hc hsource
  have hmade := draft_of_isDraft hdraft
  have hnone : Selection.expand t true .null = .ok [] := rfl
  constructor
  · intro h
    obtain ⟨options', d, judged, hoptions', hmade', hjudged, hkept, rfl⟩ :=
      exists_draft_of_resolve h
    obtain rfl := Except.ok.inj (hoptions.symm.trans hoptions')
    obtain rfl := Except.ok.inj (hmade.symm.trans hmade')
    obtain ⟨paths, ignored, hpaths, hignored, hfiles⟩ := Selection.kept_eq_filter hjudged
    obtain rfl := Except.ok.inj (hnone.symm.trans hignored)
    simp only [draftWith, hc.clean] at hfiles
    exact ⟨paths, hpaths, hfiles.symm, hkept, rfl⟩
  · rintro ⟨paths, hpaths, hfiles, hsome, heq⟩
    obtain ⟨judged, hjudged, hkept⟩ := Selection.exists_judged c.dest c.strippedSuffix hpaths hnone
    rw [hc.clean, hfiles] at hkept
    have hresolve := resolve_of_isDraft hoptions hdraft hjudged (by rwa [hkept])
    rw [hresolve, hkept, heq]
    rfl

/-- Every file of a configuration is one that is kept, whatever else is to be ignored. -/
theorem isKept_of_resolve [Codecs] (h : resolve t (.map entries) = .ok c) :
    ∀ path ∈ c.files, Selection.isKept t [] c.dest c.strippedSuffix path = true := by
  have hnormal := isNormal_of_resolve h
  obtain ⟨options, d, judged, -, -, hjudged, -, rfl⟩ := exists_draft_of_resolve h
  obtain ⟨paths, ignored, -, -, hfiles⟩ := Selection.kept_eq_filter hjudged
  have hclean : cleanSuffix d.configuration.strippedSuffix = d.configuration.strippedSuffix :=
    hnormal.clean
  intro path hpath
  simp only [hfiles, hclean] at hpath
  have hkept := (List.mem_filter.mp hpath).2
  simp only [Selection.isKept, Bool.and_eq_true] at hkept ⊢
  exact ⟨⟨rfl, hkept.1.2⟩, hkept.2⟩

/-- A configuration that options resolve to, read again as options, comes to one that agrees with it
in all but the files. It is the same one if no file stands in it twice and each file with the
characters of a pattern in its name stands for itself as a pattern. -/
theorem resolve_toEntries [Codecs] (h : resolve t (.map entries) = .ok c) :
    (∀ c', resolve t (.map c.toEntries) = .ok c' →
      c' = { c with files := c'.files } ∧ c'.files.Nodup) ∧
    (c.files.Nodup →
      (∀ path ∈ c.files, Selection.StandsForItself t
        (Selection.isKept t [] c.dest c.strippedSuffix) path) →
      resolve t (.map c.toEntries) = .ok c) := by
  have hnormal := isNormal_of_resolve h
  have hsome := (isSound_of_resolve h).someFile
  have hgiven : c.filesValue.isGiven = true := by
    simpa [filesValue, Value.isGiven] using hsome
  constructor
  · intro c' hc'
    obtain ⟨paths, hpaths, hfiles, -, heq⟩ := (resolve_optionsWith hnormal hgiven).mp hc'
    refine ⟨heq, ?_⟩
    rw [← hfiles]
    exact (Selection.nodup_expand (fun _ => Value.noConfusion) hpaths).filter _
  · intro hnodup hself
    obtain ⟨found, hfound, hfilter⟩ :=
      Selection.expandItems_of_standForThemselves [] (isKept_of_resolve h) hself hnodup
    exact (resolve_optionsWith hnormal hgiven).mpr ⟨found, hfound, hfilter, hsome, rfl⟩

def ofFile (path : String) : Configuration :=
  { files := [path], dest := "o.css", widths := WidthSet.ofList ["8"], extract := WidthSet.empty,
    inPlace := false, strippedSuffix := "stripped", encoding := "utf-8" }

theorem isNormal_ofFile [Codecs] (path : String) : (ofFile path).IsNormal := by
  constructor
  case someWidth => rfl
  case known =>
    have hplain : Encoding.plainNamed? (Encoding.plainName "utf-8".toList) =
        some (.encoding (.utf8 false)) := by
      decide +kernel
    have hknown : Encoding.named? "utf-8" = .ok (.encoding (.utf8 false)) := by
      rw [Encoding.named?, if_neg (by decide), hplain]
    rw [show (ofFile path).encoding = "utf-8" from rfl, checkEncoding, hknown]
  case widths =>
    intro token htoken
    obtain rfl := List.mem_singleton.mp (WidthSet.mem_ofList.mp htoken)
    exact WidthSet.isToken_toString 8
  case extract => exact fun token htoken => absurd htoken WidthSet.mem_empty
  case clean =>
    change cleanSuffix "stripped" = "stripped"
    decide
  case dest | suffixed | encoded => simp [ofFile]

/-- A file that is matched by its own name. -/
theorem resolve_toEntries_star :
    let t : FileTree := ⟨[(["a*.css"], .file [])], []⟩
    let c := ofFile "a*.css"
    resolve t (.map (c.optionsWith (.text "*.css")).toEntries) = .ok c ∧ c.files.Nodup ∧
      resolve t (.map c.toEntries) = .ok c := by
  intro t c
  have hexpand : ∀ pattern ∈ ["*.css", "a*.css"],
      (Glob.expand t pattern).toOption = some ["a*.css"] := by
    unfold Glob.expand
    simp only [List.forall_mem_cons, List.not_mem_nil, false_implies, implies_true, and_true]
    constructor
    · rw [Glob.candidates]
      decide +kernel
    · rw [Glob.candidates]
      decide +kernel
  have hfound : ∀ pattern ∈ ["*.css", "a*.css"], Glob.expand t pattern = .ok ["a*.css"] := by
    intro pattern hpattern
    exact eq_ok_of_toOption (hexpand pattern hpattern)
  have hresolve : resolve t (.map (c.optionsWith (.text "*.css")).toEntries) = .ok c := by
    apply (resolve_optionsWith (isNormal_ofFile _) rfl).mpr
    refine ⟨["a*.css"], ?_, ?_, List.cons_ne_nil _ _, rfl⟩
    · rw [Selection.expand, Selection.expandPattern, hfound "*.css" (by simp)]
    · decide +kernel
  have hnodup : c.files.Nodup := by
    decide
  refine ⟨hresolve, hnodup, (resolve_toEntries hresolve).2 hnodup ?_⟩
  intro path hpath _
  obtain rfl := List.mem_singleton.mp hpath
  exact ⟨_, hfound "a*.css" (by simp), hpath, fun other hother _ => List.mem_singleton.mp hother⟩

/-- A file whose name is a pattern for other names is not found again. -/
theorem resolve_toEntries_ne_brackets :
    ¬ ∀ (t : FileTree) (entries : List (Value × Value)) (c : Configuration),
      resolve t (.map entries) = .ok c → resolve t (.map c.toEntries) = .ok c := by
  intro h
  let t : FileTree := ⟨[(["a[1].css"], .file [])], []⟩
  let c := ofFile "a[1].css"
  have hexpand : (Selection.expand t false (.text "*.css")).toOption = some ["a[1].css"] := by
    simp only [Selection.expand, Selection.expandPattern, Glob.expand]
    rw [Glob.candidates]
    decide +kernel
  have hresolve : resolve t (.map (c.optionsWith (.text "*.css")).toEntries) = .ok c := by
    apply (resolve_optionsWith (isNormal_ofFile _) rfl).mpr
    refine ⟨["a[1].css"], eq_ok_of_toOption hexpand, ?_, List.cons_ne_nil _ _, rfl⟩
    decide +kernel
  have hagain := h t _ c hresolve
  obtain ⟨paths, hpaths, hfiles, -, -⟩ :=
    (resolve_optionsWith (isNormal_ofFile _) rfl).mp hagain
  have hnone : (Selection.expand t false c.filesValue).toOption = some [] := by
    change (Selection.expand t false (.list [.text "a[1].css"])).toOption = some []
    simp only [Selection.expand, Value.items?, Selection.expandItems, Selection.expandItem,
      Selection.expandPattern, Glob.expand]
    rw [Glob.candidates]
    decide +kernel
  rw [hpaths] at hnone
  rw [Option.some.inj hnone] at hfiles
  cases hfiles

end Configuration

end MediaSplit
