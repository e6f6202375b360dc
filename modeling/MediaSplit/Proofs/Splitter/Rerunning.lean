import MediaSplit.Encoding.HostNames
import MediaSplit.Proofs.Options.Reselecting
import MediaSplit.Proofs.Splitter.Sources
import MediaSplit.Proofs.Splitter.Succeeding
import MediaSplit.Splitter.Requested

/-!
A run repeated on what it has left. The sources are as they were, so the second run has the same to
write, and all of it is there already. The same sources are selected as long as patterns come to
match no more than files that the run has made: these are the combined file and the copies, and
selection tells both. It does not tell the directories that were made on the way to them.
-/

namespace MediaSplit

namespace FileTree

variable {t t' : FileTree}

/-- That a path leads to a file where there was nothing. -/
structure IsNewFile (t t' : FileTree) (path : String) : Prop where
  readable : ∃ content, t'.read path = .ok content
  new : t.entry? (t.placeOf path) = none

/-- Nothing has changed where only files were to change that hold what they have held. -/
theorem SameFiles.of_changes {outputs : List String}
    (hchanges : Changes (outputs.map t.placeOf) (outputs.flatMap t.parentsOf) t t')
    (hheld : ∀ output ∈ outputs, ∃ content,
      t.read output = .ok content ∧ t'.read output = .ok content) : t.SameFiles t' := by
  refine ⟨hchanges.workingDirectory.symm, fun place => ?_⟩
  by_cases hplace : place ∈ outputs.map t.placeOf
  · obtain ⟨output, houtput, rfl⟩ := List.mem_map.mp hplace
    obtain ⟨content, hread, hread'⟩ := hheld output houtput
    obtain ⟨-, -, -, hentry⟩ := (read_eq_ok_iff t output content).mp hread
    obtain ⟨-, -, -, hentry'⟩ := (read_eq_ok_iff t' output content).mp hread'
    rw [hchanges.placeOf] at hentry'
    rw [hentry, hentry']
  · rcases hchanges.kept place hplace with hsame | ⟨hnone, -, hway⟩
    · exact hsame.symm
    · -- on the way to a file that can be read no directory is missing
      obtain ⟨output, houtput, hparent⟩ := List.mem_flatMap.mp hway
      obtain ⟨content, hread, -⟩ := hheld output houtput
      obtain ⟨-, hasks, hlocate, -⟩ := (read_eq_ok_iff t output content).mp hread
      rw [parents_of_locate hasks hlocate place hparent] at hnone
      cases hnone

end FileTree

namespace Splitter

open FileTree TextFile

variable {s s' : Splitter} {t : FileTree} {w w' : World}

theorem changes_of_report [Codecs] {report : Report}
    (hrun : s.run.perform (World.fresh t s.configuration.encoding) = (.ok report, w)) :
    Changes (s.outputPaths.map t.placeOf) (s.outputPaths.flatMap t.parentsOf) t w.tree := by
  have hchanges := s.changes_of_run (World.fresh t s.configuration.encoding)
  rw [hrun] at hchanges
  exact hchanges

structure Reported [Codecs] (s : Splitter) (t : FileTree) (w : World) : Prop where
  names : t.HasNames
  rooted : t.IsRooted
  resolved : s.configuration.IsResolved t
  inPlace : s.configuration.inPlace = false
  noSlash : '/' ∉ s.configuration.strippedSuffix.toList
  notExtended : ∀ path ∈ s.configuration.files, ∀ other ∈ s.configuration.files,
    ¬ t.IsExtended path other
  startsAlike : ∀ path ∈ s.configuration.files, ((Path.slashes path.toList).length = 2 ↔
    (Path.slashes s.configuration.dest.toList).length = 2)
  run : ∃ report, s.run.perform (World.fresh t s.configuration.encoding) = (.ok report, w)

namespace Reported

theorem outputPath_eq [Codecs] (h : s.Reported t w) (path : String) :
    s.outputPath path = strippedPath path s.configuration.strippedSuffix := by
  simp [outputPath, h.inPlace]

theorem head_ne [Codecs] (h : s.Reported t w) :
    s.configuration.strippedSuffix.toList.head? ≠ some '/' :=
  fun hhead => h.noSlash (List.mem_of_mem_head? hhead)

theorem grows [Codecs] (h : s.Reported t w) : t.Grows w.tree ∧ w.tree.IsRooted := by
  obtain ⟨report, hrun⟩ := h.run
  exact grows_of_report h.names h.rooted hrun

theorem changes [Codecs] (h : s.Reported t w) : Changes (s.outputPaths.map t.placeOf)
    (s.outputPaths.flatMap t.parentsOf) t w.tree := by
  obtain ⟨report, hrun⟩ := h.run
  exact changes_of_report hrun

/-- A source is read as the same style sheet after the run. -/
theorem load [Codecs] (h : s.Reported t w) {path : String} (hpath : path ∈ s.configuration.files)
    {sheet : Stylesheet} (hload : Cache.load t s.configuration.encoding path = .ok sheet) :
    Cache.load w.tree s.configuration.encoding path = .ok sheet := by
  refine Cache.load_of_read (fun content hread => h.changes.read hread fun hmem => ?_) hload
  obtain ⟨output, houtput, hplace⟩ := List.mem_map.mp hmem
  rcases List.mem_cons.mp houtput with rfl | hcopy
  · have hsame := (samePath_iff t path s.configuration.dest).mpr
      ⟨hplace.symm, h.startsAlike path hpath⟩
    rw [h.resolved.notDest path hpath] at hsame
    cases hsame
  · obtain ⟨other, -, rfl⟩ := List.mem_map.mp hcopy
    rw [h.outputPath_eq] at hplace
    exact placeOf_strippedPath_ne h.resolved h.noSlash h.rooted hpath hread other hplace

/-- What the run leaves, in terms of its style sheets. -/
theorem outputs [Codecs] (h : s.Reported t w) : ∃ sheetOf bytes content,
    (∀ path ∈ s.configuration.files,
      Cache.load t s.configuration.encoding path = .ok (sheetOf path)) ∧
    (written s.configuration.encoding (s.combinedOf sheetOf) = .ok bytes ∧
      w.tree.read s.configuration.dest = .ok content ∧
      ((∀ path ∈ s.configuration.files,
          t.placeOf (s.outputPath path) ≠ t.placeOf s.configuration.dest) → content = bytes)) ∧
    ∀ path ∈ s.configuration.files, Holds w.tree s.configuration.encoding (s.outputPath path)
      (s.copyOf sheetOf path) := by
  obtain ⟨report, hrun⟩ := h.run
  exact outputs_of_report h.resolved h.inPlace h.head_ne h.rooted.working h.notExtended hrun

/-- The run has left all that the same run needs. -/
theorem isReady [Codecs] (h : s.Reported t w) : ∃ sheetOf, s.IsReady w.tree sheetOf := by
  obtain ⟨sheetOf, bytes, content, hsource, ⟨hwritten, hread, -⟩, hcopied⟩ := h.outputs
  refine ⟨sheetOf, ?_⟩
  constructor
  case working => exact h.grows.2.working
  case sources => exact fun path hpath => h.load hpath (hsource path hpath)
  case opens => exact opens_of_read hread
  case encodes => exact ⟨bytes, hwritten⟩
  case copies =>
    intro path hpath
    obtain ⟨copied, hcopy, hreadCopy, -⟩ := hcopied path hpath
    exact ⟨⟨copied, hreadCopy⟩, copied, hcopy⟩

/-- The next run of the same configuration, if it gives a report. -/
theorem next [Codecs] (h : s.Reported t w) (hsame : s'.configuration = s.configuration)
    (hrun : ∃ report, s'.run.perform (World.fresh w.tree s.configuration.encoding) =
      (.ok report, w')) : s'.Reported w.tree w' := by
  obtain ⟨hgrows, hrooted⟩ := h.grows
  have hplace := hgrows.changes.placeOf
  constructor
  case names => exact hgrows.hasNames h.names
  case rooted => exact hrooted
  case resolved =>
    rw [hsame]
    refine ⟨h.resolved.dotless, h.resolved.suffixed, ?_, h.resolved.notCopy⟩
    rw [Selection.samePath_eq hgrows.workingDirectory]
    exact h.resolved.notDest
  case inPlace => rw [hsame, h.inPlace]
  case noSlash =>
    rw [hsame]
    exact h.noSlash
  case notExtended =>
    simp only [hsame, IsExtended, hplace]
    exact h.notExtended
  case startsAlike =>
    rw [hsame]
    exact h.startsAlike
  case run =>
    rw [hsame]
    exact hrun

/-- The next run writes what is there already. -/
theorem sameFiles [Codecs] (h : s.Reported t w) (hsame : s'.configuration = s.configuration)
    (hrun : ∃ report, s'.run.perform (World.fresh w.tree s.configuration.encoding) =
      (.ok report, w')) : w.tree.SameFiles w'.tree := by
  have h' := h.next hsame hrun
  obtain ⟨sheetOf, bytes, content, hsource, ⟨hwritten, hread, hkept⟩, hcopied⟩ := h.outputs
  obtain ⟨sheetOf', bytes', content', hsource', ⟨hwritten', hread', hkept'⟩, hcopied'⟩ := h'.outputs
  have hplace := h.grows.1.changes.placeOf
  obtain ⟨c, listener, workers, schedule⟩ := s
  obtain ⟨c', listener', workers', schedule'⟩ := s'
  obtain rfl : c' = c := hsame
  have hsheets : ∀ path ∈ c'.files, sheetOf' path = sheetOf path := fun path hpath =>
    Except.ok.inj ((hsource' path hpath).symm.trans (h.load hpath (hsource path hpath)))
  have hcopy : ∀ path ∈ c'.files, ∃ copied,
      w.tree.read (outputPath ⟨c', listener', workers', schedule'⟩ path) = .ok copied ∧
        w'.tree.read (outputPath ⟨c', listener', workers', schedule'⟩ path) = .ok copied := by
    intro path hpath
    obtain ⟨copied, hbytes, hheld, -⟩ := hcopied path hpath
    obtain ⟨copied', hbytes', hheld', -⟩ := hcopied' path hpath
    have htext : copyOf ⟨c', listener', workers', schedule'⟩ sheetOf' path =
        copyOf ⟨c', listener, workers, schedule⟩ sheetOf path := by
      rw [copyOf, hsheets path hpath]
      rfl
    rw [htext] at hbytes'
    obtain rfl := Except.ok.inj (hbytes.symm.trans hbytes')
    exact ⟨copied, hheld, hheld'⟩
  refine SameFiles.of_changes h'.changes fun output houtput => ?_
  rcases List.mem_cons.mp houtput with rfl | hmem
  · refine ⟨content, hread, ?_⟩
    by_cases hbeside : ∃ path ∈ c'.files,
        t.placeOf (outputPath ⟨c', listener, workers, schedule⟩ path) = t.placeOf c'.dest
    · -- a copy has taken the place of the combined file, in both runs
      obtain ⟨path, hpath, hover⟩ := hbeside
      obtain ⟨copied, hheld, hheld'⟩ := hcopy path hpath
      have hover' : w.tree.placeOf (outputPath ⟨c', listener', workers', schedule'⟩ path) =
          w.tree.placeOf c'.dest := by
        rw [hplace, hplace]
        exact hover
      obtain rfl := content_eq_of_placeOf_eq hover' hheld hread
      rw [← h'.changes.placeOf, ← h'.changes.placeOf] at hover'
      obtain rfl := content_eq_of_placeOf_eq hover' hheld' hread'
      exact hread'
    · obtain rfl := hkept fun path hpath hover => hbeside ⟨path, hpath, hover⟩
      obtain rfl := hkept' fun path hpath hover => hbeside ⟨path, hpath, by
        rw [hplace, hplace] at hover
        exact hover⟩
      have htext : combinedOf ⟨c', listener', workers', schedule'⟩ sheetOf' =
          combinedOf ⟨c', listener, workers, schedule⟩ sheetOf := by
        refine congrArg combinedText (List.map_congr_left fun path hpath => ?_)
        rw [hsheets path (List.mem_eraseDups.mp hpath)]
        rfl
      rw [htext] at hwritten'
      obtain rfl := Except.ok.inj (hwritten.symm.trans hwritten')
      exact hread'
  · obtain ⟨path, hpath, rfl⟩ := List.mem_map.mp hmem
    exact hcopy path hpath

end Reported

/-- A new file that a run has left is the combined file or a copy, and selection tells it by its
path. -/
theorem isTold_of_isNewFile {t' : FileTree} (hresolved : s.configuration.IsResolved t)
    (hcopies : s.configuration.inPlace = false)
    (hsuffix : '/' ∉ s.configuration.strippedSuffix.toList)
    (hchanges : Changes (s.outputPaths.map t.placeOf) (s.outputPaths.flatMap t.parentsOf) t t')
    (hrooted : t'.IsRooted) {path : String} (hnew : t.IsNewFile t' path)
    (hstart : (Path.slashes path.toList).length = 2 ↔
      (Path.slashes s.configuration.dest.toList).length = 2) :
    Selection.samePath t path s.configuration.dest = true ∨
      Selection.hasSuffix s.configuration.strippedSuffix path = true := by
  obtain ⟨⟨content, hread⟩, hnone⟩ := hnew
  obtain ⟨-, -, -, hentry⟩ := (read_eq_ok_iff _ path content).mp hread
  rw [hchanges.placeOf] at hentry
  have houtput : t.placeOf path ∈ s.outputPaths.map t.placeOf := by
    by_contra hnot
    rcases hchanges.kept _ hnot with hsame | ⟨-, hdirectory, -⟩
    · rw [hentry, hnone] at hsame
      cases hsame
    · rw [hentry] at hdirectory
      cases hdirectory
  obtain ⟨output, hmem, hplace⟩ := List.mem_map.mp houtput
  rcases List.mem_cons.mp hmem with rfl | hcopy
  · exact Or.inl ((samePath_iff t path _).mpr ⟨hplace.symm, hstart⟩)
  · right
    obtain ⟨other, -, rfl⟩ := List.mem_map.mp hcopy
    obtain ⟨name, hlast, hinfix⟩ := getLast?_placeOf_strippedPath t other hresolved.dotless
      fun hhead => hsuffix (List.mem_of_mem_head? hhead)
    have hlast' := hrooted.getLast?_placeOf hread
    rw [hchanges.placeOf, ← hplace] at hlast'
    simp only [outputPath, hcopies, Bool.false_eq_true, if_false] at hlast'
    obtain rfl := Option.some.inj (hlast.symm.trans hlast')
    rw [Path.nameOf_of_no_slash hsuffix, String.toList_ofList] at hinfix
    exact (Selection.hasSuffix_eq_true_iff hresolved.suffixed).mpr
      ((List.prefix_append _ _).isInfix.trans hinfix)

/-- All sources of a run that gave a report could be read. -/
theorem loads_of_report [Codecs] {report : Report}
    (h : s.run.perform (World.fresh t s.configuration.encoding) = (.ok report, w)) :
    ∀ path ∈ s.configuration.files, ∃ sheet,
      Cache.load t s.configuration.encoding path = .ok sheet := by
  obtain ⟨w₁, w₂, w₃, htree, hcache, hextract, -, -⟩ := phases_of_report h
  intro path hpath
  obtain ⟨sheet, serial, hload, -⟩ := (known_of_extractMedia htree hcache hextract).1 path hpath
  exact ⟨sheet, hload⟩

theorem request_of_run [Codecs] {options : Value} {c : Configuration}
    {listener : Event → Option String} {workers : Option Int} {schedule : Phase → List Nat}
    {result : Except Stop Report}
    (hresolve : Configuration.resolve t options = .ok c)
    (hrun : (Splitter.mk c listener workers schedule).run.perform (World.fresh t c.encoding) =
      (result, w)) :
    request t options listener workers schedule =
      ⟨result.mapError .stopped, w.tree, w.events⟩ := by
  simp only [request, ofOptions, hresolve, Except.map]
  rw [hrun]

/-- A request that gave a report is a run that gave it. -/
theorem exists_run_of_request [Codecs] {options : Value} {c : Configuration}
    {listener : Event → Option String} {workers : Option Int} {schedule : Phase → List Nat}
    {report : Report} (hresolve : Configuration.resolve t options = .ok c)
    (h : (request t options listener workers schedule).result = .ok report) :
    ∃ w, (Splitter.mk c listener workers schedule).run.perform (World.fresh t c.encoding) =
        (.ok report, w) ∧
      (request t options listener workers schedule).tree = w.tree := by
  cases hrun : (Splitter.mk c listener workers schedule).run.perform (World.fresh t c.encoding) with
  | mk result w =>
      have hrequest := request_of_run hresolve hrun
      rw [hrequest] at h ⊢
      cases result with
      | error stop => cases h
      | ok found =>
          obtain rfl := Except.ok.inj h
          exact ⟨w, rfl, rfl⟩

/-- That options without override are run on some files, and what the run leaves when it has given a
report. -/
structure Leaves [Codecs] (t : FileTree) (entries : List (Value × Value)) (c : Configuration)
    (after : FileTree) : Prop where
  names : t.HasNames
  rooted : t.IsRooted
  resolves : Configuration.resolve t (.map entries) = .ok c
  inPlace : c.inPlace = false
  reports : ∃ listener workers schedule report,
    (request t (.map entries) listener workers schedule).result = .ok report ∧
      (request t (.map entries) listener workers schedule).tree = after

theorem leaves_of_run [Codecs] {t after : FileTree} {entries : List (Value × Value)}
    {c : Configuration} (hnames : t.HasNames) (hrooted : t.IsRooted)
    (hresolve : Configuration.resolve t (.map entries) = .ok c) (hcopies : c.inPlace = false)
    (hrun : ((splitterFor c).run.perform (World.fresh t c.encoding)).1.isOk = true ∧
      ((splitterFor c).run.perform (World.fresh t c.encoding)).2.tree = after) :
    Leaves t entries c after := by
  refine ⟨hnames, hrooted, hresolve, hcopies, fun _ => none, none, fun _ => [0, 1, 2], ?_⟩
  cases hran : (splitterFor c).run.perform (World.fresh t c.encoding) with
  | mk result w =>
      rw [hran] at hrun
      obtain ⟨hok, rfl⟩ := hrun
      rw [request_of_run hresolve hran]
      cases result with
      | error stop => cases hok
      | ok report => exact ⟨report, rfl, rfl⟩

/-- What a file and patterns that match nothing else yet come to, before a run and after it. -/
theorem leaves_of_patterns [Codecs] {t after : FileTree} {c : Configuration}
    {patterns : List String} {before found : List (List String)} (hc : c.IsNormal)
    (hfiles : c.files = ["a.css"]) (hcopies : c.inPlace = false)
    (hkept : Selection.isKept t [] c.dest c.strippedSuffix "a.css" = true)
    (hnames : t.HasNames) (hrooted : t.IsRooted)
    (hrun : ((splitterFor c).run.perform (World.fresh t c.encoding)).1.isOk = true ∧
      ((splitterFor c).run.perform (World.fresh t c.encoding)).2.tree = after)
    (hbefore : List.Forall₂ (fun pattern found => Pattern.isMagic pattern.toList = true ∧
      (Glob.expand t pattern).toOption = some found) patterns before)
    (hnone : before.foldl Selection.addNew ["a.css"] = ["a.css"])
    (hafter : List.Forall₂ (fun pattern found => Pattern.isMagic pattern.toList = true ∧
      (Glob.expand after pattern).toOption = some found) patterns found) :
    let entries := (c.optionsWith (.list (.text "a.css" :: patterns.map .text))).toEntries
    Leaves t entries c after ∧
      (∀ path, Selection.IsGained t after false (Configuration.givenSource entries) path ↔
        path ∈ found.foldl Selection.addNew ["a.css"] ∧ path ∉ ["a.css"]) ∧
      (∀ path, ¬ Selection.IsGained t after true (Options.lastValue "ignore" entries) path) ∧
      ∀ c', Configuration.resolve after (.map entries) = .ok c' → c'.files =
        (found.foldl Selection.addNew ["a.css"]).filter
          (Selection.isKept after [] c.dest c.strippedSuffix) := by
  intro entries
  have hexpand : ∀ {t : FileTree} {found : List (List String)},
      List.Forall₂ (fun pattern found => Pattern.isMagic pattern.toList = true ∧
        (Glob.expand t pattern).toOption = some found) patterns found →
      Selection.expand t false (.list (.text "a.css" :: patterns.map .text)) =
        .ok (found.foldl Selection.addNew ["a.css"]) :=
    fun hfound => Selection.expandItems_globs hfound ["a.css"]
  have hpaths := hexpand hbefore
  have hpaths' := hexpand hafter
  rw [hnone] at hpaths
  obtain ⟨hgiven, hignore⟩ := Configuration.asks_optionsWith hc
    (rfl : Value.isGiven (.list (.text "a.css" :: patterns.map .text)) = true)
  refine ⟨leaves_of_run hnames hrooted ?_ hcopies hrun, ?_, ?_, fun c' hagain => ?_⟩
  · refine (Configuration.resolve_optionsWith hc rfl).mpr ⟨["a.css"], hpaths, ?_, ?_, rfl⟩
    · rw [hfiles, List.filter_cons_of_pos hkept, List.filter_nil]
    · rw [hfiles]
      exact List.cons_ne_nil _ _
  · rw [hgiven]
    exact Selection.isGained_iff hpaths hpaths'
  · intro path hgained
    rw [hignore] at hgained
    exact List.not_mem_nil ((@Selection.isGained_iff t after true .null [] [] rfl rfl path).mp
      hgained).1
  · obtain ⟨paths, hfound, hselected, -, -⟩ :=
      (Configuration.resolve_optionsWith hc rfl).mp hagain
    obtain rfl := Except.ok.inj (hpaths'.symm.trans hfound)
    exact hselected.symm

/-- A run that is asked for once more, on what it has left. The options resolve to the same
configuration: with the same files in the same order, and besides these at most with such as are
asked for anew and are no files that the run has made, since it is only these that selection tells.
If there are none, the second run gives a report and leaves everything as it is. This takes that the
suffix has no slash, that what is to be ignored anew does not lead to anything old, and that the old
and the new sources have two slashes at their start just when the combined file has; and for the
second run that no source is another one with the extension added, since such two have one copy. -/
theorem harmless_again [Codecs] {t after : FileTree} {entries : List (Value × Value)}
    {c : Configuration} (h : Leaves t entries c after) (hsuffix : '/' ∉ c.strippedSuffix.toList)
    (hignore : ∀ path, Selection.IsGained t after true (Options.lastValue "ignore" entries) path →
      t.entry? (t.placeOf path) = none)
    (hstart : ∀ path, path ∈ c.files ∨
        Selection.IsGained t after false (Configuration.givenSource entries) path →
      ((Path.slashes path.toList).length = 2 ↔ (Path.slashes c.dest.toList).length = 2)) :
    ∃ files, Configuration.resolve after (.map entries) = .ok { c with files := files } ∧
      files.filter t.exists? = c.files ∧
      (∀ path ∈ files, t.exists? path = false →
        Selection.IsGained t after false (Configuration.givenSource entries) path ∧
          ¬ Selection.IsIgnored after (Options.lastValue "ignore" entries) path ∧
          ¬ t.IsNewFile after path) ∧
      (files = c.files → (∀ path ∈ c.files, ∀ other ∈ c.files, ¬ t.IsExtended path other) →
        ∀ (listener : Event → Option String) (workers : Option Int) (schedule : Phase → List Nat),
          (∀ e, listener e = none) → (∀ n, workers = some n → 0 ≤ n) →
          ∃ report, (request after (.map entries) listener workers schedule).result = .ok report ∧
            after.SameFiles (request after (.map entries) listener workers schedule).tree) := by
  obtain ⟨hnames, hrooted, hresolve, hcopies, listener, workers, schedule, report, hfirst, rfl⟩ := h
  obtain ⟨w, hrun, htree⟩ := exists_run_of_request hresolve hfirst
  rw [htree] at hignore hstart ⊢
  have hresolved := Configuration.isResolved_of_resolve hresolve
  obtain ⟨hgrows, hrooted'⟩ := grows_of_report hnames hrooted hrun
  have hthere : ∀ path ∈ c.files, t.exists? path = true := by
    intro path hpath
    obtain ⟨sheet, hload⟩ := loads_of_report hrun path hpath
    obtain ⟨content, -, -, hread, -⟩ := Cache.load_eq_ok hload
    exact exists?_of_read hread
  obtain ⟨files, hagain, hfiles, hmore⟩ :=
    Configuration.resolve_of_grows hgrows hnames hrooted hresolve hthere hignore
  refine ⟨files, hagain, hfiles, fun path hpath hnot => ?_, ?_⟩
  · obtain ⟨hgained, hnotIgnored, hnotDest, hnotCopy⟩ := hmore path hpath hnot
    refine ⟨hgained, hnotIgnored, fun hnew => ?_⟩
    rcases isTold_of_isNewFile hresolved hcopies hsuffix (changes_of_report hrun) hrooted' hnew
      (hstart path (Or.inr hgained)) with hdest | hcopy
    · rw [hdest] at hnotDest
      cases hnotDest
    · rw [hcopy] at hnotCopy
      cases hnotCopy
  · rintro rfl hextended listener' workers' schedule' hquiet hworkers
    have hreported : Reported ⟨c, listener, workers, schedule⟩ t w := by
      constructor
      case names => exact hnames
      case rooted => exact hrooted
      case resolved => exact hresolved
      case inPlace => exact hcopies
      case noSlash => exact hsuffix
      case notExtended => exact hextended
      case startsAlike => exact fun path hpath => hstart path (Or.inl hpath)
      case run => exact ⟨report, hrun⟩
    obtain ⟨sheetOf, hready⟩ := hreported.isReady
    have hready' : IsReady ⟨c, listener', workers', schedule'⟩ w.tree sheetOf :=
      ⟨hready.working, hready.sources, hready.opens, hready.encodes, hready.copies⟩
    have hstaffed : hasWorkers ⟨c, listener', workers', schedule'⟩ = true := by
      simp only [hasWorkers]
      cases workers' with
      | none => rfl
      | some n => exact decide_eq_true (hworkers n rfl)
    obtain ⟨report', w', hrun'⟩ := hready'.exists_report hquiet hstaffed
    have hsame : (Splitter.mk c listener' workers' schedule').configuration = c := rfl
    rw [request_of_run hagain hrun']
    exact ⟨report', rfl, hreported.sameFiles hsame ⟨report', hrun'⟩⟩

/-- Patterns that come to match the combined file and the copy do no harm. -/
theorem harmless_again_of_patterns :
    let t := treeOf [["a.css"]]
    let after : FileTree := ((t.put ["o.css"] (.file [])).put ["a.stripped.css"]
      (.file "a\x7b\x7d".toUTF8.toList))
    let c := Configuration.ofFile "a.css"
    let entries := (c.optionsWith (.list [.text "a.css", .text "o*", .text "*.s*"])).toEntries
    Leaves t entries c after ∧
      Selection.IsGained t after false (Configuration.givenSource entries) "o.css" ∧
      Selection.IsGained t after false (Configuration.givenSource entries) "a.stripped.css" ∧
      Configuration.resolve after (.map entries) = .ok c ∧
      let again := request after (.map entries) (fun _ => none) (some 4) fun _ => [0]
      ∃ report, again.result = .ok report ∧ after.SameFiles again.tree := by
  intro t after c entries
  have hbefore : ∀ pattern ∈ ["o*", "*.s*"], (Glob.expand t pattern).toOption = some [] := by
    simp only [List.forall_mem_cons, List.not_mem_nil, false_implies, implies_true, and_true]
    unfold Glob.expand
    constructor
    all_goals
      rw [Glob.candidates]
      decide +kernel
  have hcombined : (Glob.expand after "o*").toOption = some ["o.css"] := by
    unfold Glob.expand
    rw [Glob.candidates]
    decide +kernel
  have hcopy : (Glob.expand after "*.s*").toOption = some ["a.stripped.css"] := by
    unfold Glob.expand
    rw [Glob.candidates]
    decide +kernel
  obtain ⟨hleaves, hgained, hnotIgnored, -⟩ := leaves_of_patterns
    (Configuration.isNormal_ofFile "a.css") rfl rfl (by decide +kernel) (by decide : t.HasNames)
    (IsRooted.of_entries rfl (by decide)) (by decide +kernel)
    (.cons ⟨rfl, hbefore "o*" (by simp)⟩ (.cons ⟨rfl, hbefore "*.s*" (by simp)⟩ .nil)) rfl
    (.cons ⟨rfl, hcombined⟩ (.cons ⟨rfl, hcopy⟩ .nil))
  have hnew : ∀ path ∈ ["o.css", "a.stripped.css"], t.IsNewFile after path ∧
      (Path.slashes path.toList).length ≠ 2 := by
    simp only [List.forall_mem_cons, List.not_mem_nil, false_implies, implies_true, and_true]
    exact ⟨⟨⟨⟨_, rfl⟩, by decide⟩, by decide⟩, ⟨⟨_, rfl⟩, by decide⟩, by decide⟩
  have hmem : ∀ path, Selection.IsGained t after false (Configuration.givenSource entries) path →
      path ∈ ["o.css", "a.stripped.css"] := by
    intro path hpath
    obtain ⟨hfound, hfresh⟩ := (hgained path).mp hpath
    exact (List.mem_cons.mp hfound).resolve_left fun heq => hfresh (List.mem_singleton.mpr heq)
  obtain ⟨files, hagain, hold, hmore, hsecond⟩ := harmless_again hleaves (by decide)
    (fun path hpath => absurd hpath (hnotIgnored path)) (by
      rintro path (hpath | hpath)
      · obtain rfl := List.mem_singleton.mp hpath
        decide
      · have hslashes := (hnew path (hmem path hpath)).2
        have hdest : (Path.slashes c.dest.toList).length ≠ 2 := by decide
        exact iff_of_false hslashes hdest)
  have hfiles : files = c.files := by
    rw [← hold, eq_comm, List.filter_eq_self]
    intro path hpath
    by_contra hnot
    obtain ⟨hanew, -, hnotNew⟩ := hmore path hpath (Bool.not_eq_true _ ▸ hnot)
    exact hnotNew (hnew path (hmem path hanew)).1
  rw [hfiles] at hagain
  refine ⟨hleaves, (hgained _).mpr (by decide), (hgained _).mpr (by decide), hagain, ?_⟩
  refine hsecond hfiles ?_ (fun _ => none) (some 4) (fun _ => [0]) (fun _ => rfl) ?_
  · change ∀ path ∈ ["a.css"], ∀ other ∈ ["a.css"], ¬ t.IsExtended path other
    decide
  · intro n hn
    obtain rfl := Option.some.inj hn
    decide

private theorem eq_of_mem_addNew {paths : List String} {found path : String}
    (h : path ∈ [[found]].foldl Selection.addNew paths ∧ path ∉ paths) : path = found :=
  List.mem_singleton.mp ((Selection.mem_addNew.mp h.1).resolve_left h.2)

/-- A directory that a run has made is matched as a source. -/
private theorem not_selected_beside_directory :
    ¬ ∀ t entries c after, Leaves t entries c after →
      ∃ c', Configuration.resolve after (.map entries) = .ok c' ∧ c'.files = c.files := by
  intro h
  let t := treeOf [["a.css"]]
  let content := "a\x7b\x7d".toUTF8.toList
  have hnormal := Configuration.isNormal_ofFile "a.css"
  have hrooted : t.IsRooted := IsRooted.of_entries rfl (by decide)
  let c : Configuration := { Configuration.ofFile "a.css" with dest := "d/o.css" }
  let after : FileTree := ((t.put ["d"] .directory).put ["d", "o.css"] (.file [])).put
    ["a.stripped.css"] (.file content)
  have hc : c.IsNormal := ⟨hnormal.someWidth, hnormal.widths, hnormal.extract, by decide,
    hnormal.suffixed, hnormal.clean, hnormal.encoded, hnormal.known⟩
  have hbefore : (Glob.expand t "d*").toOption = some [] := by
    unfold Glob.expand
    rw [Glob.candidates]
    decide +kernel
  have hafter : (Glob.expand after "d*").toOption = some ["d"] := by
    unfold Glob.expand
    rw [Glob.candidates]
    decide +kernel
  obtain ⟨hleaves, -, -, hselected⟩ := leaves_of_patterns hc rfl rfl (by decide +kernel)
    (by decide) hrooted (by decide +kernel) (.cons ⟨rfl, hbefore⟩ .nil) rfl
    (.cons ⟨rfl, hafter⟩ .nil)
  obtain ⟨c', hagain, hfiles⟩ := h t _ c after hleaves
  have hboth := (hselected c' hagain).symm.trans hfiles
  revert hboth
  decide +kernel

/-- A copy is matched that lies in a directory of its own, since the suffix starts with a slash. -/
private theorem not_selected_beside_copy :
    ¬ ∀ t entries c after, Leaves t entries c after →
      (∀ path, Selection.IsGained t after false (Configuration.givenSource entries) path →
        t.IsNewFile after path) →
      ∃ c', Configuration.resolve after (.map entries) = .ok c' ∧ c'.files = c.files := by
  intro h
  let t := treeOf [["a.css"]]
  let content := "a\x7b\x7d".toUTF8.toList
  have hnormal := Configuration.isNormal_ofFile "a.css"
  have hrooted : t.IsRooted := IsRooted.of_entries rfl (by decide)
  let c : Configuration := { Configuration.ofFile "a.css" with strippedSuffix := "/x" }
  let after : FileTree := ((t.put ["o.css"] (.file [])).put ["a."] .directory).put
    ["a.", "x.css"] (.file content)
  have hc : c.IsNormal := ⟨hnormal.someWidth, hnormal.widths, hnormal.extract, hnormal.dest,
    by decide, by decide, hnormal.encoded, hnormal.known⟩
  have hbefore : (Glob.expand t "a./x*").toOption = some [] := by
    unfold Glob.expand
    rw [Glob.candidates]
    decide +kernel
  have hafter : (Glob.expand after "a./x*").toOption = some ["a./x.css"] := by
    unfold Glob.expand
    rw [Glob.candidates]
    decide +kernel
  obtain ⟨hleaves, hgained, -, hselected⟩ := leaves_of_patterns hc rfl rfl (by decide +kernel)
    (by decide) hrooted (by decide +kernel) (.cons ⟨rfl, hbefore⟩ .nil) rfl
    (.cons ⟨rfl, hafter⟩ .nil)
  have hnew : ∀ path, Selection.IsGained t after false (Configuration.givenSource
      (c.optionsWith (.list [.text "a.css", .text "a./x*"])).toEntries) path →
      t.IsNewFile after path := by
    intro path hpath
    obtain rfl := eq_of_mem_addNew ((hgained path).mp hpath)
    exact ⟨⟨content, rfl⟩, by decide⟩
  obtain ⟨c', hagain, hfiles⟩ := h t _ c after hleaves hnew
  have hboth := (hselected c' hagain).symm.trans hfiles
  revert hboth
  decide +kernel

/-- A directory that a run has made leads to a source that is to be ignored then. -/
private theorem not_selected_once_ignored :
    ¬ ∀ t entries c after, Leaves t entries c after → '/' ∉ c.strippedSuffix.toList →
      (∀ path, ¬ Selection.IsGained t after false (Configuration.givenSource entries) path) →
      ∃ c', Configuration.resolve after (.map entries) = .ok c' ∧ c'.files = c.files := by
  intro h
  let t := treeOf [["a.css"]]
  let content := "a\x7b\x7d".toUTF8.toList
  have hrooted : t.IsRooted := IsRooted.of_entries rfl (by decide)
  let entries : List (Value × Value) := [(.text "files", .list [.text "a.css"]),
    (.text "ignore", .list [.text "d/../a.css"]), (.text "dest", .text "d/o.css"),
    (.text "widths", .text "8")]
  let after : FileTree := ((t.put ["d"] .directory).put ["d", "o.css"] (.file [])).put
    ["a.stripped.css"] (.file content)
  obtain ⟨c, hresolve, hvalues⟩ := @exists_of_toOption_map _ _ _
    (Configuration.resolve t (.map entries)) (fun c => (c.inPlace, c.strippedSuffix,
      ((splitterFor c).run.perform (World.fresh t c.encoding)).1.isOk,
      ((splitterFor c).run.perform (World.fresh t c.encoding)).2.tree))
    (false, "stripped", true, after) (by decide +kernel)
  simp only [Prod.mk.injEq] at hvalues
  obtain ⟨hcopies, hsuffix, hran⟩ := hvalues
  have hpaths : ∀ t' : FileTree,
      Selection.expand t' false (Configuration.givenSource entries) = .ok ["a.css"] :=
    fun _ => rfl
  obtain ⟨c', hagain, -⟩ := h t entries c after
    (leaves_of_run (by decide) hrooted hresolve hcopies hran) (by rw [hsuffix]; decide)
    fun path hgained => ((Selection.isGained_iff (hpaths t) (hpaths after) path).mp hgained).elim
      fun hmem hnew => hnew hmem
  have hnone : (Configuration.resolve after (.map entries)).isOk = false := by decide +kernel
  rw [hagain] at hnone
  cases hnone

/-- The combined file is matched by a path with one slash more at its start, which selection takes
for another one. -/
private theorem not_selected_behind_slashes :
    ¬ ∀ t entries c after, Leaves t entries c after → '/' ∉ c.strippedSuffix.toList →
      (∀ path, ¬ Selection.IsGained t after true (Options.lastValue "ignore" entries) path) →
      (∀ path, Selection.IsGained t after false (Configuration.givenSource entries) path →
        t.IsNewFile after path) →
      ∃ c', Configuration.resolve after (.map entries) = .ok c' ∧ c'.files = c.files := by
  intro h
  let t := treeOf [["a.css"]]
  let content := "a\x7b\x7d".toUTF8.toList
  have hnormal := Configuration.isNormal_ofFile "a.css"
  have hrooted : t.IsRooted := IsRooted.of_entries rfl (by decide)
  let c : Configuration := { Configuration.ofFile "a.css" with dest := "/o.css" }
  let after : FileTree := (t.put ["o.css"] (.file [])).put ["a.stripped.css"] (.file content)
  have hc : c.IsNormal := ⟨hnormal.someWidth, hnormal.widths, hnormal.extract, by decide,
    hnormal.suffixed, hnormal.clean, hnormal.encoded, hnormal.known⟩
  have hbefore : (Glob.expand t "//o*").toOption = some [] := by
    unfold Glob.expand
    rw [Glob.candidates]
    decide +kernel
  have hafter : (Glob.expand after "//o*").toOption = some ["//o.css"] := by
    unfold Glob.expand
    rw [Glob.candidates]
    decide +kernel
  obtain ⟨hleaves, hgained, hnotIgnored, hselected⟩ := leaves_of_patterns hc rfl rfl
    (by decide +kernel) (by decide) hrooted (by decide +kernel) (.cons ⟨rfl, hbefore⟩ .nil) rfl
    (.cons ⟨rfl, hafter⟩ .nil)
  have hnew : ∀ path, Selection.IsGained t after false (Configuration.givenSource
      (c.optionsWith (.list [.text "a.css", .text "//o*"])).toEntries) path →
      t.IsNewFile after path := by
    intro path hpath
    obtain rfl := eq_of_mem_addNew ((hgained path).mp hpath)
    exact ⟨⟨[], rfl⟩, by decide⟩
  obtain ⟨c', hagain, hfiles⟩ := h t _ c after hleaves (by decide) hnotIgnored hnew
  have hboth := (hselected c' hagain).symm.trans hfiles
  revert hboth
  decide +kernel

/-- Of two sources with one copy the one that is written last stays, and in the next run this can be
the other one. -/
private theorem not_sameFiles_of_one_copy :
    ¬ ∀ t entries c after, Leaves t entries c after →
      Configuration.resolve after (.map entries) = .ok c → ∀ schedule,
        after.SameFiles (request after (.map entries) (fun _ => none) none schedule).tree := by
  intro h
  have hnormal := Configuration.isNormal_ofFile "a.css"
  let t := (treeOf [["a"]]).put ["a.css"] (.file "b\x7b\x7d".toUTF8.toList)
  let c : Configuration := { Configuration.ofFile "a.css" with files := ["a", "a.css"] }
  let after : FileTree := (t.put ["o.css"] (.file "\n".toUTF8.toList)).put ["a.stripped.css"]
    (.file "b\x7b\x7d".toUTF8.toList)
  have hc : c.IsNormal := ⟨hnormal.someWidth, hnormal.widths, hnormal.extract, hnormal.dest,
    hnormal.suffixed, hnormal.clean, hnormal.encoded, hnormal.known⟩
  have hresolve : ∀ t', Selection.isKept t' [] c.dest c.strippedSuffix "a" = true →
      Selection.isKept t' [] c.dest c.strippedSuffix "a.css" = true →
      Configuration.resolve t' (.map c.toEntries) = .ok c := by
    intro t' hfirst hsecond
    refine (Configuration.resolve_optionsWith hc rfl).mpr
      ⟨["a", "a.css"], rfl, ?_, List.cons_ne_nil _ _, rfl⟩
    rw [List.filter_cons_of_pos hfirst, List.filter_cons_of_pos hsecond, List.filter_nil]
  have hleaves : Leaves t c.toEntries c after := leaves_of_run (by decide)
    (IsRooted.of_entries rfl (by decide)) (hresolve t (by decide +kernel) (by decide +kernel)) rfl
    (by decide +kernel)
  have hagain := hresolve after (by decide +kernel) (by decide +kernel)
  have hsame := h t _ c after hleaves hagain fun _ => [1, 1, 1, 1]
  have hentry := hsame.entry ["a.stripped.css"]
  rw [request_of_run hagain (Prod.mk.eta).symm] at hentry
  revert hentry
  decide +kernel

/-- Neither half holds of all runs. A directory that a run has made can be matched as a source, or
lead to a source that is to be ignored then, a copy can be matched when the suffix has a slash, and
the combined file when the path has two slashes at its start; and of two sources with one copy the
last one that is written stays. -/
theorem not_harmless_again :
    (¬ ∀ t entries c after, Leaves t entries c after →
      ∃ c', Configuration.resolve after (.map entries) = .ok c' ∧ c'.files = c.files) ∧
    (¬ ∀ t entries c after, Leaves t entries c after →
      (∀ path, Selection.IsGained t after false (Configuration.givenSource entries) path →
        t.IsNewFile after path) →
      ∃ c', Configuration.resolve after (.map entries) = .ok c' ∧ c'.files = c.files) ∧
    (¬ ∀ t entries c after, Leaves t entries c after → '/' ∉ c.strippedSuffix.toList →
      (∀ path, ¬ Selection.IsGained t after false (Configuration.givenSource entries) path) →
      ∃ c', Configuration.resolve after (.map entries) = .ok c' ∧ c'.files = c.files) ∧
    (¬ ∀ t entries c after, Leaves t entries c after → '/' ∉ c.strippedSuffix.toList →
      (∀ path, ¬ Selection.IsGained t after true (Options.lastValue "ignore" entries) path) →
      (∀ path, Selection.IsGained t after false (Configuration.givenSource entries) path →
        t.IsNewFile after path) →
      ∃ c', Configuration.resolve after (.map entries) = .ok c' ∧ c'.files = c.files) ∧
    ¬ ∀ t entries c after, Leaves t entries c after →
      Configuration.resolve after (.map entries) = .ok c → ∀ schedule,
        after.SameFiles (request after (.map entries) (fun _ => none) none schedule).tree :=
  ⟨not_selected_beside_directory, not_selected_beside_copy, not_selected_once_ignored,
    not_selected_behind_slashes, not_sameFiles_of_one_copy⟩

end Splitter

end MediaSplit
