import MediaSplit.Proofs.Files.Growing
import MediaSplit.Proofs.Splitter.Collisions
import MediaSplit.Proofs.Splitter.Reordering
import MediaSplit.Proofs.Splitter.Settling

/-!
When a run is sure to give a report. Where all sources can be read, the combined file opens, and
every copy is there already and has bytes, no schedule makes a run fail: what is written in between
closes no file that could be read. And what a run leaves has grown from what it found.
-/

namespace MediaSplit.Splitter

open FileTree TextFile Act

variable {s : Splitter} {t : FileTree}

section Growing

/-- A step of a job leaves the files alone or writes its output. -/
theorem tree_advance [Codecs] (s : Splitter) (phase : Phase) (path : String) (w : World)
    (stage : Stage) :
    (s.advance phase path w stage).2.tree = w.tree ∨
      ∃ text, (s.advance phase path w stage).2.tree =
        (TextFile.write w.tree s.configuration.encoding (s.outputPath path) text).2 := by
  cases stage with
  | finished outcome => exact Or.inl rfl
  | collected => exact Or.inl rfl
  | waiting =>
      left
      simp only [advance]
      rcases w.load_cases path with ⟨serial, sheet, -, hload⟩ |
        ⟨fault, w', -, -, htree, -, hload⟩ | ⟨sheet, w', -, -, htree, -, hload⟩
      · rw [hload]
      · rw [hload]
        exact htree
      · rw [hload]
        exact htree
  | loaded sheet =>
      left
      simp only [advance]
      obtain ⟨w', htree, -, htold | ⟨fault, -, htold⟩⟩ := s.tell_cases
        (.fileClassified phase path (s.pieceOf phase sheet).ruleCount)
        (w.note (classifiedNotice phase (s.pieceOf phase sheet).ruleCount path))
      · rw [htold]
        cases phase <;> exact htree
      · rw [htold]
        exact htree
  | classified piece =>
      right
      refine ⟨piece.text, ?_⟩
      simp only [advance, World.write]
      cases TextFile.write w.tree s.configuration.encoding (s.outputPath path) piece.text with
      | mk written tree => cases written <;> rfl
  | written piece =>
      left
      simp only [advance]
      obtain ⟨w', htree, -, htold | ⟨fault, -, htold⟩⟩ :=
        s.tell_cases (.fileWritten phase (s.outputPath path)) w
      · rw [htold]
        exact htree
      · rw [htold]
        exact htree

/-- Jobs only let the files grow. -/
def growing (t : FileTree) : Round.Invariant where
  shared tree _ := t.Grows tree ∧ tree.HasNames ∧ tree.IsRooted
  job _ _ _ _ := True

theorem growing_isKept [Codecs] (s : Splitter) (phase : Phase) (t : FileTree) :
    (growing t).IsKept s phase where
  own {path stage w} _ _ hshared _ := by
    refine ⟨?_, trivial⟩
    rcases s.tree_advance phase path w stage with htree | ⟨text, htree⟩
    · rw [htree]
      exact hshared
    · obtain ⟨hgrows, hnames, hrooted⟩ := hshared
      have hstep := grows_write hnames hrooted s.configuration.encoding (s.outputPath path) text
      rw [htree]
      exact ⟨hgrows.trans hstep, hstep.hasNames hnames, hrooted.write _ _ _⟩
  others _ _ _ _ _ _ _ _ := trivial

/-- What a run that gave a report leaves has grown from what it found. -/
theorem grows_of_report [Codecs] {report : Report} {w : World} (hnames : t.HasNames)
    (hrooted : t.IsRooted)
    (hrun : s.run.perform (World.fresh t s.configuration.encoding) = (.ok report, w)) :
    t.Grows w.tree ∧ w.tree.IsRooted := by
  obtain ⟨w₁, w₂, w₃, htree₁, hcache₁, hextract, hstrip, htree⟩ := phases_of_report hrun
  obtain ⟨-, text, htree₂⟩ := known_of_extractMedia htree₁ hcache₁ hextract
  obtain ⟨w₂', htree₂', -, htree₃, -, -⟩ := exists_round_of_writeStripped hstrip
  have hdest := grows_write hnames hrooted s.configuration.encoding s.configuration.dest text
  have hholds : (growing t).Holds s (Round.run s .strip w₂') := by
    refine Round.Invariant.holds_run (growing_isKept s .strip t) ?_ fun _ _ => trivial
    rw [htree₂', htree₂]
    exact ⟨hdest, hdest.hasNames hnames, hrooted.write _ _ _⟩
  rw [htree, htree₃]
  exact ⟨hholds.shared.1, hholds.shared.2.2⟩

end Growing

section Reporting

variable {sheetOf : String → Stylesheet}

/-- That all sources can be read, that the combined file opens and has bytes, and that every copy is
there and has bytes. -/
structure IsReady [Codecs] (s : Splitter) (t : FileTree) (sheetOf : String → Stylesheet) :
    Prop where
  working : t.entry? t.workingDirectory = some .directory
  sources : ∀ path ∈ s.configuration.files,
    Cache.load t s.configuration.encoding path = .ok (sheetOf path)
  opens : t.Opens s.configuration.dest
  encodes : ∃ bytes, written s.configuration.encoding (s.combinedOf sheetOf) = .ok bytes
  copies : ∀ path ∈ s.configuration.files, s.IsWritten sheetOf t path

/-- A first phase that has what it needs goes through. -/
theorem IsReady.extractMedia [Codecs] (h : s.IsReady t sheetOf) (hquiet : s.IsQuiet)
    (hworkers : s.hasWorkers = true) {w : World} (htree : w.tree = t)
    (hcache : w.cache = Cache.empty s.configuration.encoding) :
    ∃ combined w', s.extractMedia.perform w = (.ok combined, w') := by
  obtain ⟨hholds, hfanOut⟩ :=
    @fanOut_extract s _ hquiet hworkers (w.told (.phaseStarted .extract)) hcache
  have hextract := extractMedia_of_fanOut hquiet hfanOut
  have hended : ∀ path ∈ s.configuration.files,
      s.extraction w.tree path = .ok (s.pieceOf .extract (sheetOf path)) := by
    intro path hpath
    rw [extraction, htree, h.sources path hpath]
    rfl
  have hnone : failuresOf (s.extraction w.tree) s.configuration.files = [] :=
    failuresOf_eq_nil_iff.mpr fun path hpath => ⟨_, hended path hpath⟩
  have hread : (Round.run s .extract (w.told (.phaseStarted .extract))).world.tree = t :=
    hholds.shared.1.trans htree
  have hwritten := (write_eq_ok_iff (entry?_startOf h.working s.configuration.dest.toList)
    s.configuration.encoding (s.combinedOf sheetOf)).mpr ⟨h.opens, h.encodes⟩
  rw [World.told_tree, hnone, if_pos rfl, resultsOf_eq_map hended,
    writeCombined_of_isQuiet hquiet, hread] at hextract
  change (TextFile.write t s.configuration.encoding s.configuration.dest (combinedText _)).1 = _
    at hwritten
  rw [hextract]
  cases hwrite : TextFile.write t s.configuration.encoding s.configuration.dest (combinedText
      (s.configuration.files.eraseDups.map fun path =>
        (path, s.pieceOf .extract (sheetOf path)))) with
  | mk result tree =>
      rw [hwrite] at hwritten
      obtain rfl : result = .ok () := hwritten
      exact ⟨_, _, rfl⟩

/-- A second phase goes through where all style sheets are known and all copies can be written over
what is there. -/
theorem exists_stripped [Codecs] (hquiet : s.IsQuiet) (hworkers : s.hasWorkers = true) {w : World}
    (hworking : w.tree.entry? w.tree.workingDirectory = some .directory)
    (hcached : ∀ path ∈ s.configuration.files,
      ∃ serial, w.cache.get? path = some ⟨serial, sheetOf path⟩)
    (hcopies : ∀ path ∈ s.configuration.files, s.IsWritten sheetOf w.tree path) :
    ∃ stripped w', s.writeStripped.perform w = (.ok stripped, w') := by
  have hholds : (s.settling w.tree w.cache sheetOf).Holds s
      (Round.run s .strip (w.told (.phaseStarted .strip))) :=
    Round.Invariant.holds_run
      (settling_isKept hquiet hcached fun path _ => entry?_startOf hworking _)
      ⟨rfl, [], [], Changes.refl _ _ _⟩ fun _ _ => trivial
  obtain ⟨outcome, hended, hfanOut⟩ := fanOut_of_holds hquiet hworkers hholds
  obtain ⟨-, files, directories, hchanges⟩ := hholds.shared
  have hnone : failuresOf outcome s.configuration.files = [] := by
    refine failuresOf_eq_nil_iff.mpr fun path hpath => ?_
    have hjob := hended path hpath
    cases houtcome : outcome path with
    | ok piece => exact ⟨piece, rfl⟩
    | error fault =>
        -- what could be read still opens, so there is nothing to fail at
        rw [houtcome] at hjob
        obtain ⟨⟨content, hread⟩, hencodes⟩ := hcopies path hpath
        obtain ⟨content', hread'⟩ := hchanges.readable hread
        exact absurd ⟨opens_of_read hread', hencodes⟩ hjob
  have hstripped := writeStripped_of_fanOut hquiet hfanOut
  rw [hnone, if_pos rfl] at hstripped
  exact ⟨_, _, hstripped⟩

/-- A run that has what it needs gives a report. -/
theorem IsReady.exists_report [Codecs] (h : s.IsReady t sheetOf) (hquiet : s.IsQuiet)
    (hworkers : s.hasWorkers = true) :
    ∃ report w, s.run.perform (World.fresh t s.configuration.encoding) = (.ok report, w) := by
  rw [run_of_isQuiet hquiet]
  obtain ⟨combined, w, hextract⟩ := h.extractMedia hquiet hworkers
    (w := (World.fresh t s.configuration.encoding).told
      (.runStarted s.configuration.files s.configuration.dest)) rfl rfl
  obtain ⟨hknown, text, htree⟩ := known_of_extractMedia rfl rfl hextract
  have hchanges := changes_write t s.configuration.encoding s.configuration.dest text
  change w.tree = (TextFile.write t s.configuration.encoding s.configuration.dest text).2 at htree
  rw [← htree] at hchanges
  have hworking : w.tree.entry? w.tree.workingDirectory = some .directory := by
    rw [hchanges.workingDirectory]
    exact hchanges.directoryStays _ h.working
  have hcached : ∀ path ∈ s.configuration.files,
      ∃ serial, w.cache.get? path = some ⟨serial, sheetOf path⟩ := by
    intro path hpath
    obtain ⟨sheet, serial, hload, hget⟩ := hknown path hpath
    rw [World.told_tree] at hload
    obtain rfl : sheetOf path = sheet := Except.ok.inj ((h.sources path hpath).symm.trans hload)
    exact ⟨serial, hget⟩
  have hcopies : ∀ path ∈ s.configuration.files, s.IsWritten sheetOf w.tree path := by
    intro path hpath
    obtain ⟨⟨content, hread⟩, hencodes⟩ := h.copies path hpath
    exact ⟨hchanges.readable hread, hencodes⟩
  obtain ⟨stripped, w', hstrip⟩ := exists_stripped hquiet hworkers hworking hcached hcopies
  rw [hextract]
  simp only
  rw [hstrip]
  exact ⟨_, _, rfl⟩

end Reporting

end MediaSplit.Splitter
