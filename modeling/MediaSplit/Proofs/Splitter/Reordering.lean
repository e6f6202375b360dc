import MediaSplit.Encoding.HostNames
import MediaSplit.Proofs.Splitter.Mixing

/-!
Runs under different schedules. When no event is refused and the outputs are apart, the schedule
decides nothing but the order in which the events of files are told inside a phase: a run gives the
same report or stops for the same reason, and leaves the same files.
-/

namespace MediaSplit

inductive Reordered : List Event → List Event → Prop where
  | refl (events : List Event) : Reordered events events
  | ofFiles {phase : Phase} {events events' : List Event}
      (files : ∀ e ∈ events, e.isOfFile phase = true) (perm : events.Perm events') :
      Reordered events events'
  | append {first first' second second' : List Event} (front : Reordered first first')
      (back : Reordered second second') : Reordered (first ++ second) (first' ++ second')

structure FileTree.SameFiles (t t' : FileTree) : Prop where
  workingDirectory : t.workingDirectory = t'.workingDirectory
  entry : ∀ place, t.entry? place = t'.entry? place

theorem FileTree.SameFiles.of_eq {t t' : FileTree} (h : t = t') : t.SameFiles t' :=
  ⟨congrArg _ h, fun _ => by rw [h]⟩

theorem World.events_withTree (w : World) (t : FileTree) : { w with tree := t }.events = w.events :=
  rfl

namespace Round

variable {s : Splitter} {phase : Phase}

/-- What a phase tells of files, when it is known what it tells in all. -/
theorem told_of_perm [Codecs] {w : World} {left : List Event}
    (h : (run s phase w).world.events.Perm (w.events ++ left)) :
    ∃ told, (run s phase w).world.events = w.events ++ told ∧
      (∀ e ∈ told, e.isOfFile phase = true) ∧ told.Perm left := by
  obtain ⟨told, htold, hfiles⟩ := events_run s phase w
  rw [htold] at h
  exact ⟨told, htold, hfiles, (List.perm_append_left_iff _).mp h⟩

/-- Two runs of a phase that have the same to tell differ in the order of it only. -/
theorem reordered_run [Codecs] {s' : Splitter} {w w' : World} {left : List Event}
    (hevents : Reordered w.events w'.events)
    (h : (run s phase w).world.events.Perm (w.events ++ left))
    (h' : (run s' phase w').world.events.Perm (w'.events ++ left)) :
    Reordered (run s phase w).world.events (run s' phase w').world.events := by
  obtain ⟨told, htold, hfiles, hperm⟩ := told_of_perm h
  obtain ⟨told', htold', -, hperm'⟩ := told_of_perm h'
  rw [htold, htold']
  exact hevents.append (.ofFiles hfiles (hperm.trans hperm'.symm))

end Round

namespace Splitter

open FileTree TextFile Act

/-- The same configuration and listener, with other workers and another schedule. -/
def rescheduled (s : Splitter) (workers : Option Int) (schedule : Phase → List Nat) : Splitter :=
  { s with workers := workers, schedule := schedule }

variable {s : Splitter} {workers : Option Int} {schedule : Phase → List Nat} {w w' : World}

theorem reordered_told (h : Reordered w.events w'.events) (e : Event) :
    Reordered (w.told e).events (w'.told e).events := by
  rw [World.told_events, World.told_events]
  exact h.append (.refl [e])

/-- What the job of a source has to tell in the first phase, from where it stands. -/
def leftToExtract [Codecs] (s : Splitter) (t : FileTree) (path : String) : Stage → List Event
  | .waiting =>
      match s.extraction t path with
      | .ok piece => [.fileClassified .extract path piece.ruleCount]
      | .error fault => [.fileFailed .extract path fault.message]
  | .loaded sheet => [.fileClassified .extract path (s.pieceOf .extract sheet).ruleCount]
  | .classified _ | .written _ => []
  | .finished outcome => Round.collectEvents .extract path outcome
  | .collected => []

private theorem reading_foretells [Codecs] (hquiet : s.IsQuiet) (t : FileTree) :
    (s.reading t (Cache.empty s.configuration.encoding)).Foretells s .extract
      (s.leftToExtract t) where
  step {path stage w} _ hunderway hshared hjob := by
    obtain ⟨htree, hencoding, hsource⟩ := hshared
    cases stage with
    | finished outcome => cases hunderway
    | collected => cases hunderway
    | classified piece => exact hjob.elim
    | written piece => exact hjob.elim
    | loaded sheet =>
        simp only [advance, tell_of_isQuiet hquiet]
        rfl
    | waiting =>
        have hload : ∀ {result : Except Fault Stylesheet},
            Cache.load w.tree w.cache.encoding path = result →
            s.extraction t path = result.map (s.pieceOf .extract) := by
          rintro result rfl
          rw [extraction, htree, hencoding]
          rfl
        simp only [advance]
        rcases w.load_cases path with ⟨serial, sheet, hget, hloaded⟩ |
          ⟨fault, w', -, hfault, -, -, hloaded⟩ | ⟨sheet, w', -, hsheet, -, -, hloaded⟩
        · rcases hsource path _ hget with hcached | hsheet
          · cases hcached
          · rw [hloaded, leftToExtract, extraction]
            change Cache.load t s.configuration.encoding path = _ at hsheet
            rw [hsheet]
            rfl
        · rw [hloaded, leftToExtract, hload hfault]
          rfl
        · rw [hloaded, leftToExtract, hload hsheet]
          rfl
  finished _ _ := rfl
  collected _ := rfl

/-- The events of the first phase, from an empty cache. -/
theorem events_extract [Codecs] (hquiet : s.IsQuiet)
    (hcache : w.cache = Cache.empty s.configuration.encoding) :
    (Round.run s .extract w).world.events.Perm (w.events ++ s.configuration.files.flatMap
      fun path => s.leftToExtract w.tree path .waiting) := by
  refine Round.events_run_perm (s.reading_isKept w.tree (Cache.empty s.configuration.encoding))
    (reading_foretells hquiet w.tree) hquiet ⟨rfl, ?_, ?_⟩ fun _ _ => trivial
  · rw [hcache]
  · rw [hcache]
    exact fun path parsed hget => Or.inl hget

theorem writeCombined_of_isQuiet [Codecs] (hquiet : s.IsQuiet) (text : String) (w : World) :
    (s.writeCombined text).perform w =
      match TextFile.write w.tree s.configuration.encoding s.configuration.dest text with
      | (.ok (), tree) => (.ok (), { w with tree := tree })
      | (.error fault, tree) =>
          if fault.isOfWriting then
            (.error (.phase ⟨.extract, [⟨s.configuration.dest, fault⟩]⟩),
              ((({ w with tree := tree } : World).note
                (.cannotWrite s.configuration.dest fault.message)).told
                  (.fileFailed .extract s.configuration.dest fault.message)).told
                    (.phaseFailed .extract
                      (PhaseError.message ⟨.extract, [⟨s.configuration.dest, fault⟩]⟩)))
          else (.error (.escaped fault), { w with tree := tree }) := by
  unfold writeCombined
  simp only [perform_bind, perform_mk, World.write]
  cases TextFile.write w.tree s.configuration.encoding s.configuration.dest text with
  | mk written tree =>
      cases written with
      | ok _ => rfl
      | error fault =>
          simp only
          split
          · simp only [perform_bind, orEscape, perform_mk, announce_of_isQuiet hquiet]
            exact fail_of_isQuiet hquiet _ _ _
          · rfl

/-- Writing the combined file does alike whatever the order was of what was told before. -/
private theorem writeCombined_alike [Codecs] (hquiet : s.IsQuiet) (text : String)
    (htree : w.tree = w'.tree) (hevents : Reordered w.events w'.events) :
    let first := (s.writeCombined text).perform w
    let second := (s.writeCombined text).perform w'
    first.1 = second.1 ∧ first.2.tree = second.2.tree ∧
      Reordered first.2.events second.2.events := by
  intro first second
  have hfirst : first = _ := writeCombined_of_isQuiet hquiet text w
  have hsecond : second = _ := writeCombined_of_isQuiet hquiet text w'
  rw [hfirst, hsecond, htree]
  cases TextFile.write w'.tree s.configuration.encoding s.configuration.dest text with
  | mk written tree =>
      cases written with
      | ok _ => exact ⟨rfl, rfl, hevents⟩
      | error fault =>
          simp only
          split
          · refine ⟨rfl, rfl, reordered_told (reordered_told ?_ _) _⟩
            rw [World.events_note, World.events_note]
            exact hevents
          · exact ⟨rfl, rfl, hevents⟩

/-- The first phase does alike under every schedule. -/
theorem extractMedia_alike [Codecs] (hquiet : s.IsQuiet) (hworkers : s.hasWorkers = true)
    (hworkers' : (s.rescheduled workers schedule).hasWorkers = true) (htree : w'.tree = w.tree)
    (hcache : w.cache = Cache.empty s.configuration.encoding)
    (hcache' : w'.cache = Cache.empty s.configuration.encoding)
    (hevents : Reordered w.events w'.events) :
    let first := s.extractMedia.perform w
    let second := (s.rescheduled workers schedule).extractMedia.perform w'
    first.1 = second.1 ∧ first.2.tree = second.2.tree ∧
      Reordered first.2.events second.2.events := by
  have hquiet' : (s.rescheduled workers schedule).IsQuiet := hquiet
  let v := w.told (.phaseStarted .extract)
  let v' := w'.told (.phaseStarted .extract)
  have hvtree : v'.tree = v.tree := htree
  obtain ⟨hholds, hfanOut⟩ := @fanOut_extract s _ hquiet hworkers v hcache
  obtain ⟨hholds', hfanOut'⟩ :=
    @fanOut_extract (s.rescheduled workers schedule) _ hquiet' hworkers' v' hcache'
  have hleft := @events_extract s v _ hquiet hcache
  have hleft' := @events_extract (s.rescheduled workers schedule) v' _ hquiet' hcache'
  rw [hvtree] at hfanOut' hleft'
  have hrun := Round.reordered_run (reordered_told hevents _) hleft hleft'
  have hruntree : (Round.run s .extract v).world.tree = w.tree := hholds.shared.1
  have hruntree' : (Round.run (s.rescheduled workers schedule) .extract v').world.tree = w.tree :=
    hholds'.shared.1.trans htree
  intro first second
  have hfirst : first = _ := extractMedia_of_fanOut hquiet hfanOut
  have hsecond : second = _ := extractMedia_of_fanOut hquiet' hfanOut'
  rw [hfirst, hsecond]
  generalize (Round.run s .extract v).world = u at hrun hruntree
  generalize (Round.run (s.rescheduled workers schedule) .extract v').world = u' at hrun hruntree'
  by_cases hnone : failuresOf (s.extraction v.tree) s.configuration.files = []
  · have hnone' : failuresOf ((s.rescheduled workers schedule).extraction v.tree)
        (s.rescheduled workers schedule).configuration.files = [] := hnone
    have hwritten := @writeCombined_alike s u u' _ hquiet
      (combinedText (resultsOf (s.extraction v.tree) s.configuration.files))
      (hruntree.trans hruntree'.symm) hrun
    have hcombine : (s.rescheduled workers schedule).writeCombined
        (combinedText (resultsOf ((s.rescheduled workers schedule).extraction v.tree)
          (s.rescheduled workers schedule).configuration.files)) =
        s.writeCombined (combinedText (resultsOf (s.extraction v.tree) s.configuration.files)) :=
      rfl
    rw [if_pos hnone, if_pos hnone', hcombine]
    generalize (s.writeCombined _).perform u = written at hwritten
    generalize (s.writeCombined _).perform u' = written' at hwritten
    obtain ⟨result, u₁⟩ := written
    obtain ⟨result', u₁'⟩ := written'
    obtain ⟨hresult, htree₁, hevents₁⟩ := hwritten
    obtain rfl : result = result' := hresult
    cases result with
    | error stop => exact ⟨rfl, htree₁, hevents₁⟩
    | ok _ => exact ⟨rfl, htree₁, reordered_told (reordered_told hevents₁ _) _⟩
  · have hnone' : ¬ failuresOf ((s.rescheduled workers schedule).extraction v.tree)
        (s.rescheduled workers schedule).configuration.files = [] := hnone
    rw [if_neg hnone, if_neg hnone']
    exact ⟨rfl, hruntree.trans hruntree'.symm, reordered_told hrun _⟩

/-- The copies are apart once the sources have been found and their places are. -/
theorem areApart_copies {t : FileTree} (sheetOf : String → Stylesheet) (hrooted : t.IsRooted)
    (hfound : ∀ path ∈ s.configuration.files, ∀ place ∈ t.parentsOf path,
      t.entry? place = some .directory)
    (hapart : ∀ path ∈ s.configuration.files, ∀ other ∈ s.configuration.files, path ≠ other →
      ¬ t.placeOf (s.outputPath path) <+: t.placeOf (s.outputPath other)) :
    AreApart t (s.copies sheetOf) := by
  have hdown : ∀ path ∈ s.configuration.files, t.OnlyDown (s.outputPath path) := by
    intro path hpath
    unfold outputPath
    split
    · exact onlyDown_of_parents (hfound path hpath)
    · exact onlyDown_strippedPath hrooted _ (hfound path hpath)
  refine ⟨hrooted, ?_, ?_, ?_⟩
  · intro order horder
    obtain ⟨path, hpath, rfl⟩ := List.mem_map.mp horder
    exact (hdown path hpath).down
  · intro order horder
    obtain ⟨path, hpath, rfl⟩ := List.mem_map.mp horder
    exact (hdown path hpath).ways
  · intro order horder other hother hne
    obtain ⟨path, hpath, rfl⟩ := List.mem_map.mp horder
    obtain ⟨path', hpath', rfl⟩ := List.mem_map.mp hother
    refine hapart path hpath path' hpath' ?_
    rintro rfl
    exact hne rfl

/-- The second phase does alike under every schedule, when the outputs are apart. -/
theorem writeStripped_alike [Codecs] (hquiet : s.IsQuiet) (hworkers : s.hasWorkers = true)
    (hworkers' : (s.rescheduled workers schedule).hasWorkers = true)
    {sheetOf : String → Stylesheet} (htree : w'.tree = w.tree)
    (hapart : AreApart w.tree (s.copies sheetOf))
    (hcached : ∀ path ∈ s.configuration.files,
      ∃ serial, w.cache.get? path = some ⟨serial, sheetOf path⟩)
    (hcached' : ∀ path ∈ s.configuration.files,
      ∃ serial, w'.cache.get? path = some ⟨serial, sheetOf path⟩)
    (hevents : Reordered w.events w'.events) :
    let first := s.writeStripped.perform w
    let second := (s.rescheduled workers schedule).writeStripped.perform w'
    first.1 = second.1 ∧ first.2.tree.SameFiles second.2.tree ∧
      Reordered first.2.events second.2.events := by
  have hquiet' : (s.rescheduled workers schedule).IsQuiet := hquiet
  let v := w.told (.phaseStarted .strip)
  let v' := w'.told (.phaseStarted .strip)
  have hvtree : v'.tree = v.tree := htree
  have hapart' : AreApart v'.tree ((s.rescheduled workers schedule).copies sheetOf) := by
    rw [hvtree]
    exact hapart
  obtain ⟨hfanOut, hmixed, hshows, hleft⟩ :=
    @fanOut_mixing s sheetOf _ hquiet hworkers v hapart hcached
  obtain ⟨hfanOut', hmixed', hshows', hleft'⟩ :=
    @fanOut_mixing (s.rescheduled workers schedule) sheetOf _ hquiet' hworkers' v' hapart' hcached'
  rw [hvtree] at hfanOut' hmixed' hshows' hleft'
  have hrun := Round.reordered_run (reordered_told hevents _) hleft hleft'
  have hfiles : (Round.run s .strip v).world.tree.SameFiles
      (Round.run (s.rescheduled workers schedule) .strip v').world.tree :=
    ⟨hmixed.workingDirectory.trans hmixed'.workingDirectory.symm,
      hmixed.entry_eq hmixed' hshows hshows'⟩
  intro first second
  have hfirst : first = _ := writeStripped_of_fanOut hquiet hfanOut
  have hsecond : second = _ := writeStripped_of_fanOut hquiet' hfanOut'
  rw [hfirst, hsecond]
  by_cases hnone : failuresOf (s.rewriting v.tree sheetOf) s.configuration.files = []
  · have hnone' : failuresOf ((s.rescheduled workers schedule).rewriting v.tree sheetOf)
        (s.rescheduled workers schedule).configuration.files = [] := hnone
    rw [if_pos hnone, if_pos hnone']
    exact ⟨rfl, hfiles, reordered_told hrun _⟩
  · have hnone' : ¬ failuresOf ((s.rescheduled workers schedule).rewriting v.tree sheetOf)
        (s.rescheduled workers schedule).configuration.files = [] := hnone
    rw [if_neg hnone, if_neg hnone']
    exact ⟨rfl, hfiles, reordered_told hrun _⟩

/-- After a first phase that went through from an empty cache, the style sheets of all sources are
in the cache, and but for the combined file the files are as they were. -/
theorem known_of_extractMedia [Codecs] {t : FileTree} (htree : w.tree = t)
    (hcache : w.cache = Cache.empty s.configuration.encoding) {combined : Combined}
    (h : s.extractMedia.perform w = (.ok combined, w')) :
    (∀ path ∈ s.configuration.files, ∃ sheet serial,
      Cache.load t s.configuration.encoding path = .ok sheet ∧
        w'.cache.get? path = some ⟨serial, sheet⟩) ∧
      ∃ text, w'.tree =
        (TextFile.write t s.configuration.encoding s.configuration.dest text).2 := by
  have hextracted := s.extractMedia_cases (rfl : w.tree = w.tree) rfl
  rw [h] at hextracted
  cases hextracted with
  | @written _ _ sheetOf knows succeeded outcome =>
      refine ⟨fun path hpath => ?_, s.combinedOf sheetOf, ?_⟩
      · obtain ⟨serial, hget⟩ := knows.cached path hpath
        rw [← htree]
        exact ⟨sheetOf path, serial, knows.load hcache hpath, hget⟩
      · rw [htree] at succeeded
        rw [succeeded]

/-- The way to a source that can be read is there. -/
private theorem parents_of_load [Codecs] {t : FileTree} {encoding path : String}
    {sheet : Stylesheet} (h : Cache.load t encoding path = .ok sheet) :
    ∀ place ∈ t.parentsOf path, t.entry? place = some .directory := by
  obtain ⟨bytes, -, -, hread, -⟩ := Cache.load_eq_ok h
  obtain ⟨-, hasks, hlocate, -⟩ := (read_eq_ok_iff t path bytes).mp hread
  exact parents_of_locate hasks hlocate

/-- A run does alike under every schedule, when the outputs are apart. -/
theorem run_alike [Codecs] (hquiet : s.IsQuiet) (hworkers : s.hasWorkers = true)
    (hworkers' : (s.rescheduled workers schedule).hasWorkers = true) {t : FileTree}
    (hrooted : t.IsRooted)
    (hapart : ∀ path ∈ s.configuration.files, ∀ other ∈ s.configuration.files, path ≠ other →
      ¬ t.placeOf (s.outputPath path) <+: t.placeOf (s.outputPath other)) :
    let first := s.run.perform (World.fresh t s.configuration.encoding)
    let second := (s.rescheduled workers schedule).run.perform
      (World.fresh t s.configuration.encoding)
    first.1 = second.1 ∧ first.2.tree.SameFiles second.2.tree ∧
      Reordered first.2.events second.2.events := by
  have hquiet' : (s.rescheduled workers schedule).IsQuiet := hquiet
  let v := (World.fresh t s.configuration.encoding).told
    (.runStarted s.configuration.files s.configuration.dest)
  have hextract := @extractMedia_alike s workers schedule v v _ hquiet hworkers hworkers' rfl rfl
    rfl (.refl _)
  intro first second
  have hfirst : first = _ := run_of_isQuiet hquiet _
  have hsecond : second = _ := run_of_isQuiet hquiet' _
  rw [hfirst, hsecond]
  generalize hfirstPhase : s.extractMedia.perform _ = extracted
  generalize hsecondPhase : (s.rescheduled workers schedule).extractMedia.perform _ = extracted'
  change s.extractMedia.perform v = extracted at hfirstPhase
  change (s.rescheduled workers schedule).extractMedia.perform v = extracted' at hsecondPhase
  rw [hfirstPhase, hsecondPhase] at hextract
  obtain ⟨result, w₁⟩ := extracted
  obtain ⟨result', w₁'⟩ := extracted'
  obtain ⟨hresult, htree₁, hevents₁⟩ := hextract
  obtain rfl : result = result' := hresult
  cases result with
  | error stop => exact ⟨rfl, .of_eq htree₁, hevents₁⟩
  | ok combined =>
      obtain ⟨hknown, text, hwritten⟩ :=
        @known_of_extractMedia s v w₁ _ t rfl rfl combined hfirstPhase
      obtain ⟨hknown', -⟩ :=
        @known_of_extractMedia (s.rescheduled workers schedule) v w₁' _ t rfl rfl combined
          hsecondPhase
      -- both caches were filled from the same files
      have hsheets : ∀ path ∈ s.configuration.files,
          (∃ serial, w₁.cache.get? path = some ⟨serial, w₁.cache.sheetOf path⟩) ∧
            ∃ serial, w₁'.cache.get? path = some ⟨serial, w₁.cache.sheetOf path⟩ := by
        intro path hpath
        obtain ⟨sheet, serial, hload, hget⟩ := hknown path hpath
        obtain ⟨sheet', serial', hload', hget'⟩ := hknown' path hpath
        obtain rfl := Except.ok.inj (hload.symm.trans hload')
        have hsheet : w₁.cache.sheetOf path = sheet := by rw [Cache.sheetOf, hget]
        rw [hsheet]
        exact ⟨⟨serial, hget⟩, serial', hget'⟩
      have hchanges := changes_write t s.configuration.encoding s.configuration.dest text
      have hrooted₁ := hrooted.write s.configuration.encoding s.configuration.dest text
      rw [← hwritten] at hchanges hrooted₁
      have hcopies : AreApart w₁.tree (s.copies w₁.cache.sheetOf) := by
        refine areApart_copies w₁.cache.sheetOf hrooted₁ ?_ ?_
        · intro path hpath place hplace
          obtain ⟨sheet, -, hload, -⟩ := hknown path hpath
          rw [hchanges.parentsOf] at hplace
          exact hchanges.directoryStays place (parents_of_load hload place hplace)
        · intro path hpath other hother hne
          rw [hchanges.placeOf, hchanges.placeOf]
          exact hapart path hpath other hother hne
      have hstrip := writeStripped_alike hquiet hworkers hworkers' htree₁.symm hcopies
        (fun path hpath => (hsheets path hpath).1) (fun path hpath => (hsheets path hpath).2) hevents₁
      simp only
      generalize s.writeStripped.perform w₁ = stripped at hstrip
      generalize (s.rescheduled workers schedule).writeStripped.perform w₁' = stripped' at hstrip
      obtain ⟨result, w₂⟩ := stripped
      obtain ⟨result', w₂'⟩ := stripped'
      obtain ⟨hresult, hfiles₂, hevents₂⟩ := hstrip
      obtain rfl : result = result' := hresult
      cases result with
      | error stop => exact ⟨rfl, hfiles₂, hevents₂⟩
      | ok stripped => exact ⟨rfl, hfiles₂, reordered_told hevents₂ _⟩

/-- What is made of the outcomes of a phase: a fault that came up while they were collected, the
failures if there are any, or the results. -/
def answer (s : Splitter) (phase : Phase) (r : Round) : Except Stop (Table String Piece) :=
  match r.interruption with
  | some fault => .error (.escaped fault)
  | none =>
      if r.failures s.configuration.files = [] then .ok (r.resultsInOrder s.configuration.files)
      else .error (.phase ⟨phase, r.failures s.configuration.files⟩)

theorem fanOut_eq_answer [Codecs] (hquiet : s.IsQuiet) (hworkers : s.hasWorkers = true)
    (phase : Phase) (w : World) :
    ((s.fanOut phase).perform w).1 = s.answer phase (Round.run s phase w) := by
  have hjobs : (s.runJobs phase).perform w =
      (.ok (Round.run s phase w), (Round.run s phase w).world) := rfl
  simp only [fanOut, hworkers, Bool.not_true, Bool.false_eq_true, if_false, perform_bind, hjobs,
    answer]
  cases (Round.run s phase w).interruption with
  | some fault => rfl
  | none =>
      cases hfailures : (Round.run s phase w).failures s.configuration.files with
      | nil => rfl
      | cons failure rest =>
          simp only [List.isEmpty_cons, Bool.false_eq_true, if_false, reduceCtorEq,
            fail_of_isQuiet hquiet]

/-- Jobs that have ended give the same answer in whatever order their outcomes are collected, with
the results in configured order. -/
theorem answer_of_ended [Codecs] (hquiet : s.IsQuiet) (phase : Phase)
    (outcome : String → Except Fault Piece) (w : World) {order : List Nat}
    (hall : ∀ index < s.configuration.files.length, index ∈ order) :
    s.answer phase (order.foldl (Round.move s phase)
        (Round.ended outcome s.configuration.files w)) =
      if failuresOf outcome s.configuration.files = [] then
        .ok (resultsOf outcome s.configuration.files)
      else .error (.phase ⟨phase, failuresOf outcome s.configuration.files⟩) := by
  obtain ⟨hgoing, hfailures, hresults⟩ := Round.collected_of_ended hquiet phase outcome w hall
  simp only [answer, hgoing, hfailures]
  split
  · rename_i hnone
    rw [hresults hnone]
  · rfl

/-- When no event is refused, a phase answers alike in whatever order the outcomes of its jobs are
collected; and when the outputs are apart, none of them beneath another, a run does alike under
every schedule. -/
theorem independent_of_schedule [Codecs] (s : Splitter) (workers : Option Int)
    (schedule : Phase → List Nat) (hquiet : s.IsQuiet) (hworkers : s.hasWorkers = true)
    (hworkers' : (s.rescheduled workers schedule).hasWorkers = true) :
    (∀ phase w, ((s.fanOut phase).perform w).1 = s.answer phase (Round.run s phase w)) ∧
    (∀ phase (outcome : String → Except Fault Piece) (w : World) (order order' : List Nat),
      (∀ index < s.configuration.files.length, index ∈ order ∧ index ∈ order') →
      let ended := Round.ended outcome s.configuration.files w
      let answered := s.answer phase (order.foldl (Round.move s phase) ended)
      answered = s.answer phase (order'.foldl (Round.move s phase) ended) ∧
        ∀ results, answered = .ok results → results.map Prod.fst = s.configuration.files.eraseDups) ∧
    ∀ t : FileTree, t.IsRooted →
      (∀ path ∈ s.configuration.files, ∀ other ∈ s.configuration.files, path ≠ other →
        ¬ t.placeOf (s.outputPath path) <+: t.placeOf (s.outputPath other)) →
      let first := s.run.perform (World.fresh t s.configuration.encoding)
      let second := (s.rescheduled workers schedule).run.perform
        (World.fresh t s.configuration.encoding)
      first.1 = second.1 ∧ first.2.tree.SameFiles second.2.tree ∧
        Reordered first.2.events second.2.events := by
  refine ⟨fanOut_eq_answer hquiet hworkers, ?_, ?_⟩
  · intro phase outcome w order order' hall ended answered
    have hanswered : answered = _ :=
      answer_of_ended hquiet phase outcome w fun index hindex => (hall index hindex).1
    have hanswered' := answer_of_ended hquiet phase outcome w
      fun index hindex => (hall index hindex).2
    refine ⟨hanswered.trans hanswered'.symm, fun results hresults => ?_⟩
    rw [hanswered] at hresults
    split at hresults
    · rename_i hnone
      rw [← Except.ok.inj hresults]
      exact paths_resultsOf hnone
    · cases hresults
  · intro t hrooted hapart
    exact run_alike hquiet hworkers hworkers' hrooted hapart

def twoSourcesIn (order : List Nat) : Splitter where
  configuration :=
    { files := ["a.css", "b.css"], dest := "out.css", widths := WidthSet.ofList ["8"]
      extract := WidthSet.empty
      inPlace := false, strippedSuffix := "x/y", encoding := "ascii" }
  listener _ := none
  workers := none
  schedule _ := order

def twoFiles : FileTree :=
  ⟨[(["a.css"], .file []), (["b.css"], .file [])], []⟩

theorem independent_of_schedule_swapped :
    let run := (twoSourcesIn [0, 1]).run.perform
      (World.fresh twoFiles (twoSourcesIn [0, 1]).configuration.encoding)
    let run' := ((twoSourcesIn [0, 1]).rescheduled (some 2) fun _ => [1, 1, 0, 1]).run.perform
      (World.fresh twoFiles (twoSourcesIn [0, 1]).configuration.encoding)
    (run.1.isOk = true ∧ run.2.events ≠ run'.2.events) ∧
      run.1 = run'.1 ∧ run.2.tree.SameFiles run'.2.tree ∧
        Reordered run.2.events run'.2.events := by
  have hrooted : twoFiles.IsRooted := .of_entries (by decide) (by decide)
  have hapart : ∀ path ∈ (twoSourcesIn [0, 1]).configuration.files,
      ∀ other ∈ (twoSourcesIn [0, 1]).configuration.files, path ≠ other →
      ¬ twoFiles.placeOf ((twoSourcesIn [0, 1]).outputPath path) <+:
        twoFiles.placeOf ((twoSourcesIn [0, 1]).outputPath other) := by
    decide +kernel
  obtain ⟨-, -, hrun⟩ := independent_of_schedule (twoSourcesIn [0, 1]) (some 2)
    (fun _ => [1, 1, 0, 1]) (fun _ => rfl) (by decide) (by decide)
  exact ⟨by decide +kernel, hrun twoFiles hrooted hapart⟩

end Splitter

end MediaSplit
