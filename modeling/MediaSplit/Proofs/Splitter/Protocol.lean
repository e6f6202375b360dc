import MediaSplit.Encoding.HostNames
import MediaSplit.Proofs.Splitter.Reordering
import MediaSplit.Proofs.Splitter.Settling

/-!
The events of a whole run, when none of them is refused. Both phases begin with an event of their
own, tell the stories of the files and end with an event that says how they ended; a run that is
stopped tells nothing after the phase that failed.
-/

namespace MediaSplit

namespace Event

def failedPath? (phase : Phase) : Event → Option String
  | .fileFailed p path _ => if p = phase then some path else none
  | _ => none

def writtenPath? : Event → Option String
  | .fileWritten _ path => some path
  | _ => none

end Event

namespace Splitter

open FileTree TextFile Act

structure AreOf (s : Splitter) (done : String → Bool) (failures : List FileFailure) : Prop where
  nonempty : failures ≠ []
  paths : failures.map FileFailure.path = s.configuration.files.filter fun path => !done path

/-- What the first phase tells, and how it ends: some sources could not be read, the combined file
could not be written, or all went well. -/
inductive ExtractCourse (s : Splitter) : Except Stop Combined → List Event → Prop where
  | unread {done : String → Bool} {told : List Event} {failures : List FileFailure}
      (tells : s.Tells .extract done told) (failed : s.AreOf done failures) :
      ExtractCourse s (.error (.phase ⟨.extract, failures⟩)) (.phaseStarted .extract :: (told ++
        [.phaseFailed .extract (PhaseError.message ⟨.extract, failures⟩)]))
  | uncombined {done : String → Bool} {told : List Event} {fault : Fault}
      (tells : s.Tells .extract done told)
      (all : ∀ path ∈ s.configuration.files, done path = true) :
      ExtractCourse s (.error (.phase ⟨.extract, [⟨s.configuration.dest, fault⟩]⟩))
        (.phaseStarted .extract :: (told ++
          [.fileFailed .extract s.configuration.dest fault.message,
            .phaseFailed .extract
              (PhaseError.message ⟨.extract, [⟨s.configuration.dest, fault⟩]⟩)]))
  | combined {done : String → Bool} {told : List Event} {combined : Combined}
      (tells : s.Tells .extract done told)
      (all : ∀ path ∈ s.configuration.files, done path = true)
      (dest : combined.dest = s.configuration.dest) :
      ExtractCourse s (.ok combined) (.phaseStarted .extract :: (told ++
        [.fileWritten .extract s.configuration.dest, .phaseCompleted .extract]))

inductive StripCourse (s : Splitter) : Except Stop (List StrippedFile) → List Event → Prop where
  | uncopied {done : String → Bool} {told : List Event} {failures : List FileFailure}
      (tells : s.Tells .strip done told) (failed : s.AreOf done failures) :
      StripCourse s (.error (.phase ⟨.strip, failures⟩)) (.phaseStarted .strip :: (told ++
        [.phaseFailed .strip (PhaseError.message ⟨.strip, failures⟩)]))
  | copied {done : String → Bool} {told : List Event} {stripped : List StrippedFile}
      (tells : s.Tells .strip done told) (all : ∀ path ∈ s.configuration.files, done path = true)
      (outputs : stripped.map StrippedFile.output =
        s.configuration.files.eraseDups.map s.outputPath) :
      StripCourse s (.ok stripped) (.phaseStarted .strip :: (told ++ [.phaseCompleted .strip]))

inductive Course (s : Splitter) : Except Stop Report → List Event → Prop where
  | extract {stop : Stop} {told : List Event} (first : s.ExtractCourse (.error stop) told) :
      Course s (.error stop)
        (.runStarted s.configuration.files s.configuration.dest :: told)
  | strip {combined : Combined} {stop : Stop} {told told' : List Event}
      (first : s.ExtractCourse (.ok combined) told) (second : s.StripCourse (.error stop) told') :
      Course s (.error stop)
        (.runStarted s.configuration.files s.configuration.dest :: (told ++ told'))
  | completed {combined : Combined} {stripped : List StrippedFile} {told told' : List Event}
      (first : s.ExtractCourse (.ok combined) told) (second : s.StripCourse (.ok stripped) told') :
      Course s (.ok ⟨combined, stripped⟩)
        (.runStarted s.configuration.files s.configuration.dest ::
          (told ++ told' ++ [.runCompleted ⟨combined, stripped⟩]))

variable {s : Splitter} {w : World}

section Tells

variable {phase : Phase} {done : String → Bool} {told : List Event}

/-- The paths that are said to have failed are those of the files that are not done. -/
theorem Tells.perm_failed (h : s.Tells phase done told) :
    (told.filterMap (Event.failedPath? phase)).Perm
      (s.configuration.files.filter fun path => !done path) := by
  rw [← List.filterMap_eq_filter]
  refine h.perm_filterMap _ fun path _ story hstory => ?_
  rw [Option.guard]
  generalize done path = isDone at hstory ⊢
  cases hstory with
  | unread => simp [Event.failedPath?]
  | extracted => rfl
  | copied => rfl
  | uncopied => rfl

/-- No path is said to have failed in the other phase. -/
theorem Tells.failed_other (h : s.Tells phase done told) {other : Phase} (hne : phase ≠ other) :
    told.filterMap (Event.failedPath? other) = [] := by
  refine h.filterMap_eq_nil _ fun path _ story hstory => ?_
  generalize done path = isDone at hstory
  cases hstory <;> simp [Event.failedPath?, hne]

/-- The first phase says of no source that it was written. -/
theorem Tells.written_extract (h : s.Tells .extract done told) :
    told.filterMap Event.writtenPath? = [] := by
  refine h.filterMap_eq_nil _ fun path _ story hstory => ?_
  generalize done path = isDone at hstory
  cases hstory <;> rfl

/-- The second phase says of every copy that it was written, if all files are done. -/
theorem Tells.perm_written (h : s.Tells .strip done told)
    (hall : ∀ path ∈ s.configuration.files, done path = true) :
    (told.filterMap Event.writtenPath?).Perm (s.configuration.files.map s.outputPath) := by
  rw [← List.filterMap_eq_map]
  refine h.perm_filterMap _ fun path hpath story hstory => ?_
  rw [hall path hpath] at hstory
  cases hstory
  rfl

end Tells

section Courses

theorem AreOf.of_outcome {outcome : String → Except Fault Piece}
    (h : failuresOf outcome s.configuration.files ≠ []) :
    s.AreOf (fun path => (outcome path).isOk) (failuresOf outcome s.configuration.files) :=
  ⟨h, paths_failuresOf⟩

private theorem all_done {outcome : String → Except Fault Piece} {files : List String}
    (h : failuresOf outcome files = []) : ∀ path ∈ files, (outcome path).isOk = true := by
  intro path hpath
  obtain ⟨piece, hpiece⟩ := failuresOf_eq_nil_iff.mp h path hpath
  rw [hpiece]
  rfl

/-- The three ways to end for the writing of the combined file. -/
private theorem writeCombined_tells [Codecs] (hquiet : s.IsQuiet) (text : String) (w : World) :
    (∃ w', (s.writeCombined text).perform w = (.ok (), w') ∧ w'.events = w.events) ∨
    (∃ fault w', (s.writeCombined text).perform w =
        (.error (.phase ⟨.extract, [⟨s.configuration.dest, fault⟩]⟩), w') ∧
      w'.events = w.events ++ [.fileFailed .extract s.configuration.dest fault.message,
        .phaseFailed .extract (PhaseError.message ⟨.extract, [⟨s.configuration.dest, fault⟩]⟩)]) ∨
    ∃ fault w', (s.writeCombined text).perform w = (.error (.escaped fault), w') := by
  rw [writeCombined_of_isQuiet hquiet]
  cases TextFile.write w.tree s.configuration.encoding s.configuration.dest text with
  | mk written tree =>
      cases written with
      | ok _ => exact Or.inl ⟨_, rfl, rfl⟩
      | error fault =>
          simp only
          split
          · refine Or.inr (Or.inl ⟨fault, _, rfl, ?_⟩)
            simp [World.events_note, World.events_withTree]
          · exact Or.inr (Or.inr ⟨fault, _, rfl⟩)

/-- The first phase keeps to its course, from any cache, unless something else ends it. -/
theorem extractMedia_course [Codecs] (hquiet : s.IsQuiet) (hworkers : s.hasWorkers = true)
    (w : World) (hreturned : ∀ fault, (s.extractMedia.perform w).1 ≠ .error (.escaped fault)) :
    ∃ told, (s.extractMedia.perform w).2.events = w.events ++ told ∧
      s.ExtractCourse (s.extractMedia.perform w).1 told := by
  let v := w.told (.phaseStarted .extract)
  have hshared : (fetching v.tree v.cache).shared v.tree v.cache := ⟨rfl, rfl, fun _ => Iff.rfl⟩
  obtain ⟨outcome, told, htells, hevents, hfanOut⟩ := tells_of_fanOut hquiet hworkers
    (fetching_isKept hquiet v.tree v.cache) (fetching_settles v.tree v.cache) hshared
    fun _ _ => trivial
  rw [World.told_events] at hevents
  rw [extractMedia_of_fanOut hquiet hfanOut] at hreturned ⊢
  by_cases hnone : failuresOf outcome s.configuration.files = []
  · rw [if_pos hnone] at hreturned ⊢
    rcases writeCombined_tells hquiet (combinedText (resultsOf outcome s.configuration.files))
      (Round.run s .extract v).world with
      ⟨u, hwritten, htold⟩ | ⟨fault, u, hwritten, htold⟩ | ⟨fault, u, hwritten⟩
    · rw [hwritten]
      refine ⟨_, ?_, .combined htells (all_done hnone) rfl⟩
      simp [htold, hevents]
    · rw [hwritten]
      refine ⟨_, ?_, .uncombined htells (all_done hnone)⟩
      simp [htold, hevents]
    · rw [hwritten] at hreturned
      exact absurd rfl (hreturned fault)
  · rw [if_neg hnone]
    refine ⟨_, ?_, .unread htells (.of_outcome hnone)⟩
    simp [hevents]

/-- The second phase keeps to its course when it knows all sources and the ways to the copies start
somewhere. -/
theorem writeStripped_course [Codecs] (hquiet : s.IsQuiet) (hworkers : s.hasWorkers = true)
    (w : World) {sheetOf : String → Stylesheet}
    (hcached : ∀ path ∈ s.configuration.files,
      ∃ serial, w.cache.get? path = some ⟨serial, sheetOf path⟩)
    (hstart : ∀ path ∈ s.configuration.files,
      w.tree.entry? (w.tree.startOf path.toList) = some .directory) :
    ∃ told, (s.writeStripped.perform w).2.events = w.events ++ told ∧
      s.StripCourse (s.writeStripped.perform w).1 told := by
  let v := w.told (.phaseStarted .strip)
  have hcached' : ∀ path ∈ s.configuration.files,
      ∃ serial, v.cache.get? path = some ⟨serial, sheetOf path⟩ := hcached
  have hstart' : ∀ path ∈ s.configuration.files,
      v.tree.entry? (v.tree.startOf (s.outputPath path).toList) = some .directory := by
    intro path hpath
    rw [startOf_outputPath]
    exact hstart path hpath
  have hshared : (s.settling v.tree v.cache sheetOf).shared v.tree v.cache :=
    ⟨rfl, [], [], Changes.refl _ _ _⟩
  obtain ⟨outcome, told, htells, hevents, hfanOut⟩ := tells_of_fanOut hquiet hworkers
    (settling_isKept hquiet hcached' hstart') (s.settling_settles v.tree v.cache sheetOf) hshared
    fun _ _ => trivial
  rw [World.told_events] at hevents
  rw [writeStripped_of_fanOut hquiet hfanOut]
  by_cases hnone : failuresOf outcome s.configuration.files = []
  · rw [if_pos hnone]
    refine ⟨_, ?_, .copied htells (all_done hnone) ?_⟩
    · simp [hevents]
    · rw [← paths_resultsOf hnone, List.map_map, List.map_map]
      rfl
  · rw [if_neg hnone]
    refine ⟨_, ?_, .uncopied htells (.of_outcome hnone)⟩
    simp [hevents]

/-- After a first phase that went through, the second one knows all sources, and the ways to them
start somewhere. -/
theorem ready_of_extractMedia [Codecs] {w' : World} {combined : Combined}
    (hthere : w.cache.entries ≠ [] → w.tree.entry? w.tree.workingDirectory = some .directory)
    (h : s.extractMedia.perform w = (.ok combined, w')) :
    ∃ sheetOf : String → Stylesheet, (∀ path ∈ s.configuration.files,
        ∃ serial, w'.cache.get? path = some ⟨serial, sheetOf path⟩) ∧
      ∀ path ∈ s.configuration.files,
        w'.tree.entry? (w'.tree.startOf path.toList) = some .directory := by
  have hextracted := s.extractMedia_cases (rfl : w.tree = w.tree) rfl
  rw [h] at hextracted
  cases hextracted with
  | @written _ _ sheetOf knows succeeded outcome =>
      have hchanges := changes_write w.tree s.configuration.encoding s.configuration.dest
        (s.combinedOf sheetOf)
      rw [succeeded] at hchanges
      refine ⟨sheetOf, knows.cached, fun path hpath => ?_⟩
      rw [hchanges.startOf]
      apply hchanges.directoryStays
      rcases knows.source path hpath with ⟨serial, hcached⟩ | hload
      · refine entry?_startOf (hthere fun hempty => ?_) path.toList
        rw [Cache.get?, hempty] at hcached
        cases hcached
      · obtain ⟨bytes, -, -, hread, -⟩ := Cache.load_eq_ok hload
        exact start_of_read hread

private theorem hasWorkers_of_run [Codecs] (hquiet : s.IsQuiet)
    (hreturned : ∀ fault, (s.run.perform w).1 ≠ .error (.escaped fault)) :
    s.hasWorkers = true := by
  cases hworkers : s.hasWorkers with
  | true => rfl
  | false =>
      refine absurd ?_ (hreturned .noWorkers)
      simp [run_of_isQuiet hquiet, extractMedia, fanOut, perform_bind, announce_of_isQuiet hquiet,
        hworkers, perform_throw]

/-- A run keeps to its course, unless something else than a phase ends it. -/
theorem course_of_run [Codecs] (hquiet : s.IsQuiet)
    (hthere : w.cache.entries ≠ [] → w.tree.entry? w.tree.workingDirectory = some .directory)
    (hreturned : ∀ fault, (s.run.perform w).1 ≠ .error (.escaped fault)) :
    ∃ told, (s.run.perform w).2.events = w.events ++ told ∧
      s.Course (s.run.perform w).1 told := by
  have hworkers := hasWorkers_of_run hquiet hreturned
  let v := w.told (.runStarted s.configuration.files s.configuration.dest)
  rw [run_of_isQuiet hquiet] at hreturned ⊢
  generalize hextracted : s.extractMedia.perform _ = extracted at hreturned ⊢
  change s.extractMedia.perform v = extracted at hextracted
  have hfirst := extractMedia_course hquiet hworkers v
  rw [hextracted] at hfirst
  obtain ⟨result, w₁⟩ := extracted
  cases result with
  | error stop =>
      obtain ⟨told, hevents, hcourse⟩ := hfirst fun fault heq => hreturned fault (by cases heq; rfl)
      refine ⟨_, ?_, .extract hcourse⟩
      simp only at hevents ⊢
      rw [hevents, World.told_events, List.append_assoc, List.singleton_append]
  | ok combined =>
      obtain ⟨told, hevents, hcourse⟩ := hfirst fun fault heq => by cases heq
      -- Only with all sources in the cache does a copy depend on nothing but its own place.
      obtain ⟨sheetOf, hcached, hstart⟩ :=
        @ready_of_extractMedia s v _ w₁ combined hthere hextracted
      obtain ⟨told', hevents', hcourse'⟩ :=
        writeStripped_course hquiet hworkers w₁ hcached hstart
      simp only at hevents ⊢
      generalize s.writeStripped.perform w₁ = stripped at hevents' hcourse' ⊢
      obtain ⟨result, w₂⟩ := stripped
      cases result with
      | error stop =>
          refine ⟨_, ?_, .strip hcourse hcourse'⟩
          simp only at hevents' ⊢
          rw [hevents', hevents, World.told_events]
          simp
      | ok stripped =>
          refine ⟨_, ?_, .completed hcourse hcourse'⟩
          simp only at hevents' ⊢
          rw [World.told_events, hevents', hevents, World.told_events]
          simp

end Courses

section Protocol

variable {result : Except Stop Report} {told : List Event}

/-- The last event says how the run ended. -/
theorem Course.getLast? (h : s.Course result told) :
    (∃ e, result = .error (.phase e) ∧ told.getLast? = some (.phaseFailed e.phase e.message)) ∨
      ∃ report, result = .ok report ∧ told.getLast? = some (.runCompleted report) := by
  cases h with
  | extract first =>
      cases first with
      | unread tells failed => exact Or.inl ⟨_, rfl, by simp [List.getLast?_cons]⟩
      | uncombined tells all => exact Or.inl ⟨_, rfl, by simp [List.getLast?_cons]⟩
  | strip first second =>
      cases second with
      | uncopied tells failed => exact Or.inl ⟨_, rfl, by simp [List.getLast?_cons]⟩
  | completed first second => exact Or.inr ⟨_, rfl, by simp [List.getLast?_cons]⟩

/-- Failures are told of once each, whether sources or copies failed or the combined file did. -/
theorem Course.perm_failed (h : s.Course result told) {e : PhaseError}
    (hresult : result = .error (.phase e)) :
    (told.filterMap (Event.failedPath? e.phase)).Perm (e.failures.map FileFailure.path) := by
  cases h with
  | completed first second => cases hresult
  | extract first =>
      cases first with
      | unread tells failed =>
          cases hresult
          rw [failed.paths]
          simpa [Event.failedPath?, List.filterMap_cons] using tells.perm_failed
      | uncombined tells all =>
          cases hresult
          have hnone := tells.perm_failed
          rw [List.filter_eq_nil_iff.mpr fun path hpath => by simp [all path hpath]] at hnone
          simp [Event.failedPath?, List.filterMap_cons, hnone.eq_nil]
  | strip first second =>
      cases first with
      | combined tells all dest =>
          cases second with
          | uncopied tells' failed =>
              cases hresult
              rw [failed.paths]
              have hne : Phase.extract ≠ .strip := by decide
              have hother := tells.failed_other hne
              simpa [Event.failedPath?, List.filterMap_cons, hother] using tells'.perm_failed

/-- A run that is completed has told of each of its outputs. -/
theorem Course.written (h : s.Course result told) {report : Report}
    (hresult : result = .ok report) :
    report.outputs = s.configuration.dest :: s.configuration.files.eraseDups.map s.outputPath ∧
      (told.filterMap Event.writtenPath?).Perm
        (s.configuration.dest :: s.configuration.files.map s.outputPath) := by
  cases h with
  | extract first => cases hresult
  | strip first second => cases hresult
  | completed first second =>
      cases hresult
      cases first with
      | combined tells all dest =>
          cases second with
          | copied tells' all' outputs =>
              refine ⟨?_, ?_⟩
              · rw [Report.outputs, dest, outputs]
              · simpa [Event.writtenPath?, List.filterMap_cons, tells.written_extract]
                  using tells'.perm_written all'

/-- The protocol of the events of a run: their course, and what they have to do with its result.
A path that is repeated among the sources has its events once for each time, but one output. -/
structure Protocol (s : Splitter) (result : Except Stop Report) (told : List Event) : Prop where
  course : s.Course result told
  stopped : ∀ phase, (∃ failures, result = .error (.phase ⟨phase, failures⟩)) ↔
    ∃ error, told.getLast? = some (.phaseFailed phase error)
  failures : ∀ phase failures, result = .error (.phase ⟨phase, failures⟩) →
    (told.filterMap (Event.failedPath? phase)).Perm (failures.map FileFailure.path)
  completed : ∀ report, result = .ok report ↔ told.getLast? = some (.runCompleted report)
  outputs : ∀ report, result = .ok report →
    report.outputs = s.configuration.dest :: s.configuration.files.eraseDups.map s.outputPath ∧
      (told.filterMap Event.writtenPath?).Perm
        (s.configuration.dest :: s.configuration.files.map s.outputPath)

/-- When no event is refused, a run that gives a report or stops with a phase keeps to the protocol,
whatever the files, the cache and the schedule are. Only where the cache holds something before the
run is the working directory asked for: without it a source could be known whose copy has no place
to start from. -/
theorem protocol_of_run [Codecs] (s : Splitter) (w : World) (hquiet : s.IsQuiet)
    (hthere : w.cache.entries ≠ [] → w.tree.entry? w.tree.workingDirectory = some .directory)
    (hreturned : ∀ fault, (s.run.perform w).1 ≠ .error (.escaped fault)) :
    ∃ told, (s.run.perform w).2.events = w.events ++ told ∧
      s.Protocol (s.run.perform w).1 told := by
  obtain ⟨told, hevents, hcourse⟩ := course_of_run hquiet hthere hreturned
  refine ⟨told, hevents, hcourse, fun phase => ?_, fun phase failures hresult => ?_,
    fun report => ?_, fun report => hcourse.written⟩
  · constructor
    · rintro ⟨failures, hresult⟩
      rcases hcourse.getLast? with ⟨e, hresult', hlast⟩ | ⟨report, hresult', -⟩
      · rw [hresult] at hresult'
        cases hresult'
        exact ⟨_, hlast⟩
      · rw [hresult] at hresult'
        cases hresult'
    · rintro ⟨error, hlast⟩
      rcases hcourse.getLast? with ⟨e, hresult, hlast'⟩ | ⟨report, -, hlast'⟩
      · rw [hlast] at hlast'
        cases hlast'
        exact ⟨e.failures, hresult⟩
      · rw [hlast] at hlast'
        cases hlast'
  · exact hcourse.perm_failed hresult
  · rcases hcourse.getLast? with ⟨e, hresult, hlast⟩ | ⟨report', hresult, hlast⟩
    · rw [hresult, hlast]
      exact ⟨nofun, nofun⟩
    · rw [hresult, hlast, Except.ok.injEq, Option.some.injEq, Event.runCompleted.injEq]

/-- The two sources, with a file where one of the copies needs a directory. -/
def twoFilesBlocked : FileTree :=
  ⟨[(["a.css"], .file []), (["b.css"], .file []), (["b.x"], .file [])], []⟩

theorem protocol_of_run_blocked :
    let s := twoSourcesIn [0, 1, 1, 0]
    let ran := s.run.perform (World.fresh twoFilesBlocked s.configuration.encoding)
    ran.1 = .error (.phase ⟨.strip, [⟨"b.css", .path (.trouble .alreadyThere "b.x")⟩]⟩) ∧
      ∃ told, ran.2.events = [] ++ told ∧ s.Protocol ran.1 told := by
  intro s ran
  have hstopped : ran.1 =
      .error (.phase ⟨.strip, [⟨"b.css", .path (.trouble .alreadyThere "b.x")⟩]⟩) := by
    decide +kernel
  refine ⟨hstopped, protocol_of_run s (World.fresh twoFilesBlocked s.configuration.encoding)
    (fun _ => rfl) (fun hempty => absurd rfl hempty) fun fault hescaped => ?_⟩
  have hboth := hstopped.symm.trans hescaped
  cases hboth

end Protocol

end Splitter

end MediaSplit
