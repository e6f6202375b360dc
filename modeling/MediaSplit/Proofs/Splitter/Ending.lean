import MediaSplit.CommandLine
import MediaSplit.Encoding.HostNames
import MediaSplit.Proofs.Files.Refusals
import MediaSplit.Proofs.Resolving
import MediaSplit.Proofs.Splitter.Collisions
import MediaSplit.Proofs.Splitter.Protocol
import MediaSplit.Splitter.Requested

/-!
How a run ends that options have given. Faults of single files end a phase, and so does a fault of
writing the combined file. Only one thing is left that neither the options nor the phases answer
for: a null character in the path of the combined file, which comes out when that file is written.
-/

namespace MediaSplit

namespace Cache

theorem checkName_of_load [Codecs] {t : FileTree} {encoding path : String} {sheet : Stylesheet}
    (h : load t encoding path = .ok sheet) : TextFile.checkName encoding = .ok () := by
  unfold load TextFile.read at h
  cases hname : TextFile.checkName encoding with
  | ok _ => rfl
  | error fault =>
      rw [hname] at h
      cases h

end Cache

namespace Configuration

theorem files_ne_nil_of_resolve [Codecs] {t : FileTree} {options : Value} {c : Configuration}
    (h : resolve t options = .ok c) : c.files ≠ [] := by
  unfold resolve resolveJudged at h
  split at h
  · cases h
  · split at h
    · cases h
    · simp only [finish] at h
      split at h
      · cases h
      · rename_i hsome
        obtain rfl := Except.ok.inj h
        simpa using hsome

end Configuration

namespace Splitter

open Act

variable {s : Splitter} {w : World}

/-- What ends a run beside its phases, once its sources are known: the path of the combined file is
none. -/
def HasNoDest (s : Splitter) (fault : Fault) : Prop :=
  fault = .path .nul ∧ '\x00' ∈ s.configuration.dest.toList

theorem hasNoDest_of_writeCombined [Codecs] (hquiet : s.IsQuiet) {tree : FileTree}
    {path text : String} {sheet : Stylesheet} {fault : Fault}
    (hload : Cache.load tree s.configuration.encoding path = .ok sheet)
    (h : ((s.writeCombined text).perform w).1 = .error (.escaped fault)) : s.HasNoDest fault := by
  obtain ⟨-, e, -, -, hencoding, -⟩ := Cache.load_eq_ok hload
  have hname := Cache.checkName_of_load hload
  rw [writeCombined_of_isQuiet hquiet] at h
  cases hwrite : TextFile.write w.tree s.configuration.encoding s.configuration.dest text with
  | mk written tree' =>
      rw [hwrite] at h
      cases written with
      | ok _ => cases h
      | error fault' =>
          simp only at h
          split at h
          · cases h
          · rename_i hother
            cases h
            rcases TextFile.isOfWriting_or_nul_of_write hname hencoding hwrite with hwriting | hnul
            · exact absurd hwriting hother
            · exact hnul

/-- The combined file is written only when some source could be read, which shows that the encoding
is there. -/
theorem hasNoDest_of_extractMedia [Codecs] (hquiet : s.IsQuiet) (hworkers : s.hasWorkers = true)
    (hcache : w.cache = Cache.empty s.configuration.encoding) (hfiles : s.configuration.files ≠ [])
    {fault : Fault} (h : (s.extractMedia.perform w).1 = .error (.escaped fault)) :
    s.HasNoDest fault := by
  obtain ⟨path, hpath⟩ := List.exists_mem_of_ne_nil _ hfiles
  obtain ⟨-, hfanOut⟩ := fanOut_extract hquiet hworkers (w := w.told (.phaseStarted .extract)) hcache
  rw [extractMedia_of_fanOut hquiet hfanOut] at h
  split at h
  · rename_i hnone
    obtain ⟨piece, hpiece⟩ := failuresOf_eq_nil_iff.mp hnone path hpath
    simp only [extraction] at hpiece
    cases hload : Cache.load (w.told (.phaseStarted .extract)).tree s.configuration.encoding path with
    | error fault' =>
        rw [hload] at hpiece
        cases hpiece
    | ok sheet =>
        generalize hwritten : (s.writeCombined _).perform _ = written at h
        obtain ⟨result, w'⟩ := written
        cases result with
        | ok _ => cases h
        | error stop =>
            obtain rfl := Except.error.inj h
            apply hasNoDest_of_writeCombined hquiet hload
            rw [hwritten]
  · cases h

theorem hasNoDest_of_run [Codecs] (hquiet : s.IsQuiet) (hworkers : s.hasWorkers = true)
    (hfiles : s.configuration.files ≠ []) {t : FileTree} {fault : Fault}
    (h : (s.run.perform (World.fresh t s.configuration.encoding)).1 = .error (.escaped fault)) :
    s.HasNoDest fault := by
  let v := (World.fresh t s.configuration.encoding).told
    (.runStarted s.configuration.files s.configuration.dest)
  rw [run_of_isQuiet hquiet] at h
  generalize hextracted : s.extractMedia.perform _ = extracted at h
  obtain ⟨result, w₁⟩ := extracted
  cases result with
  | error stop =>
      obtain rfl := Except.error.inj h
      apply hasNoDest_of_extractMedia hquiet hworkers (w := v) rfl hfiles
      rw [hextracted]
  | ok combined =>
      -- The second phase has all style sheets in the cache and keeps to its course.
      obtain ⟨sheetOf, hcached, hstart⟩ := ready_of_extractMedia (w := v)
        (fun hempty => absurd rfl hempty) hextracted
      obtain ⟨told, -, hcourse⟩ := writeStripped_course hquiet hworkers w₁ hcached hstart
      simp only at h
      generalize s.writeStripped.perform w₁ = stripped at h hcourse
      obtain ⟨result, w₂⟩ := stripped
      cases hcourse with
      | uncopied tells failed => cases h
      | copied tells all outputs => cases h

/-- A phase that fails has failures. -/
theorem Course.failures_ne_nil {e : PhaseError} {told : List Event}
    (h : s.Course (.error (.phase e)) told) : e.failures ≠ [] := by
  cases h with
  | extract first =>
      cases first with
      | unread tells failed => exact failed.nonempty
      | uncombined tells all => exact List.cons_ne_nil _ _
  | strip first second =>
      cases second with
      | uncopied tells failed => exact failed.nonempty

/-- The ways in which a run ends: with a report, with a phase that names its failures, or, where the
path of the combined file has a null character, with the fault of that path. -/
inductive Ending (s : Splitter) : Except Stop Report → List Event → Prop where
  | reported {report : Report} {told : List Event}
      (last : told.getLast? = some (.runCompleted report)) : Ending s (.ok report) told
  | failed {e : PhaseError} {told : List Event} (nonempty : e.failures ≠ [])
      (last : told.getLast? = some (.phaseFailed e.phase e.message)) :
      Ending s (.error (.phase e)) told
  | refused {fault : Fault} {told : List Event} (noDest : s.HasNoDest fault) :
      Ending s (.error (.escaped fault)) told

theorem ending_of_run [Codecs] (hquiet : s.IsQuiet) (hworkers : s.hasWorkers = true)
    (hfiles : s.configuration.files ≠ []) (t : FileTree) :
    let ran := s.run.perform (World.fresh t s.configuration.encoding)
    s.Ending ran.1 ran.2.events := by
  intro ran
  have hcourse := course_of_run hquiet (w := World.fresh t s.configuration.encoding)
    fun hempty => absurd rfl hempty
  cases hresult : ran.1 with
  | ok report =>
      obtain ⟨told, hevents, hcourse⟩ := hcourse fun fault heq => by cases hresult.symm.trans heq
      rcases hcourse.getLast? with ⟨e, heq, -⟩ | ⟨report', heq, hlast⟩
      · cases hresult.symm.trans heq
      · cases hresult.symm.trans heq
        apply Ending.reported
        rw [hevents]
        exact hlast
  | error stop =>
      cases stop with
      | escaped fault => exact .refused (hasNoDest_of_run hquiet hworkers hfiles hresult)
      | phase e =>
          obtain ⟨told, hevents, hcourse⟩ := hcourse fun fault heq => by
            cases hresult.symm.trans heq
          rcases hcourse.getLast? with ⟨e', heq, hlast⟩ | ⟨report, heq, -⟩
          · cases hresult.symm.trans heq
            rw [heq] at hcourse
            apply Ending.failed hcourse.failures_ne_nil
            rw [hevents]
            exact hlast
          · cases hresult.symm.trans heq

end Splitter

namespace CommandLine

/-- The ways in which a call ends that has come to a run: all is done, or a phase failed and the
last line says so, or, where the path of the combined file has a null character, that crashes. -/
inductive Ending (c : Configuration) (o : Outcome) : Prop where
  | done (exitCode : o.exitCode = 0) (noCrash : o.crash = none)
      (last : o.lines.getLast? = some (.coloured .output .green "\nAll done!"))
  | failed {e : PhaseError} (nonempty : e.failures ≠ []) (exitCode : o.exitCode = 1)
      (noCrash : o.crash = none) (last : o.lines.getLast? = some (failureLine e))
  | crashed (noDest : '\x00' ∈ c.dest.toList) (exitCode : o.exitCode = 1)
      (crash : o.crash.map Crash.message = some (PathFault.nul.message))

theorem ending_of_runConfiguration [Codecs] {c : Configuration} (hfiles : c.files ≠ [])
    (schedule : Phase → List Nat) (verbosity : Nat) (t : FileTree) (before : List Line) :
    Ending c (runConfiguration schedule verbosity t c before) := by
  let s : Splitter := ⟨c, fun _ => none, none, schedule⟩
  have hending := s.ending_of_run (fun _ => rfl) rfl hfiles t
  unfold runConfiguration
  simp only at hending ⊢
  generalize s.run.perform (World.fresh t c.encoding) = ran at hending ⊢
  obtain ⟨result, w⟩ := ran
  cases hending with
  | reported last => exact .done rfl rfl List.getLast?_concat
  | failed nonempty last => exact .failed nonempty rfl rfl List.getLast?_concat
  | refused noDest =>
      obtain ⟨hfault, hnul⟩ := noDest
      apply Ending.crashed hnul rfl
      rw [hfault]
      rfl

end CommandLine

namespace Splitter

/-- With options that make sense a run gives a report or fails with a phase, whatever the files, the
number of workers and the schedule are, and so does a call of the program; the one exception is a
path of the combined file with a null character. -/
theorem ending_of_resolve [Codecs] {t : FileTree} {options : Value} {c : Configuration}
    (hresolved : Configuration.resolve t options = .ok c) (listener : Event → Option String)
    (hquiet : ∀ e, listener e = none) (workers : Option Int)
    (hworkers : ∀ n, workers = some n → 0 ≤ n) (schedule : Phase → List Nat) :
    let asked := request t options listener workers schedule
    (∃ result : Except Stop Report, asked.result = result.mapError .stopped ∧
      (⟨c, listener, workers, schedule⟩ : Splitter).Ending result asked.events) ∧
    ∀ verbosity before, CommandLine.Ending c
      (CommandLine.runConfiguration schedule verbosity t c before) := by
  intro asked
  let s : Splitter := ⟨c, listener, workers, schedule⟩
  have hfiles := Configuration.files_ne_nil_of_resolve hresolved
  have hsome : s.hasWorkers = true := by
    cases hcase : workers with
    | none => simp [hasWorkers, s, hcase]
    | some n => simpa [hasWorkers, s, hcase] using hworkers n hcase
  have hasked : asked = ⟨(s.run.perform (World.fresh t c.encoding)).1.mapError .stopped,
      (s.run.perform (World.fresh t c.encoding)).2.tree,
      (s.run.perform (World.fresh t c.encoding)).2.events⟩ := by
    simp only [asked, request, ofOptions, hresolved, Except.map, s]
  constructor
  · refine ⟨(s.run.perform (World.fresh t c.encoding)).1, ?_, ?_⟩
    · rw [hasked]
    · rw [hasked]
      exact s.ending_of_run hquiet hsome hfiles t
  · intro verbosity before
    exact CommandLine.ending_of_runConfiguration hfiles schedule verbosity t before

/-- The combined file shall stand below the source, which is no directory. -/
theorem ending_of_resolve_blocked :
    let t := treeOf [["a.css"]]
    let options := optionsFor ["a.css"] "a.css/out.css" "x"
    let asked := request t options (fun _ => none) none (fun _ => [0])
    let error : PhaseError :=
      ⟨.extract, [⟨"a.css/out.css", .path (.trouble .alreadyThere "a.css")⟩]⟩
    ∃ c, Configuration.resolve t options = .ok c ∧ '\x00' ∉ c.dest.toList ∧
      asked.events.getLast? = some (.phaseFailed .extract error.message) ∧
      (∃ result : Except Stop Report, asked.result = result.mapError .stopped ∧
        (⟨c, fun _ => none, none, fun _ => [0]⟩ : Splitter).Ending result asked.events) ∧
      CommandLine.Ending c (CommandLine.runConfiguration (fun _ => [0]) 1 t c []) := by
  intro t options asked error
  obtain ⟨c, hc, hdest⟩ := @exists_of_toOption_map _ _ _ (Configuration.resolve t options)
    (fun c => c.dest) "a.css/out.css" (by decide +kernel)
  have hlast : asked.events.getLast? = some (.phaseFailed .extract error.message) := by
    decide +kernel
  obtain ⟨hasked, hcall⟩ := ending_of_resolve hc (fun _ => none) (fun _ => rfl) none nofun
    fun _ => [0]
  refine ⟨c, hc, ?_, hlast, hasked, hcall 1 []⟩
  rw [hdest]
  decide

/-- A path with a null character passes for that of the combined file until it is written. -/
theorem stopped_without_phase :
    ¬ ∀ (t : FileTree) (options : Value) (c : Configuration),
      Configuration.resolve t options = .ok c →
      ∀ fault, ((splitterFor c).run.perform (World.fresh t c.encoding)).1 ≠
        .error (.escaped fault) := by
  intro h
  obtain ⟨c, hc, hescaped⟩ := @exists_of_toOption_map _ _ _
    (Configuration.resolve (treeOf [["a.css"]]) (optionsFor ["a.css"] "\x00" "x"))
    (fun c => ((splitterFor c).run.perform (World.fresh (treeOf [["a.css"]]) c.encoding)).1)
    (.error (.escaped (.path .nul))) (by decide +kernel)
  exact h _ _ c hc _ hescaped

end Splitter

end MediaSplit
