import MediaSplit.Proofs.Splitter.Phases

/-!
A whole run. Every part of it either goes on or stops, and tells of it either way; the files change
in two places only, where the combined file is written and where the second phase writes its
copies.
-/

namespace MediaSplit

namespace Act

variable {α β : Type}

theorem perform_pure (a : α) (w : World) : (pure a : Act α).perform w = (.ok a, w) :=
  rfl

theorem perform_throw (stop : Stop) (w : World) :
    (throw stop : Act α).perform w = (.error stop, w) :=
  rfl

theorem perform_mk (step : World → Except Stop α × World) (w : World) :
    Act.perform (ExceptT.mk step) w = step w :=
  rfl

theorem perform_bind (a : Act α) (next : α → Act β) (w : World) :
    (a >>= next).perform w =
      match a.perform w with
      | (.ok value, w') => (next value).perform w'
      | (.error stop, w') => (.error stop, w') := by
  unfold perform
  simp only [bind, ExceptT.bind, ExceptT.run, ExceptT.mk, StateT.bind, StateT.run]
  cases h : a w with
  | mk result w' =>
      cases result <;> rfl

end Act

namespace Splitter

open Act

variable {s : Splitter}

theorem announce_cases (s : Splitter) (e : Event) (w : World) :
    ∃ w', w'.tree = w.tree ∧ w'.cache = w.cache ∧
      ((s.announce e).perform w = (.ok (), w') ∨
        ∃ fault, s.Refuses fault ∧ (s.announce e).perform w = (.error (.escaped fault), w')) := by
  obtain ⟨w', htree, hcache, htold⟩ := s.tell_cases e w
  refine ⟨w', htree, hcache, ?_⟩
  rcases htold with htold | ⟨fault, hrefused, htold⟩
  · refine Or.inl ?_
    simp [announce, orEscape, perform, ExceptT.run, ExceptT.mk, StateT.run, htold]
  · refine Or.inr ⟨fault, hrefused, ?_⟩
    simp [announce, orEscape, perform, ExceptT.run, ExceptT.mk, StateT.run, htold]

theorem fail_cases {α : Type} (s : Splitter) (phase : Phase) (failures : List FileFailure)
    (w : World) :
    ∃ w' stop, w'.tree = w.tree ∧ w'.cache = w.cache ∧
      (s.fail phase failures : Act α).perform w = (.error stop, w') ∧
      (stop = .phase ⟨phase, failures⟩ ∨ ∃ fault, s.Refuses fault ∧ stop = .escaped fault) := by
  obtain ⟨w', htree, hcache, htold⟩ :=
    s.announce_cases (.phaseFailed phase (PhaseError.message ⟨phase, failures⟩)) w
  rcases htold with htold | ⟨fault, hrefused, htold⟩
  · refine ⟨w', _, htree, hcache, ?_, Or.inl rfl⟩
    simp only [fail, perform_bind, htold, perform_throw]
  · refine ⟨w', _, htree, hcache, ?_, Or.inr ⟨fault, hrefused, rfl⟩⟩
    simp only [fail, perform_bind, htold]

inductive FanOut [Codecs] (s : Splitter) (phase : Phase) (w : World) :
    Except Stop (Table String Piece) × World → Prop where
  | unstaffed : FanOut s phase w (.error (.escaped .noWorkers), w)
  | interrupted {fault : Fault} (refused : (Round.run s phase w).interruption = some fault) :
      FanOut s phase w (.error (.escaped fault), (Round.run s phase w).world)
  | failed {stop : Stop} {w' : World} (tree : w'.tree = (Round.run s phase w).world.tree)
      (cache : w'.cache = (Round.run s phase w).world.cache)
      (reason : stop = .phase ⟨phase, (Round.run s phase w).failures s.configuration.files⟩ ∨
        ∃ fault, s.Refuses fault ∧ stop = .escaped fault) :
      FanOut s phase w (.error stop, w')
  | done (going : (Round.run s phase w).interruption = none)
      (succeeded : (Round.run s phase w).failures s.configuration.files = []) :
      FanOut s phase w (.ok ((Round.run s phase w).resultsInOrder s.configuration.files),
        (Round.run s phase w).world)

theorem fanOut_cases [Codecs] (s : Splitter) (phase : Phase) (w : World) :
    FanOut s phase w ((s.fanOut phase).perform w) := by
  have hjobs : (s.runJobs phase).perform w =
      (.ok (Round.run s phase w), (Round.run s phase w).world) := rfl
  unfold fanOut
  cases hworkers : s.hasWorkers with
  | false =>
      simp only [Bool.not_false, if_true, perform_bind, perform_throw]
      exact .unstaffed
  | true =>
      simp only [Bool.not_true, Bool.false_eq_true, if_false, perform_bind, hjobs]
      cases hinterruption : (Round.run s phase w).interruption with
      | some fault =>
          simp only [perform_throw]
          exact .interrupted hinterruption
      | none =>
          cases hfailures : (Round.run s phase w).failures s.configuration.files with
          | nil =>
              simp only [List.isEmpty_nil, if_true, perform_pure]
              exact .done hinterruption hfailures
          | cons failure rest =>
              obtain ⟨w', stop, htree, hcache, hfail, hreason⟩ :=
                s.fail_cases (α := Table String Piece) phase (failure :: rest)
                  (Round.run s phase w).world
              simp only [List.isEmpty_cons, Bool.false_eq_true, if_false, hfail]
              exact .failed htree hcache (by rw [hfailures]; exact hreason)

theorem mem_failures {r : Round} {files : List String} {failure : FileFailure}
    (h : failure ∈ r.failures files) : Table.get? r.faults failure.path = some failure.fault := by
  obtain ⟨path, -, hpath⟩ := List.mem_filterMap.mp h
  cases hget : Table.get? r.faults path with
  | none => simp [hget] at hpath
  | some fault =>
      simp only [hget, Option.map_some, Option.some.injEq] at hpath
      rw [← hpath, hget]

/-- Without failures every source has its result. -/
theorem results_isSome [Codecs] {I : Round.Invariant} {phase : Phase} {w : World}
    (hholds : I.Holds s (Round.run s phase w))
    (hgoing : (Round.run s phase w).interruption = none)
    (hsucceeded : (Round.run s phase w).failures s.configuration.files = []) :
    ∀ path ∈ s.configuration.files,
      (Table.get? (Round.run s phase w).results path).isSome = true := by
  intro path hpath
  have hnone := List.filterMap_eq_nil_iff.mp hsucceeded path hpath
  rw [← Round.paths_run s phase w] at hpath
  obtain ⟨job, hjob, rfl⟩ := List.mem_map.mp hpath
  rcases hholds.collected hgoing job hjob (Round.collected_of_run hgoing hjob) with
    hresult | hfault
  · exact hresult
  · obtain ⟨fault, hget⟩ := Option.isSome_iff_exists.mp hfault
    simp [hget] at hnone

theorem resultsInOrder_eq [Codecs] {I : Round.Invariant} {phase : Phase} {w : World}
    (hholds : I.Holds s (Round.run s phase w))
    (hgoing : (Round.run s phase w).interruption = none)
    (hsucceeded : (Round.run s phase w).failures s.configuration.files = [])
    {pieceOf : String → Piece}
    (hpiece : ∀ path piece, Table.get? (Round.run s phase w).results path = some piece →
      piece = pieceOf path) :
    (Round.run s phase w).resultsInOrder s.configuration.files =
        s.configuration.files.eraseDups.map fun path => (path, pieceOf path) := by
  unfold Round.resultsInOrder
  rw [← List.filterMap_eq_map]
  refine List.filterMap_congr fun path hpath => ?_
  have hsome := results_isSome hholds hgoing hsucceeded path (List.mem_eraseDups.mp hpath)
  obtain ⟨piece, hget⟩ := Option.isSome_iff_exists.mp hsome
  rw [hget, hpiece _ _ hget]
  rfl

/-- That a cache holds the style sheets of all sources, each from the cache that a run started
with or from the file as it was then. -/
structure Knows [Codecs] (s : Splitter) (w₀ : World) (c : Cache) (sheetOf : String → Stylesheet) :
    Prop where
  cached : ∀ path ∈ s.configuration.files, ∃ serial, c.get? path = some ⟨serial, sheetOf path⟩
  source : ∀ path ∈ s.configuration.files,
    (∃ serial, w₀.cache.get? path = some ⟨serial, sheetOf path⟩) ∨
      Cache.load w₀.tree w₀.cache.encoding path = .ok (sheetOf path)

/-- What is known after a start from an empty cache is what the files held. -/
theorem Knows.load [Codecs] {w₀ : World} {c : Cache} {sheetOf : String → Stylesheet}
    (h : s.Knows w₀ c sheetOf) (hcache : w₀.cache = Cache.empty s.configuration.encoding)
    {path : String} (hpath : path ∈ s.configuration.files) :
    Cache.load w₀.tree s.configuration.encoding path = .ok (sheetOf path) := by
  rcases h.source path hpath with ⟨serial, hcached⟩ | hload
  · rw [hcache] at hcached
    cases hcached
  · rwa [hcache] at hload

/-- That a phase stopped since the combined file could not be written, or some other way. -/
def StopsAt (s : Splitter) (fault : Fault) (stop : Stop) : Prop :=
  ∀ phase failures, stop = .phase ⟨phase, failures⟩ →
    phase = .extract ∧ failures = [⟨s.configuration.dest, fault⟩] ∧ fault.isOfWriting = true

/-- How the first phase can end: nothing was written, writing the combined file failed, or it is
written. -/
inductive Extracted [Codecs] (s : Splitter) (w₀ : World) : Except Stop Combined × World → Prop where
  | untouched {stop : Stop} {w : World} (tree : w.tree = w₀.tree)
      (reason : ∀ phase failures, stop = .phase ⟨phase, failures⟩ → phase = .extract ∧
        ∀ failure ∈ failures, s.Refuses failure.fault ∨
          Cache.load w₀.tree w₀.cache.encoding failure.path = .error failure.fault) :
      Extracted s w₀ (.error stop, w)
  | unwritten {stop : Stop} {w : World} {fault : Fault} {sheetOf : String → Stylesheet}
      (knows : s.Knows w₀ w.cache sheetOf)
      (failed : TextFile.write w₀.tree s.configuration.encoding s.configuration.dest
        (s.combinedOf sheetOf) = (.error fault, w.tree))
      (reason : s.StopsAt fault stop) :
      Extracted s w₀ (.error stop, w)
  | written {result : Except Stop Combined} {w : World} {sheetOf : String → Stylesheet}
      (knows : s.Knows w₀ w.cache sheetOf)
      (succeeded : TextFile.write w₀.tree s.configuration.encoding s.configuration.dest
        (s.combinedOf sheetOf) = (.ok (), w.tree))
      (outcome : (∃ fault, s.Refuses fault ∧ result = .error (.escaped fault)) ∨
        result = .ok ⟨s.configuration.dest, s.configuration.files.eraseDups.map fun path =>
          (path, (s.pieceOf .extract (sheetOf path)).ruleCount)⟩) :
      Extracted s w₀ (result, w)

theorem knows_of_reading [Codecs] {w₀ : World} {r : Round}
    (hholds : (s.reading w₀.tree w₀.cache).Holds s r)
    (hresults : ∀ path ∈ s.configuration.files, (Table.get? r.results path).isSome = true) :
    s.Knows w₀ r.world.cache r.world.cache.sheetOf ∧ ∀ path piece,
      Table.get? r.results path = some piece →
        piece = s.pieceOf .extract (r.world.cache.sheetOf path) := by
  have hsheetOf : ∀ path serial sheet, r.world.cache.get? path = some ⟨serial, sheet⟩ →
      r.world.cache.sheetOf path = sheet := by
    intro path serial sheet hget
    simp only [Cache.sheetOf, hget]
  have hcached : ∀ path ∈ s.configuration.files,
      ∃ serial, r.world.cache.get? path = some ⟨serial, r.world.cache.sheetOf path⟩ := by
    intro path hpath
    obtain ⟨piece, hpiece⟩ := Option.isSome_iff_exists.mp (hresults path hpath)
    obtain ⟨serial, sheet, hget, -⟩ := (hholds.results path piece hpiece).2
    exact ⟨serial, by rw [hsheetOf path serial sheet hget, hget]⟩
  refine ⟨⟨hcached, fun path hpath => ?_⟩, fun path piece hpiece => ?_⟩
  · obtain ⟨serial, hget⟩ := hcached path hpath
    exact (hholds.shared.2.2 path _ hget).imp_left fun h => ⟨serial, h⟩
  · obtain ⟨serial, sheet, hget, hpiece'⟩ := (hholds.results path piece hpiece).2
    rw [hsheetOf path serial sheet hget]
    exact hpiece'

private theorem reportCombined_cases (s : Splitter) (fault : Fault) (w : World) :
    ∃ stop w', (if fault.isOfWriting then (do
        orEscape fun w => (.ok (), w.note (.cannotWrite s.configuration.dest fault.message))
        s.announce (.fileFailed .extract s.configuration.dest fault.message)
        s.fail .extract [⟨s.configuration.dest, fault⟩])
      else throw (.escaped fault) : Act Unit).perform w = (.error stop, w') ∧
      w'.tree = w.tree ∧ w'.cache = w.cache ∧ s.StopsAt fault stop := by
  split
  · rename_i hkind
    obtain ⟨w₁, htree₁, hcache₁, hannounce⟩ := s.announce_cases
      (.fileFailed .extract s.configuration.dest fault.message)
      (w.note (.cannotWrite s.configuration.dest fault.message))
    obtain ⟨w₂, stop, htree₂, hcache₂, hfail, hreason⟩ := s.fail_cases (α := Unit)
      .extract [⟨s.configuration.dest, fault⟩] w₁
    simp only [perform_bind, orEscape, perform_mk]
    rcases hannounce with hannounce | ⟨refusal, -, hannounce⟩
    · refine ⟨stop, w₂, ?_, htree₂.trans htree₁, hcache₂.trans hcache₁, ?_⟩
      · rw [hannounce]
        exact hfail
      · intro phase failures hstop
        rcases hreason with hreason | ⟨refusal, -, hreason⟩
        · rw [hreason] at hstop
          cases hstop
          exact ⟨rfl, rfl, hkind⟩
        · rw [hreason] at hstop
          cases hstop
    · refine ⟨.escaped refusal, w₁, ?_, htree₁, hcache₁, nofun⟩
      rw [hannounce]
  · exact ⟨.escaped fault, w, rfl, rfl, rfl, nofun⟩

theorem writeCombined_cases [Codecs] (s : Splitter) (text : String) (w : World) :
    ∃ result w', (s.writeCombined text).perform w = (result, w') ∧ w'.cache = w.cache ∧
      ((∃ fault stop, TextFile.write w.tree s.configuration.encoding s.configuration.dest text =
          (.error fault, w'.tree) ∧ result = .error stop ∧ s.StopsAt fault stop) ∨
        TextFile.write w.tree s.configuration.encoding s.configuration.dest text =
          (.ok (), w'.tree) ∧ result = .ok ()) := by
  unfold writeCombined
  simp only [perform_bind, perform_mk, World.write]
  cases hwrite : TextFile.write w.tree s.configuration.encoding s.configuration.dest text with
  | mk written tree =>
      cases written with
      | ok _ => exact ⟨_, _, rfl, rfl, Or.inr ⟨rfl, rfl⟩⟩
      | error fault =>
          obtain ⟨stop, w', hreport, htree, hcache, hstop⟩ :=
            s.reportCombined_cases fault { w with tree := tree }
          refine ⟨.error stop, w', hreport, hcache, Or.inl ⟨fault, stop, ?_, rfl, hstop⟩⟩
          rw [htree]

/-- What follows once the sources are read: the combined file is written and told of. -/
private theorem finishExtract_cases [Codecs] (s : Splitter) (text : String) (combined : Combined)
    (w : World) :
    ∃ result w', (do
        s.writeCombined text
        s.announce (.fileWritten .extract s.configuration.dest)
        s.announce (.phaseCompleted .extract)
        return combined : Act Combined).perform w = (result, w') ∧ w'.cache = w.cache ∧
      ((∃ fault stop, TextFile.write w.tree s.configuration.encoding s.configuration.dest text =
          (.error fault, w'.tree) ∧ result = .error stop ∧ s.StopsAt fault stop) ∨
        TextFile.write w.tree s.configuration.encoding s.configuration.dest text =
            (.ok (), w'.tree) ∧
          ((∃ fault, s.Refuses fault ∧ result = .error (.escaped fault)) ∨
            result = .ok combined)) := by
  obtain ⟨result, w₁, hwrite, hcache₁, hcases⟩ := s.writeCombined_cases text w
  simp only [perform_bind, hwrite]
  rcases hcases with ⟨fault, stop, hfailed, rfl, hstop⟩ | ⟨hdone, rfl⟩
  · exact ⟨_, w₁, rfl, hcache₁, Or.inl ⟨fault, stop, hfailed, rfl, hstop⟩⟩
  · obtain ⟨w₂, htree₂, hcache₂, hwritten⟩ := s.announce_cases
      (.fileWritten .extract s.configuration.dest) w₁
    rcases hwritten with hwritten | ⟨fault, hrefused, hwritten⟩
    · obtain ⟨w₃, htree₃, hcache₃, hcompleted⟩ := s.announce_cases (.phaseCompleted .extract) w₂
      have htree : w₃.tree = w₁.tree := htree₃.trans htree₂
      have hcache : w₃.cache = w.cache := hcache₃.trans (hcache₂.trans hcache₁)
      rcases hcompleted with hcompleted | ⟨fault, hrefused, hcompleted⟩
      · refine ⟨.ok combined, w₃, ?_, hcache, Or.inr ⟨by rw [htree, hdone], Or.inr rfl⟩⟩
        simp only [hwritten, hcompleted, perform_pure]
      · refine ⟨.error (.escaped fault), w₃, ?_, hcache,
          Or.inr ⟨by rw [htree, hdone], Or.inl ⟨fault, hrefused, rfl⟩⟩⟩
        simp only [hwritten, hcompleted]
    · refine ⟨.error (.escaped fault), w₂, ?_, hcache₂.trans hcache₁,
        Or.inr ⟨by rw [htree₂, hdone], Or.inl ⟨fault, hrefused, rfl⟩⟩⟩
      simp only [hwritten]

theorem extractMedia_cases [Codecs] (s : Splitter) {w₀ w : World} (htree : w.tree = w₀.tree)
    (hcache : w.cache = w₀.cache) : Extracted s w₀ (s.extractMedia.perform w) := by
  unfold extractMedia
  rw [perform_bind]
  obtain ⟨w₁, htree₁, hcache₁, hstarted⟩ := s.announce_cases (.phaseStarted .extract) w
  rw [htree] at htree₁
  rw [hcache] at hcache₁
  rcases hstarted with hstarted | ⟨fault, hrefused, hstarted⟩
  · rw [hstarted]
    simp only
    rw [perform_bind]
    have hholds : (s.reading w₀.tree w₀.cache).Holds s (Round.run s .extract w₁) := by
      refine Round.Invariant.holds_run (s.reading_isKept w₀.tree w₀.cache) ?_ fun _ _ => trivial
      exact ⟨htree₁, by rw [hcache₁], fun path parsed hget => Or.inl (by rw [← hcache₁, hget])⟩
    have hfanOut := s.fanOut_cases .extract w₁
    generalize (s.fanOut .extract).perform w₁ = fanned at hfanOut
    cases hfanOut with
    | unstaffed => exact .untouched htree₁ nofun
    | interrupted refused => exact .untouched hholds.shared.1 nofun
    | failed tree cache reason =>
        refine .untouched (tree.trans hholds.shared.1) fun phase failures hstop => ?_
        rcases reason with hreason | ⟨fault, -, hreason⟩
        · rw [hreason] at hstop
          cases hstop
          exact ⟨rfl, fun failure hfailure => (hholds.faults _ _ (mem_failures hfailure)).2⟩
        · rw [hreason] at hstop
          cases hstop
    | done going succeeded =>
        obtain ⟨hknows, hpiece⟩ := knows_of_reading hholds (results_isSome hholds going succeeded)
        have hpieces := resultsInOrder_eq hholds going succeeded hpiece
        simp only [hpieces, List.map_map, Function.comp_def]
        obtain ⟨result, w₂, hfinish, hcache₂, hcases⟩ := s.finishExtract_cases
          (s.combinedOf (Round.run s .extract w₁).world.cache.sheetOf)
          ⟨s.configuration.dest, s.configuration.files.eraseDups.map fun path =>
            (path, (s.pieceOf .extract
              ((Round.run s .extract w₁).world.cache.sheetOf path)).ruleCount)⟩
          (Round.run s .extract w₁).world
        rw [hholds.shared.1] at hcases
        rw [← hcache₂] at hknows
        have hextracted : Extracted s w₀ (result, w₂) := by
          rcases hcases with ⟨fault, stop, hfailed, rfl, hstop⟩ | ⟨hdone, houtcome⟩
          · exact .unwritten hknows (by rw [hcache₂]; exact hfailed) hstop
          · refine .written hknows (by rw [hcache₂]; exact hdone) ?_
            rw [hcache₂]
            exact houtcome
        rw [← hfinish] at hextracted
        exact hextracted
  · rw [hstarted]
    exact .untouched htree₁ nofun

/-- How the second phase can end, if it starts from files `t` and a cache of all sources. Files are
only rewritten, and both what is written and what is not is told of. -/
inductive Copied [Codecs] (s : Splitter) (t : FileTree) (sheetOf : String → Stylesheet) :
    Except Stop (List StrippedFile) × World → Prop where
  | stopped {stop : Stop} {w : World}
      (rewritten : TextFile.Rewritten (s.copies sheetOf) s.configuration.encoding t w.tree)
      (reason : ∀ phase failures, stop = .phase ⟨phase, failures⟩ → phase = .strip ∧
        ∀ failure ∈ failures, failure.path ∈ s.configuration.files ∧
          s.Left t sheetOf w.tree failure.path (.error failure.fault)) :
      Copied s t sheetOf (.error stop, w)
  | done {w : World}
      (rewritten : TextFile.Rewritten (s.copies sheetOf) s.configuration.encoding t w.tree)
      (left : ∀ path ∈ s.configuration.files,
        s.Left t sheetOf w.tree path (.ok (s.pieceOf .strip (sheetOf path)))) :
      Copied s t sheetOf (.ok (s.configuration.files.eraseDups.map fun path =>
        ⟨path, s.outputPath path, (s.pieceOf .strip (sheetOf path)).ruleCount⟩), w)

theorem writeStripped_cases [Codecs] {w₀ : World} {sheetOf : String → Stylesheet}
    (hcached : ∀ path ∈ s.configuration.files,
      ∃ serial, w₀.cache.get? path = some ⟨serial, sheetOf path⟩)
    (hnamed : TextFile.checkName s.configuration.encoding = .ok ()) :
    Copied s w₀.tree sheetOf (s.writeStripped.perform w₀) ∧
      (s.writeStripped.perform w₀).2.cache = w₀.cache := by
  unfold writeStripped
  rw [perform_bind]
  obtain ⟨w₁, htree₁, hcache₁, hstarted⟩ := s.announce_cases (.phaseStarted .strip) w₀
  have hunchanged : TextFile.Rewritten (s.copies sheetOf) s.configuration.encoding w₀.tree
      w₁.tree := by
    rw [htree₁]
    exact .refl _ _ _
  rcases hstarted with hstarted | ⟨fault, hrefused, hstarted⟩
  · rw [hstarted]
    simp only
    rw [perform_bind]
    have hholds : (s.copying w₀.tree w₁.cache sheetOf).Holds s (Round.run s .strip w₁) := by
      refine Round.Invariant.holds_run (copying_isKept ?_ hnamed) ⟨rfl, hunchanged⟩
        fun _ _ => trivial
      rw [hcache₁]
      exact hcached
    have hcacheAfter : (Round.run s .strip w₁).world.cache = w₀.cache :=
      hholds.shared.1.trans hcache₁
    have hfanOut := s.fanOut_cases .strip w₁
    generalize (s.fanOut .strip).perform w₁ = fanned at hfanOut
    cases hfanOut with
    | unstaffed => exact ⟨.stopped hunchanged nofun, hcache₁⟩
    | interrupted refused => exact ⟨.stopped hholds.shared.2 nofun, hcacheAfter⟩
    | failed tree cache reason =>
        refine ⟨.stopped (by rw [tree]; exact hholds.shared.2) fun phase failures hstop => ?_,
          cache.trans hcacheAfter⟩
        rcases reason with hreason | ⟨fault, -, hreason⟩
        · rw [hreason] at hstop
          cases hstop
          refine ⟨rfl, fun failure hfailure => ?_⟩
          rw [tree]
          exact hholds.faults _ _ (mem_failures hfailure)
        · rw [hreason] at hstop
          cases hstop
    | done going succeeded =>
        have hpiece : ∀ path piece, Table.get? (Round.run s .strip w₁).results path = some piece →
            piece = s.pieceOf .strip (sheetOf path) := by
          intro path piece hget
          have hleft : s.Left _ _ _ _ (.ok piece) := (hholds.results path piece hget).2
          exact hleft.1
        have hpieces := resultsInOrder_eq hholds going succeeded hpiece
        have hleft : ∀ path ∈ s.configuration.files, s.Left w₀.tree sheetOf
            (Round.run s .strip w₁).world.tree path (.ok (s.pieceOf .strip (sheetOf path))) := by
          intro path hpath
          obtain ⟨piece, hget⟩ :=
            Option.isSome_iff_exists.mp (results_isSome hholds going succeeded path hpath)
          rw [← hpiece path piece hget]
          exact (hholds.results path piece hget).2
        obtain ⟨w₂, htree₂, hcache₂, hcompleted⟩ :=
          s.announce_cases (.phaseCompleted .strip) (Round.run s .strip w₁).world
        rw [← htree₂] at hleft
        have hrewritten := hholds.shared.2
        rw [← htree₂] at hrewritten
        simp only [hpieces, List.map_map, Function.comp_def, perform_bind]
        rcases hcompleted with hcompleted | ⟨fault, hrefused, hcompleted⟩
        · rw [hcompleted]
          exact ⟨.done hrewritten hleft, hcache₂.trans hcacheAfter⟩
        · rw [hcompleted]
          exact ⟨.stopped hrewritten nofun, hcache₂.trans hcacheAfter⟩
  · rw [hstarted]
    exact ⟨.stopped hunchanged nofun, hcache₁⟩

inductive Ran [Codecs] (s : Splitter) (w₀ : World) : Except Stop Report × World → Prop where
  | untouched {stop : Stop} {w : World} (tree : w.tree = w₀.tree)
      (reason : ∀ phase failures, stop = .phase ⟨phase, failures⟩ → phase = .extract ∧
        ∀ failure ∈ failures, s.Refuses failure.fault ∨
          Cache.load w₀.tree w₀.cache.encoding failure.path = .error failure.fault) :
      Ran s w₀ (.error stop, w)
  | unwritten {stop : Stop} {w : World} {fault : Fault} {sheetOf : String → Stylesheet}
      (knows : s.Knows w₀ w.cache sheetOf)
      (failed : TextFile.write w₀.tree s.configuration.encoding s.configuration.dest
        (s.combinedOf sheetOf) = (.error fault, w.tree))
      (reason : s.StopsAt fault stop) :
      Ran s w₀ (.error stop, w)
  | further {result : Except Stop Report} {copied : Except Stop (List StrippedFile)} {w w' : World}
      {t : FileTree} {sheetOf : String → Stylesheet} (knows : s.Knows w₀ w.cache sheetOf)
      (succeeded : TextFile.write w₀.tree s.configuration.encoding s.configuration.dest
        (s.combinedOf sheetOf) = (.ok (), t))
      (copies : Copied s t sheetOf (copied, w'))
      (tree : w.tree = w'.tree)
      (outcome : (∃ fault, s.Refuses fault ∧ result = .error (.escaped fault)) ∨
        (∃ stop, copied = .error stop ∧ result = .error stop) ∨
        ∃ stripped, copied = .ok stripped ∧ result = .ok ⟨⟨s.configuration.dest,
          s.configuration.files.eraseDups.map fun path =>
            (path, (s.pieceOf .extract (sheetOf path)).ruleCount)⟩, stripped⟩) :
      Ran s w₀ (result, w)

theorem run_cases [Codecs] (s : Splitter) (w₀ : World) : Ran s w₀ (s.run.perform w₀) := by
  unfold run
  rw [perform_bind]
  obtain ⟨w₁, htree₁, hcache₁, hstarted⟩ :=
    s.announce_cases (.runStarted s.configuration.files s.configuration.dest) w₀
  rcases hstarted with hstarted | ⟨fault, hrefused, hstarted⟩
  · rw [hstarted]
    simp only
    rw [perform_bind]
    have hextracted := s.extractMedia_cases htree₁ hcache₁
    generalize s.extractMedia.perform w₁ = extracted at hextracted
    cases hextracted with
    | untouched tree reason => exact .untouched tree reason
    | unwritten knows failed reason => exact .unwritten knows failed reason
    | @written result w₂ sheetOf knows succeeded outcome =>
        rcases outcome with ⟨fault, hrefused, rfl⟩ | rfl
        · have hstopped : Copied s w₂.tree sheetOf (.error (.escaped fault), w₂) :=
            .stopped (.refl _ _ _) nofun
          exact .further knows succeeded hstopped rfl (Or.inl ⟨fault, hrefused, rfl⟩)
        · simp only
          rw [perform_bind]
          have hnamed := TextFile.checkName_of_write (congrArg Prod.fst succeeded)
          obtain ⟨hcopied, hcache₃⟩ := s.writeStripped_cases knows.cached hnamed
          cases hcopying : s.writeStripped.perform w₂ with
          | mk copied w₃ =>
              rw [hcopying] at hcopied hcache₃
              rw [← hcache₃] at knows
              cases copied with
              | error stop =>
                  exact .further knows succeeded hcopied rfl (Or.inr (Or.inl ⟨stop, rfl, rfl⟩))
              | ok stripped =>
                  simp only [perform_bind]
                  let report : Report := ⟨⟨s.configuration.dest,
                    s.configuration.files.eraseDups.map fun path =>
                      (path, (s.pieceOf .extract (sheetOf path)).ruleCount)⟩, stripped⟩
                  obtain ⟨w₄, htree₄, hcache₄, hcompleted⟩ :=
                    s.announce_cases (.runCompleted report) w₃
                  rw [← hcache₄] at knows
                  rcases hcompleted with hcompleted | ⟨fault, hrefused, hcompleted⟩
                  · rw [hcompleted]
                    exact .further knows succeeded hcopied htree₄
                      (Or.inr (Or.inr ⟨stripped, rfl, rfl⟩))
                  · rw [hcompleted]
                    exact .further knows succeeded hcopied htree₄ (Or.inl ⟨fault, hrefused, rfl⟩)
  · rw [hstarted]
    exact .untouched htree₁ nofun

end Splitter

end MediaSplit
