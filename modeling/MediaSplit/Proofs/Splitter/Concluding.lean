import MediaSplit.Proofs.Splitter.Collecting
import MediaSplit.Proofs.Splitter.Run

/-!
A run whose events are all accepted. Telling of something then never ends it, so each part of it
has one outcome, which only the files and the outcomes of the jobs decide.
-/

namespace MediaSplit

namespace World

def told (w : World) (e : Event) : World :=
  w.record (.event e)

@[simp] theorem told_tree (w : World) (e : Event) : (w.told e).tree = w.tree := rfl

@[simp] theorem told_cache (w : World) (e : Event) : (w.told e).cache = w.cache := rfl

@[simp] theorem told_events (w : World) (e : Event) : (w.told e).events = w.events ++ [e] :=
  w.events_record e

@[simp] theorem note_tree (w : World) (n : Notice) : (w.note n).tree = w.tree := rfl

@[simp] theorem note_cache (w : World) (n : Notice) : (w.note n).cache = w.cache := rfl

end World

namespace Splitter

open Act

variable {s : Splitter}

theorem announce_of_isQuiet (hquiet : s.IsQuiet) (e : Event) (w : World) :
    (s.announce e).perform w = (.ok (), w.told e) := by
  simp only [announce, orEscape, perform_mk, tell_of_isQuiet hquiet, World.told]

theorem fail_of_isQuiet {α : Type} (hquiet : s.IsQuiet) (phase : Phase)
    (failures : List FileFailure) (w : World) :
    (s.fail phase failures : Act α).perform w =
      (.error (.phase ⟨phase, failures⟩),
        w.told (.phaseFailed phase (PhaseError.message ⟨phase, failures⟩))) := by
  simp only [fail, perform_bind, announce_of_isQuiet hquiet, perform_throw]

def conclude (phase : Phase) (failures : List FileFailure) (results : Table String Piece)
    (w : World) : Except Stop (Table String Piece) × World :=
  if failures = [] then (.ok results, w)
  else (.error (.phase ⟨phase, failures⟩),
    w.told (.phaseFailed phase (PhaseError.message ⟨phase, failures⟩)))

/-- The jobs of a phase end as the outcomes say that an invariant allows. -/
theorem fanOut_of_holds [Codecs] (hquiet : s.IsQuiet) (hworkers : s.hasWorkers = true)
    {phase : Phase} {w : World} {I : Round.Invariant} (hholds : I.Holds s (Round.run s phase w)) :
    ∃ outcome : String → Except Fault Piece,
      (∀ path ∈ s.configuration.files, I.job (Round.run s phase w).world.tree
        (Round.run s phase w).world.cache path (.finished (outcome path))) ∧
      (s.fanOut phase).perform w =
        conclude phase (failuresOf outcome s.configuration.files)
          (resultsOf outcome s.configuration.files) (Round.run s phase w).world := by
  have hjobs : (s.runJobs phase).perform w =
      (.ok (Round.run s phase w), (Round.run s phase w).world) := rfl
  have hgoing := Round.interruption_of_isQuiet hholds hquiet
  obtain ⟨outcome, hended, hfailures, hresults⟩ := Round.exists_outcome hholds hgoing
    (Round.paths_run s phase w) fun job hjob => Round.collected_of_run hgoing hjob
  refine ⟨outcome, hended, ?_⟩
  simp only [fanOut, hworkers, Bool.not_true, Bool.false_eq_true, if_false, perform_bind, hjobs,
    hgoing, hfailures, conclude]
  cases hnone : failuresOf outcome s.configuration.files with
  | nil => simp only [List.isEmpty_nil, if_true, perform_pure, hresults hnone]
  | cons failure rest =>
      simp only [List.isEmpty_cons, Bool.false_eq_true, if_false, reduceCtorEq]
      exact fail_of_isQuiet hquiet phase (failure :: rest) _

/-- The first phase, when what becomes of its jobs is known. -/
theorem extractMedia_of_fanOut [Codecs] (hquiet : s.IsQuiet) {w w' : World}
    {failures : List FileFailure} {results : Table String Piece}
    (hfanOut : (s.fanOut .extract).perform (w.told (.phaseStarted .extract)) =
      conclude .extract failures results w') :
    s.extractMedia.perform w =
      if failures = [] then
        match (s.writeCombined (combinedText results)).perform w' with
        | (.ok (), w'') =>
            (.ok ⟨s.configuration.dest, results.map fun piece => (piece.1, piece.2.ruleCount)⟩,
              (w''.told (.fileWritten .extract s.configuration.dest)).told (.phaseCompleted .extract))
        | (.error stop, w'') => (.error stop, w'')
      else
        (.error (.phase ⟨.extract, failures⟩),
          w'.told (.phaseFailed .extract (PhaseError.message ⟨.extract, failures⟩))) := by
  simp only [extractMedia, perform_bind, announce_of_isQuiet hquiet, hfanOut, conclude]
  by_cases hnone : failures = []
  · simp only [hnone, if_true]
    cases (s.writeCombined (combinedText results)).perform w' with
    | mk result w'' => cases result <;> rfl
  · simp only [hnone, if_false]

/-- The second phase, when what becomes of its jobs is known. -/
theorem writeStripped_of_fanOut [Codecs] (hquiet : s.IsQuiet) {w w' : World}
    {failures : List FileFailure} {results : Table String Piece}
    (hfanOut : (s.fanOut .strip).perform (w.told (.phaseStarted .strip)) =
      conclude .strip failures results w') :
    s.writeStripped.perform w =
      if failures = [] then
        (.ok (results.map fun piece => ⟨piece.1, s.outputPath piece.1, piece.2.ruleCount⟩),
          w'.told (.phaseCompleted .strip))
      else
        (.error (.phase ⟨.strip, failures⟩),
          w'.told (.phaseFailed .strip (PhaseError.message ⟨.strip, failures⟩))) := by
  simp only [writeStripped, perform_bind, announce_of_isQuiet hquiet, hfanOut, conclude]
  by_cases hnone : failures = []
  · simp only [hnone, if_true, perform_pure]
  · simp only [hnone, if_false]

/-- A run, as its two phases go. -/
theorem run_of_isQuiet [Codecs] (hquiet : s.IsQuiet) (w : World) :
    s.run.perform w =
      match s.extractMedia.perform
        (w.told (.runStarted s.configuration.files s.configuration.dest)) with
      | (.ok combined, w₁) =>
          match s.writeStripped.perform w₁ with
          | (.ok stripped, w₂) =>
              (.ok ⟨combined, stripped⟩, w₂.told (.runCompleted ⟨combined, stripped⟩))
          | (.error stop, w₂) => (.error stop, w₂)
      | (.error stop, w₁) => (.error stop, w₁) := by
  simp only [run, perform_bind, announce_of_isQuiet hquiet, perform_pure]
  cases s.extractMedia.perform (w.told (.runStarted s.configuration.files s.configuration.dest)) with
  | mk combined w₁ =>
      cases combined with
      | error stop => rfl
      | ok combined =>
          simp only
          cases s.writeStripped.perform w₁ with
          | mk stripped w₂ => cases stripped <;> rfl

def extraction [Codecs] (s : Splitter) (t : FileTree) (path : String) : Except Fault Piece :=
  (Cache.load t s.configuration.encoding path).map (s.pieceOf .extract)

/-- From an empty cache a job of the first phase can end in one way only. -/
theorem extraction_of_reading [Codecs] (hquiet : s.IsQuiet) {t tree : FileTree} {cache : Cache}
    (hshared : (s.reading t (Cache.empty s.configuration.encoding)).shared tree cache)
    {path : String} {ended : Except Fault Piece}
    (hended : (s.reading t (Cache.empty s.configuration.encoding)).job tree cache path
      (.finished ended)) : ended = s.extraction t path := by
  cases ended with
  | ok piece =>
      obtain ⟨serial, sheet, hget, rfl⟩ := hended
      rcases hshared.2.2 path _ hget with hcached | hload
      · cases hcached
      · change Cache.load t s.configuration.encoding path = _ at hload
        rw [extraction, hload]
        rfl
  | error fault =>
      rcases hended with hrefused | hload
      · exact absurd hrefused (not_refuses_of_isQuiet hquiet fault)
      · change Cache.load t s.configuration.encoding path = _ at hload
        rw [extraction, hload]
        rfl

/-- The jobs of the first phase, from an empty cache: they end as the files say and leave them
alone. -/
theorem fanOut_extract [Codecs] (hquiet : s.IsQuiet) (hworkers : s.hasWorkers = true) {w : World}
    (hcache : w.cache = Cache.empty s.configuration.encoding) :
    (s.reading w.tree w.cache).Holds s (Round.run s .extract w) ∧
      (s.fanOut .extract).perform w =
        conclude .extract (failuresOf (s.extraction w.tree) s.configuration.files)
          (resultsOf (s.extraction w.tree) s.configuration.files) (Round.run s .extract w).world := by
  have hholds : (s.reading w.tree w.cache).Holds s (Round.run s .extract w) :=
    Round.Invariant.holds_run (s.reading_isKept _ _)
      ⟨rfl, rfl, fun path parsed hget => Or.inl hget⟩ fun _ _ => trivial
  refine ⟨hholds, ?_⟩
  obtain ⟨outcome, hended, hfanOut⟩ := fanOut_of_holds hquiet hworkers hholds
  rw [hcache] at hholds hended
  have hsame : ∀ path ∈ s.configuration.files, outcome path = s.extraction w.tree path :=
    fun path hpath => extraction_of_reading hquiet hholds.shared (hended path hpath)
  rw [hfanOut, resultsOf_congr hsame,
    failuresOf_congr fun path hpath fault => by rw [hsame path hpath]]

end Splitter

end MediaSplit
