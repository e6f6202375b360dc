import MediaSplit.Proofs.Splitter.Phases

/-!
What a phase tells. Each job tells of its own file, and what it will tell is settled by where it
stands, so the order of the moves decides the order of the events of a phase but not which events
there are.
-/

namespace MediaSplit

def Event.isOfFile (phase : Phase) : Event → Bool
  | .fileClassified p _ _ | .fileWritten p _ | .fileFailed p _ _ => p = phase
  | _ => false

namespace World

variable (w : World)

theorem events_record (e : Event) : (w.record (.event e)).events = w.events ++ [e] := by
  simp [events, record]

theorem events_note (n : Notice) : (w.note n).events = w.events := by
  simp [events, note, record]

theorem events_load [Codecs] (path : String) : (w.load path).2.events = w.events := by
  have htold : (if w.cache.holds path then w else w.note (.parsing path)).events = w.events := by
    split
    · rfl
    · exact w.events_note _
  simp only [load]
  split <;> exact htold

theorem events_write [Codecs] (encoding path text : String) :
    (w.write encoding path text).2.events = w.events :=
  rfl

end World

namespace Splitter

def IsQuiet (s : Splitter) : Prop :=
  ∀ e, s.listener e = none

variable {s : Splitter}

theorem tell_of_isQuiet (hquiet : s.IsQuiet) (e : Event) (w : World) :
    s.tell e w = (.ok (), w.record (.event e)) := by
  simp only [tell, hquiet e]

theorem not_refuses_of_isQuiet (hquiet : s.IsQuiet) (fault : Fault) : ¬ s.Refuses fault := by
  rintro ⟨e, message, hrefused, -⟩
  rw [hquiet e] at hrefused
  cases hrefused

private theorem events_tell (s : Splitter) (e : Event) (w : World) :
    (s.tell e w).2.events = w.events ++ [e] :=
  w.events_record e

def stepEvents (s : Splitter) (phase : Phase) (path : String) : Stage → List Event
  | .loaded sheet => [.fileClassified phase path (s.pieceOf phase sheet).ruleCount]
  | .written _ => [.fileWritten phase (s.outputPath path)]
  | _ => []

theorem events_advance [Codecs] (s : Splitter) (phase : Phase) (path : String) (w : World)
    (stage : Stage) :
    (s.advance phase path w stage).2.events = w.events ++ s.stepEvents phase path stage := by
  cases stage with
  | waiting =>
      have hload := w.events_load path
      simp only [advance, stepEvents, List.append_nil]
      split <;> rename_i heq <;> rwa [heq] at hload
  | loaded sheet =>
      have htold := s.events_tell (.fileClassified phase path (s.pieceOf phase sheet).ruleCount)
        (w.note (classifiedNotice phase (s.pieceOf phase sheet).ruleCount path))
      rw [World.events_note] at htold
      simp only [advance, stepEvents]
      split <;> rename_i heq <;> rw [heq] at htold
      · exact htold
      · cases phase <;> exact htold
  | classified piece =>
      have hwritten := w.events_write s.configuration.encoding (s.outputPath path) piece.text
      simp only [advance, stepEvents, List.append_nil]
      split <;> rename_i heq <;> rwa [heq] at hwritten
  | written piece =>
      have htold := s.events_tell (.fileWritten phase (s.outputPath path)) w
      simp only [advance, stepEvents]
      split <;> rename_i heq <;> rwa [heq] at htold
  | finished outcome => exact (List.append_nil _).symm
  | collected => exact (List.append_nil _).symm

end Splitter

namespace Round

variable {s : Splitter} {phase : Phase}

def collectEvents (phase : Phase) (path : String) : Except Fault Piece → List Event
  | .ok _ => []
  | .error fault => [.fileFailed phase path fault.message]

theorem events_collect (s : Splitter) (phase : Phase) (path : String) (r : Round)
    (outcome : Except Fault Piece) :
    (collect s phase path r outcome).world.events =
      r.world.events ++ collectEvents phase path outcome := by
  cases outcome with
  | ok piece => exact (List.append_nil _).symm
  | error fault =>
      have htold := (r.world.note (.workFailed path fault.message)).events_record
        (.fileFailed phase path fault.message)
      rw [World.events_note] at htold
      simp only [collect, Splitter.tell]
      cases s.listener (.fileFailed phase path fault.message) <;> exact htold

/-- A move tells of the file of its job or of nothing. -/
theorem events_move [Codecs] (s : Splitter) (phase : Phase) (r : Round) (index : Nat) :
    ∃ told, (move s phase r index).world.events = r.world.events ++ told ∧
      ∀ e ∈ told, e.isOfFile phase = true := by
  rcases move_cases s phase r index with ⟨-, h⟩ | ⟨job, -, -, h⟩ | ⟨job, outcome, -, -, -, h⟩
  · exact ⟨[], by rw [h, List.append_nil], nofun⟩
  · refine ⟨_, by rw [h]; exact s.events_advance phase job.path r.world job.stage, fun e he => ?_⟩
    cases hstage : job.stage <;> rw [hstage, Splitter.stepEvents] at he
    case loaded => rw [List.mem_singleton.mp he]; simp [Event.isOfFile]
    case written => rw [List.mem_singleton.mp he]; simp [Event.isOfFile]
    all_goals exact absurd he List.not_mem_nil
  · refine ⟨_, by rw [h]; exact events_collect s phase job.path r outcome, fun e he => ?_⟩
    cases outcome with
    | ok piece => exact absurd he List.not_mem_nil
    | error fault => rw [List.mem_singleton.mp he]; simp [Event.isOfFile]

theorem events_run [Codecs] (s : Splitter) (phase : Phase) (w : World) :
    ∃ told, (run s phase w).world.events = w.events ++ told ∧
      ∀ e ∈ told, e.isOfFile phase = true := by
  have hmoves : ∀ (moves : List Nat) (r : Round),
      ∃ told, (moves.foldl (move s phase) r).world.events = r.world.events ++ told ∧
        ∀ e ∈ told, e.isOfFile phase = true := by
    intro moves
    induction moves with
    | nil => exact fun r => ⟨[], (List.append_nil _).symm, nofun⟩
    | cons index rest ih =>
        intro r
        obtain ⟨first, hfirst, hfirst'⟩ := events_move s phase r index
        obtain ⟨others, hothers, hothers'⟩ := ih (move s phase r index)
        refine ⟨first ++ others, by rw [List.foldl_cons, hothers, hfirst, List.append_assoc], ?_⟩
        intro e he
        exact (List.mem_append.mp he).elim (hfirst' e) (hothers' e)
  exact hmoves _ _

/-- Nothing is refused in a phase that is told to a quiet listener. -/
theorem interruption_of_isQuiet {I : Invariant} {r : Round} (hholds : I.Holds s r)
    (hquiet : s.IsQuiet) : r.interruption = none := by
  cases hinterruption : r.interruption with
  | none => rfl
  | some fault =>
      exact absurd (hholds.interruption fault hinterruption)
        (Splitter.not_refuses_of_isQuiet hquiet fault)

/-- That `left` says what a job has still to tell where it stands: with each step it loses just
what the step tells, and at the end the failure of the job if there is one. -/
structure Invariant.Foretells [Codecs] (I : Invariant) (s : Splitter) (phase : Phase)
    (left : String → Stage → List Event) : Prop where
  step : ∀ {path stage} {w : World}, path ∈ s.configuration.files → stage.isUnderway = true →
    I.shared w.tree w.cache → I.job w.tree w.cache path stage →
    left path stage = s.stepEvents phase path stage ++
      left path (s.advance phase path w stage).1
  finished : ∀ path outcome, left path (.finished outcome) = collectEvents phase path outcome
  collected : ∀ path, left path .collected = []

private theorem count_flatMap_set {α : Type} {jobs : List α} {index : Nat} {job : α}
    (h : jobs[index]? = some job) (job' : α) (f : α → List Event) (e : Event) :
    ((jobs.set index job').flatMap f).count e + (f job).count e =
      (jobs.flatMap f).count e + (f job').count e := by
  induction jobs generalizing index with
  | nil => cases h
  | cons first rest ih =>
      cases index with
      | zero =>
          obtain rfl := Option.some.inj h
          simp only [List.set_cons_zero, List.flatMap_cons, List.count_append]
          omega
      | succ index =>
          have hrest := @ih index h
          simp only [List.set_cons_succ, List.flatMap_cons, List.count_append]
          omega

/-- What was told and what is left to tell is the same before and after a move. -/
private theorem count_move [Codecs] {I : Invariant} {left : String → Stage → List Event} {r : Round}
    (foretells : I.Foretells s phase left) (hholds : I.Holds s r) (index : Nat) (e : Event) :
    let told (r : Round) := r.world.events ++ r.jobs.flatMap fun job => left job.path job.stage
    (told (move s phase r index)).count e = (told r).count e := by
  intro told
  rcases move_cases s phase r index with ⟨-, h⟩ | ⟨job, hjob, hunderway, h⟩ |
    ⟨job, outcome, hjob, hstage, hgoing, h⟩
  · rw [h]
  · obtain ⟨hpath, hcollected | hown⟩ := hholds.jobs job (List.mem_of_getElem? hjob)
    · rw [hcollected] at hunderway
      cases hunderway
    have hleft := foretells.step hpath hunderway hholds.shared hown
    have hset := count_flatMap_set hjob
      ⟨job.path, (s.advance phase job.path r.world job.stage).1⟩
      (fun job => left job.path job.stage) e
    simp only [hleft, List.count_append] at hset
    simp only [told, h, setStage, s.events_advance, List.count_append]
    omega
  · have hset := count_flatMap_set hjob ⟨job.path, .collected⟩
      (fun job => left job.path job.stage) e
    simp only [hstage, foretells.finished, foretells.collected, List.count_nil] at hset
    simp only [told, h, setStage, jobs_collect, events_collect, List.count_append]
    omega

/-- A phase tells, in some order, what every job had to tell at its start. -/
theorem events_run_perm [Codecs] {I : Invariant} {left : String → Stage → List Event} {w : World}
    (kept : I.IsKept s phase) (foretells : I.Foretells s phase left) (hquiet : s.IsQuiet)
    (hshared : I.shared w.tree w.cache)
    (hwaiting : ∀ path ∈ s.configuration.files, I.job w.tree w.cache path .waiting) :
    (run s phase w).world.events.Perm
      (w.events ++ s.configuration.files.flatMap fun path => left path .waiting) := by
  have hmoves : ∀ (moves : List Nat) (r : Round) (e : Event), I.Holds s r →
      let told (r : Round) := r.world.events ++ r.jobs.flatMap fun job => left job.path job.stage
      (told (moves.foldl (move s phase) r)).count e = (told r).count e := by
    intro moves
    induction moves with
    | nil => exact fun r e _ => rfl
    | cons index rest ih =>
        intro r e hholds told
        exact (ih _ e (hholds.move kept index)).trans (count_move foretells hholds index e)
  have hholds := Invariant.holds_run kept hshared hwaiting
  have hnone : ((run s phase w).jobs.flatMap fun job => left job.path job.stage) = [] := by
    refine List.flatMap_eq_nil_iff.mpr fun job hjob => ?_
    rw [collected_of_run (interruption_of_isQuiet hholds hquiet) hjob, foretells.collected]
  have hstart : ((start s.configuration.files w).jobs.flatMap fun job => left job.path job.stage) =
      s.configuration.files.flatMap fun path => left path .waiting := by
    simp [start, List.flatMap_map]
  have hrun : ∀ e, ((run s phase w).world.events ++
      (run s phase w).jobs.flatMap fun job => left job.path job.stage).count e =
      (w.events ++ (start s.configuration.files w).jobs.flatMap
        fun job => left job.path job.stage).count e :=
    fun e => hmoves _ _ e (Invariant.holds_start hshared hwaiting)
  refine List.perm_iff_count.mpr fun e => ?_
  have hcount := hrun e
  rwa [hnone, List.append_nil, hstart] at hcount

end Round

end MediaSplit
