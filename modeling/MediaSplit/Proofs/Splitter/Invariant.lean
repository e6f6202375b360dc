import MediaSplit.Proofs.Splitter.Moves

/-!
Invariants of a phase. An invariant says what holds of the files and the cache, and what holds of
each job in view of them; it is kept by a phase if every step of a job keeps it for the shared
state, for the job itself and for all other jobs. It then holds of all outcomes in the end,
whatever the schedule was.
-/

namespace MediaSplit.Round

structure Invariant where
  shared : FileTree → Cache → Prop
  job : FileTree → Cache → String → Stage → Prop

namespace Invariant

variable {s : Splitter} {phase : Phase} {I : Invariant}

/-- Every step of a job keeps the invariant. -/
structure IsKept [Codecs] (I : Invariant) (s : Splitter) (phase : Phase) : Prop where
  own : ∀ {path stage} {w : World}, path ∈ s.configuration.files → stage.isUnderway = true →
    I.shared w.tree w.cache → I.job w.tree w.cache path stage →
    I.shared (s.advance phase path w stage).2.tree (s.advance phase path w stage).2.cache ∧
      I.job (s.advance phase path w stage).2.tree (s.advance phase path w stage).2.cache path
        (s.advance phase path w stage).1
  others : ∀ {path stage} {w : World}, path ∈ s.configuration.files → stage.isUnderway = true →
    I.shared w.tree w.cache → I.job w.tree w.cache path stage →
    ∀ {path' stage'}, path' ∈ s.configuration.files → I.job w.tree w.cache path' stage' →
      I.job (s.advance phase path w stage).2.tree (s.advance phase path w stage).2.cache path' stage'

/-- An invariant as it holds of the jobs of a phase and of the outcomes collected so far. -/
structure Holds (I : Invariant) (s : Splitter) (r : Round) : Prop where
  shared : I.shared r.world.tree r.world.cache
  jobs : ∀ job ∈ r.jobs, job.path ∈ s.configuration.files ∧
    (job.stage = .collected ∨ I.job r.world.tree r.world.cache job.path job.stage)
  results : ∀ path piece, Table.get? r.results path = some piece → path ∈ s.configuration.files ∧
    I.job r.world.tree r.world.cache path (.finished (.ok piece))
  faults : ∀ path fault, Table.get? r.faults path = some fault → path ∈ s.configuration.files ∧
    I.job r.world.tree r.world.cache path (.finished (.error fault))
  collected : r.interruption = none → ∀ job ∈ r.jobs, job.stage = .collected →
    (Table.get? r.results job.path).isSome = true ∨ (Table.get? r.faults job.path).isSome = true
  interruption : ∀ fault, r.interruption = some fault →
    ∃ e message, s.listener e = some message ∧ fault = .listener message

theorem holds_start {w : World} (hshared : I.shared w.tree w.cache)
    (hwaiting : ∀ path ∈ s.configuration.files, I.job w.tree w.cache path .waiting) :
    Holds I s (start s.configuration.files w) where
  shared := hshared
  jobs job hjob := by
    obtain ⟨path, hpath, rfl⟩ := List.mem_map.mp hjob
    exact ⟨hpath, Or.inr (hwaiting path hpath)⟩
  results path piece h := by cases h
  faults path fault h := by cases h
  collected _ job hjob hstage := by
    obtain ⟨path, -, rfl⟩ := List.mem_map.mp hjob
    cases hstage
  interruption fault h := by cases h

private theorem holds_advance [Codecs] (kept : I.IsKept s phase) {r : Round} (h : Holds I s r)
    {index : Nat} {job : Job} (hjob : r.jobs[index]? = some job)
    (hunderway : job.stage.isUnderway = true) :
    Holds I s ({ r with world := (s.advance phase job.path r.world job.stage).2 }.setStage index job
      (s.advance phase job.path r.world job.stage).1) := by
  obtain ⟨hpath, hstage⟩ := h.jobs job (List.mem_of_getElem? hjob)
  have hown : I.job r.world.tree r.world.cache job.path job.stage := by
    rcases hstage with hcollected | hown
    · rw [hcollected] at hunderway
      cases hunderway
    · exact hown
  obtain ⟨hshared', hown'⟩ := kept.own hpath hunderway h.shared hown
  have hothers {path stage} := @IsKept.others _ I s phase kept _ _ _ hpath hunderway h.shared hown
    path stage
  refine ⟨hshared', ?_, ?_, ?_, ?_, h.interruption⟩
  · intro other hother
    rcases List.mem_or_eq_of_mem_set hother with hmem | rfl
    · obtain ⟨hpath', hstage'⟩ := h.jobs other hmem
      exact ⟨hpath', hstage'.imp_right (hothers hpath')⟩
    · exact ⟨hpath, Or.inr hown'⟩
  · intro path piece hpiece
    obtain ⟨hpath', hjob'⟩ := h.results path piece hpiece
    exact ⟨hpath', hothers hpath' hjob'⟩
  · intro path fault hfault
    obtain ⟨hpath', hjob'⟩ := h.faults path fault hfault
    exact ⟨hpath', hothers hpath' hjob'⟩
  · intro hgoing other hother hcollected
    rcases List.mem_or_eq_of_mem_set hother with hmem | rfl
    · exact h.collected hgoing other hmem hcollected
    · exact absurd hcollected (s.advance_ne_collected phase job.path r.world hunderway)

private theorem get?_set_isSome {α : Type} {table : Table String α} {path other : String}
    (value : α) (h : (Table.get? table other).isSome = true) :
    (Table.get? (Table.set path value table) other).isSome = true := by
  by_cases heq : other = path
  · rw [heq, Table.get?_set_self]
    rfl
  · rwa [Table.get?_set_of_ne heq]

private theorem holds_collect {r : Round} (h : Holds I s r) {index : Nat} {job : Job}
    {outcome : Except Fault Piece} (hjob : r.jobs[index]? = some job)
    (hstage : job.stage = .finished outcome) (hgoing : r.interruption = none) :
    Holds I s ((collect s phase job.path r outcome).setStage index job .collected) := by
  have hmem := List.mem_of_getElem? hjob
  obtain ⟨hpath, hfinished | hown⟩ := h.jobs job hmem
  · rw [hstage] at hfinished
    cases hfinished
  rw [hstage] at hown
  have hset : ∀ other ∈ r.jobs.set index ⟨job.path, .collected⟩,
      other ∈ r.jobs ∨ other = ⟨job.path, .collected⟩ :=
    fun other hother => List.mem_or_eq_of_mem_set hother
  have hjobs : ∀ other ∈ r.jobs.set index ⟨job.path, .collected⟩,
      other.path ∈ s.configuration.files ∧
        (other.stage = .collected ∨ I.job r.world.tree r.world.cache other.path other.stage) := by
    intro other hother
    rcases hset other hother with hother | rfl
    · exact h.jobs other hother
    · exact ⟨hpath, Or.inl rfl⟩
  rcases collect_cases s phase job.path r outcome with
    ⟨piece, rfl, hcollect⟩ | ⟨fault, w, rfl, htree, hcache, hcollect⟩ |
    ⟨message, w, hlistener, htree, hcache, hcollect⟩
  · rw [hcollect]
    refine ⟨h.shared, hjobs, ?_, h.faults, ?_, h.interruption⟩
    · intro path piece' hget
      by_cases heq : path = job.path
      · simp only [setStage, heq, Table.get?_set_self, Option.some.injEq] at hget
        rw [← hget, heq]
        exact ⟨hpath, hown⟩
      · simp only [setStage, Table.get?_set_of_ne heq] at hget
        exact h.results path piece' hget
    · intro _ other hother hcollected
      rcases hset other hother with hother | rfl
      · exact (h.collected hgoing other hother hcollected).imp_left (get?_set_isSome piece)
      · exact Or.inl (by simp [setStage, Table.get?_set_self])
  · rw [hcollect]
    refine ⟨?_, ?_, ?_, ?_, ?_, h.interruption⟩
    · simpa only [setStage, htree, hcache] using h.shared
    · simpa only [setStage, htree, hcache] using hjobs
    · simpa only [setStage, htree, hcache] using h.results
    · intro path fault' hget
      simp only [setStage, htree, hcache]
      by_cases heq : path = job.path
      · simp only [setStage, heq, Table.get?_set_self, Option.some.injEq] at hget
        rw [← hget, heq]
        exact ⟨hpath, hown⟩
      · simp only [setStage, Table.get?_set_of_ne heq] at hget
        exact h.faults path fault' hget
    · intro _ other hother hcollected
      rcases hset other hother with hother | rfl
      · exact (h.collected hgoing other hother hcollected).imp_right (get?_set_isSome fault)
      · exact Or.inr (by simp [setStage, Table.get?_set_self])
  · obtain ⟨e, hlistener⟩ := hlistener
    rw [hcollect]
    refine ⟨?_, ?_, ?_, ?_, ?_, ?_⟩
    · simpa only [setStage, htree, hcache] using h.shared
    · simpa only [setStage, htree, hcache] using hjobs
    · simpa only [setStage, htree, hcache] using h.results
    · simpa only [setStage, htree, hcache] using h.faults
    · intro hnone
      cases hnone
    · intro fault hfault
      simp only [setStage, Option.some.injEq] at hfault
      exact ⟨e, message, hlistener, hfault.symm⟩

theorem Holds.move [Codecs] (kept : I.IsKept s phase) {r : Round} (h : Holds I s r) (index : Nat) :
    Holds I s (Round.move s phase r index) := by
  rcases move_cases s phase r index with ⟨-, hmove⟩ | ⟨job, hjob, hunderway, hmove⟩ |
    ⟨job, outcome, hjob, hstage, hgoing, hmove⟩
  · rwa [hmove]
  · rw [hmove]
    exact holds_advance kept h hjob hunderway
  · rw [hmove]
    exact holds_collect h hjob hstage hgoing

/-- What every step keeps holds at the end of a phase. -/
theorem holds_run [Codecs] (kept : I.IsKept s phase) {w : World} (hshared : I.shared w.tree w.cache)
    (hwaiting : ∀ path ∈ s.configuration.files, I.job w.tree w.cache path .waiting) :
    Holds I s (run s phase w) := by
  have hmoves : ∀ (moves : List Nat) (r : Round), Holds I s r →
      Holds I s (moves.foldl (Round.move s phase) r) := by
    intro moves
    induction moves with
    | nil => exact fun r h => h
    | cons index rest ih => exact fun r h => ih _ (h.move kept index)
  exact hmoves _ _ (holds_start hshared hwaiting)

end Invariant

end MediaSplit.Round
