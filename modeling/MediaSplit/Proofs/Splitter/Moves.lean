import Mathlib.Data.List.Basic
import MediaSplit.Splitter.Round

/-!
The jobs of one phase under every schedule. A move takes one job a step further or collects its
outcome. What holds of each job and is left alone by the steps of the others therefore holds after
any moves, and the moves that complete a schedule bring every job to its end, unless the listener
refuses to hear of a failure.
-/

namespace MediaSplit

def Stage.isUnderway : Stage → Bool
  | .waiting | .loaded _ | .classified _ | .written _ => true
  | .finished _ | .collected => false

/-- The greatest number of moves until the outcome of a job is collected. -/
def Stage.movesLeft : Stage → Nat
  | .waiting => Round.jobMoves
  | .loaded _ => 4
  | .classified _ => 3
  | .written _ => 2
  | .finished _ => 1
  | .collected => 0

theorem Stage.eq_collected_of_movesLeft {stage : Stage} (h : stage.movesLeft = 0) :
    stage = .collected := by
  cases stage with
  | collected => rfl
  | waiting => simp [movesLeft, Round.jobMoves] at h
  | loaded sheet => simp [movesLeft] at h
  | classified piece => simp [movesLeft] at h
  | written piece => simp [movesLeft] at h
  | finished outcome => simp [movesLeft] at h

theorem Splitter.movesLeft_advance_lt [Codecs] (s : Splitter) (phase : Phase) (path : String)
    (w : World) {stage : Stage} (h : stage.isUnderway = true) :
    (s.advance phase path w stage).1.movesLeft < stage.movesLeft := by
  cases stage with
  | waiting =>
      simp only [advance]
      split <;> simp [Stage.movesLeft, Round.jobMoves]
  | loaded sheet =>
      cases phase
      all_goals
        simp only [advance]
        split <;> simp [Stage.movesLeft]
  | classified piece =>
      simp only [advance]
      split <;> simp [Stage.movesLeft]
  | written piece =>
      simp only [advance]
      split <;> simp [Stage.movesLeft]
  | finished outcome => cases h
  | collected => cases h

/-- The outcome of a job is not collected in a step of its own. -/
theorem Splitter.advance_ne_collected [Codecs] (s : Splitter) (phase : Phase) (path : String)
    (w : World) {stage : Stage} (h : stage.isUnderway = true) :
    (s.advance phase path w stage).1 ≠ .collected := by
  cases stage with
  | waiting =>
      simp only [advance]
      split <;> simp
  | loaded sheet =>
      cases phase
      all_goals
        simp only [advance]
        split <;> simp
  | classified piece =>
      simp only [advance]
      split <;> simp
  | written piece =>
      simp only [advance]
      split <;> simp
  | finished outcome => cases h
  | collected => cases h

namespace Round

variable {s : Splitter} {phase : Phase}

/-- The moves left to the job at a place. -/
def movesLeft (r : Round) (index : Nat) : Nat :=
  match r.jobs[index]? with
  | none => 0
  | some job => job.stage.movesLeft

theorem movesLeft_eq {r : Round} {index : Nat} {job : Job} (h : r.jobs[index]? = some job) :
    r.movesLeft index = job.stage.movesLeft := by
  simp only [movesLeft, h]

/-- The three kinds of moves. -/
theorem move_cases [Codecs] (s : Splitter) (phase : Phase) (r : Round) (index : Nat) :
    ((r.interruption = none → r.movesLeft index = 0) ∧ move s phase r index = r) ∨
    (∃ job, r.jobs[index]? = some job ∧ job.stage.isUnderway = true ∧
      move s phase r index =
        { r with world := (s.advance phase job.path r.world job.stage).2 }.setStage index job
          (s.advance phase job.path r.world job.stage).1) ∨
    ∃ job outcome, r.jobs[index]? = some job ∧ job.stage = .finished outcome ∧
      r.interruption = none ∧
      move s phase r index = (collect s phase job.path r outcome).setStage index job .collected := by
  unfold move
  cases hjob : r.jobs[index]? with
  | none => exact Or.inl ⟨fun _ => by simp only [movesLeft, hjob], rfl⟩
  | some job =>
      obtain ⟨path, stage⟩ := job
      cases stage with
      | collected => exact Or.inl ⟨fun _ => movesLeft_eq hjob, rfl⟩
      | finished outcome =>
          cases hinterruption : r.interruption with
          | some fault => exact Or.inl ⟨nofun, by simp⟩
          | none => exact Or.inr (Or.inr ⟨_, outcome, rfl, rfl, rfl, by simp⟩)
      | waiting => exact Or.inr (Or.inl ⟨_, rfl, rfl, rfl⟩)
      | loaded sheet => exact Or.inr (Or.inl ⟨_, rfl, rfl, rfl⟩)
      | classified piece => exact Or.inr (Or.inl ⟨_, rfl, rfl, rfl⟩)
      | written piece => exact Or.inr (Or.inl ⟨_, rfl, rfl, rfl⟩)

/-- The three ways to collect an outcome. Files and cache have no part in it. -/
theorem collect_cases (s : Splitter) (phase : Phase) (path : String) (r : Round)
    (outcome : Except Fault Piece) :
    (∃ piece, outcome = .ok piece ∧
      collect s phase path r outcome = { r with results := Table.set path piece r.results }) ∨
    (∃ fault w, outcome = .error fault ∧ w.tree = r.world.tree ∧ w.cache = r.world.cache ∧
      collect s phase path r outcome =
        { r with faults := Table.set path fault r.faults, world := w }) ∨
    ∃ message w, (∃ e, s.listener e = some message) ∧ w.tree = r.world.tree ∧
      w.cache = r.world.cache ∧
      collect s phase path r outcome =
        { r with interruption := some (.listener message), world := w } := by
  cases outcome with
  | ok piece => exact Or.inl ⟨piece, rfl, rfl⟩
  | error fault =>
      right
      let told := (r.world.note (.workFailed path fault.message)).record
        (.event (.fileFailed phase path fault.message))
      simp only [collect, Splitter.tell]
      cases hanswer : s.listener (.fileFailed phase path fault.message) with
      | none => exact Or.inl ⟨fault, told, rfl, rfl, rfl, rfl⟩
      | some message => exact Or.inr ⟨message, told, ⟨_, hanswer⟩, rfl, rfl, rfl⟩

theorem jobs_collect (path : String) (r : Round) (outcome : Except Fault Piece) :
    (collect s phase path r outcome).jobs = r.jobs := by
  rcases collect_cases s phase path r outcome with
    ⟨piece, -, h⟩ | ⟨fault, w, -, -, -, h⟩ | ⟨message, w, -, -, -, h⟩ <;> rw [h]

theorem movesLeft_le (r : Round) (index : Nat) : r.movesLeft index ≤ jobMoves := by
  unfold movesLeft
  split
  · exact Nat.zero_le _
  · rename_i job _
    cases hstage : job.stage <;> simp [Stage.movesLeft, jobMoves]

private theorem movesLeft_setStage (r : Round) {index : Nat} {job : Job} (stage : Stage)
    (h : r.jobs[index]? = some job) (other : Nat) :
    (r.setStage index job stage).movesLeft other =
      if other = index then stage.movesLeft else r.movesLeft other := by
  obtain ⟨hlt, -⟩ := List.getElem?_eq_some_iff.mp h
  unfold movesLeft setStage
  by_cases heq : other = index
  · subst heq
    simp [hlt]
  · simp [List.getElem?_set_ne (Ne.symm heq), heq]

private theorem movesLeft_collect (path : String) (r : Round) (outcome : Except Fault Piece)
    (index : Nat) : (collect s phase path r outcome).movesLeft index = r.movesLeft index := by
  simp only [movesLeft, jobs_collect]

/-- A move brings the job that it is about forward and none back, as long as nothing is
refused. -/
theorem movesLeft_move_le [Codecs] (r : Round) (index other : Nat)
    (hgoing : (move s phase r index).interruption = none) :
    (move s phase r index).movesLeft other ≤
      if other = index then r.movesLeft other - 1 else r.movesLeft other := by
  rcases move_cases s phase r index with ⟨hdone, h⟩ | ⟨job, hjob, hunderway, h⟩ |
    ⟨job, outcome, hjob, hstage, -, h⟩
  · rw [h] at hgoing ⊢
    split
    · rename_i heq
      subst heq
      have hzero := hdone hgoing
      omega
    · exact Nat.le_refl _
  · have hlt := s.movesLeft_advance_lt phase job.path r.world hunderway
    rw [h, movesLeft_setStage _ _ (by exact hjob)]
    split
    · rename_i heq
      rw [heq, movesLeft_eq hjob]
      omega
    · exact Nat.le_refl _
  · rw [h, movesLeft_setStage _ _ (by rw [jobs_collect, hjob]), movesLeft_collect]
    simp only [Stage.movesLeft]
    split
    · exact Nat.zero_le _
    · exact Nat.le_refl _

/-- What was refused stays refused. -/
theorem interruption_of_move [Codecs] (r : Round) (index : Nat)
    (hgoing : (move s phase r index).interruption = none) : r.interruption = none := by
  rcases move_cases s phase r index with ⟨-, h⟩ | ⟨job, -, -, h⟩ | ⟨job, outcome, -, -, hnone, -⟩
  · rwa [h] at hgoing
  · rwa [h] at hgoing
  · exact hnone

private theorem foldl_interruption [Codecs] (moves : List Nat) (r : Round)
    (hgoing : (moves.foldl (move s phase) r).interruption = none) : r.interruption = none := by
  induction moves generalizing r with
  | nil => exact hgoing
  | cons index rest ih => exact interruption_of_move r index (ih _ hgoing)

theorem foldl_movesLeft_le [Codecs] (moves : List Nat) (r : Round) (index : Nat)
    (hgoing : (moves.foldl (move s phase) r).interruption = none) :
    (moves.foldl (move s phase) r).movesLeft index ≤ r.movesLeft index - moves.count index := by
  induction moves generalizing r with
  | nil => exact Nat.le_refl _
  | cons first rest ih =>
      have hrest := ih _ hgoing
      have hfirst := movesLeft_move_le r first index (foldl_interruption rest _ hgoing)
      rw [List.foldl_cons, List.count_cons]
      split at hfirst
      · rename_i heq
        simp only [heq, beq_self_eq_true, if_true] at hrest hfirst ⊢
        omega
      · rename_i hne
        simp only [beq_iff_eq, Ne.symm hne, if_false]
        omega

private theorem jobMoves_le_count_completion {jobs index : Nat} (h : index < jobs) :
    jobMoves ≤ (completion jobs).count index := by
  have hsub : (List.replicate jobMoves index).Sublist (completion jobs) :=
    (List.infix_flatMap_of_mem (List.mem_range.mpr h) _).sublist
  have := hsub.count_le index
  rwa [List.count_replicate_self] at this

theorem paths_move [Codecs] (r : Round) (index : Nat) :
    (move s phase r index).jobs.map Job.path = r.jobs.map Job.path := by
  have hset : ∀ (r : Round) (job : Job) (stage : Stage), r.jobs[index]? = some job →
      (r.setStage index job stage).jobs.map Job.path = r.jobs.map Job.path := by
    intro r job stage hjob
    obtain ⟨hlt, hget⟩ := List.getElem?_eq_some_iff.mp hjob
    have hpath : (r.jobs.map Job.path).get ⟨index, by simpa using hlt⟩ = job.path := by simp [hget]
    simp only [setStage, List.map_set]
    rw [← hpath]
    exact List.set_getElem_self _
  rcases move_cases s phase r index with ⟨-, h⟩ | ⟨job, hjob, -, h⟩ | ⟨job, outcome, hjob, -, -, h⟩
  · rw [h]
  · rw [h, hset _ job _ (by exact hjob)]
  · rw [h, hset _ job _ (by rw [jobs_collect, hjob]), jobs_collect]

theorem paths_foldl [Codecs] (moves : List Nat) (r : Round) :
    (moves.foldl (move s phase) r).jobs.map Job.path = r.jobs.map Job.path := by
  induction moves generalizing r with
  | nil => rfl
  | cons index rest ih => rw [List.foldl_cons, ih, paths_move]

theorem paths_run [Codecs] (s : Splitter) (phase : Phase) (w : World) :
    (run s phase w).jobs.map Job.path = s.configuration.files := by
  simp [run, paths_foldl, start, Function.comp_def]

/-- At the end of a phase that was not interrupted the outcomes of all jobs are collected. -/
theorem collected_of_run [Codecs] {w : World} (hgoing : (run s phase w).interruption = none)
    {job : Job} (hjob : job ∈ (run s phase w).jobs) : job.stage = .collected := by
  obtain ⟨index, hindex⟩ := List.mem_iff_getElem?.mp hjob
  have hlt : index < s.configuration.files.length := by
    obtain ⟨hlt, -⟩ := List.getElem?_eq_some_iff.mp hindex
    have := congrArg List.length (paths_run s phase w)
    simp only [List.length_map] at this
    omega
  have hleft := foldl_movesLeft_le _ _ index hgoing
  have hstart := movesLeft_le (start s.configuration.files w) index
  have hcount := jobMoves_le_count_completion hlt
  rw [List.count_append] at hleft
  have hzero : (run s phase w).movesLeft index = 0 := by
    simp only [run]
    omega
  rw [movesLeft_eq hindex] at hzero
  exact Stage.eq_collected_of_movesLeft hzero

end Round

end MediaSplit
