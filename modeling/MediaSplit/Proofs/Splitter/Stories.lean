import Mathlib.Data.List.Forall2
import MediaSplit.Proofs.Splitter.Concluding

/-!
The stories that a phase tells. The job of a file tells one story, which says whether the file was
classified and whether its copy was written, or that it failed. The events of a phase are the
stories of all its jobs, mixed in any way, but each of them in its own order.
-/

namespace MediaSplit

inductive Merged {α : Type} : List (List α) → List α → Prop where
  | done {rows : List (List α)} (empty : ∀ row ∈ rows, row = []) : Merged rows []
  | next {rows : List (List α)} {index : Nat} {a : α} {row merged : List α}
      (here : rows[index]? = some (a :: row)) (rest : Merged (rows.set index row) merged) :
      Merged rows (a :: merged)

namespace Merged

variable {α : Type} {rows : List (List α)} {merged : List α}

private theorem perm_flatten_set {index : Nat} {a : α} {row : List α}
    (here : rows[index]? = some (a :: row)) :
    rows.flatten.Perm (a :: (rows.set index row).flatten) := by
  induction rows generalizing index with
  | nil => cases here
  | cons first others ih =>
      cases index with
      | zero =>
          obtain rfl := Option.some.inj here
          exact .refl _
      | succ index =>
          rw [List.set_cons_succ, List.flatten_cons, List.flatten_cons]
          exact ((ih here).append_left first).trans List.perm_middle

/-- Nothing is lost and nothing is added. -/
theorem perm (h : Merged rows merged) : merged.Perm rows.flatten := by
  induction h with
  | done empty =>
      rw [List.flatten_eq_nil_iff.mpr empty]
  | next here rest ih => exact (ih.cons _).trans (perm_flatten_set here).symm

/-- A row can get another entry at its end, if the merged list gets it too. -/
theorem snoc (h : Merged rows merged) {index : Nat} {row : List α}
    (hrow : rows[index]? = some row) (a : α) :
    Merged (rows.set index (row ++ [a])) (merged ++ [a]) := by
  -- The entry is the last one to be taken up, so it goes to the end of its row in every step
  -- before. Such a step takes from the same row or from another one, where the two changes commute.
  induction h generalizing row with
  | @done rows empty =>
      obtain ⟨hlt, -⟩ := List.getElem?_eq_some_iff.mp hrow
      obtain rfl := empty row (List.mem_of_getElem? hrow)
      have here : (rows.set index [a])[index]? = some (a :: []) := List.getElem?_set_self hlt
      refine .next here (.done fun other hother => ?_)
      rw [List.set_set] at hother
      rcases List.mem_or_eq_of_mem_set hother with hmem | rfl
      · exact empty other hmem
      · rfl
  | @next rows index' b row' merged here rest ih =>
      obtain ⟨hlt, -⟩ := List.getElem?_eq_some_iff.mp hrow
      rw [List.cons_append]
      by_cases heq : index' = index
      · subst heq
        rw [hrow] at here
        obtain rfl := Option.some.inj here
        have hrest := @ih row' (List.getElem?_set_self hlt)
        have here' : (rows.set index' (b :: (row' ++ [a])))[index']? = some (b :: (row' ++ [a])) :=
          List.getElem?_set_self hlt
        refine .next here' ?_
        rwa [List.set_set] at hrest ⊢
      · have hrest := @ih row (by rw [List.getElem?_set_ne heq, hrow])
        have here' : (rows.set index (row ++ [a]))[index']? = some (b :: row') := by
          rw [List.getElem?_set_ne (Ne.symm heq), here]
        refine .next here' ?_
        rwa [List.set_comm _ _ (Ne.symm heq)]

theorem append (h : Merged rows merged) {index : Nat} {row : List α}
    (hrow : rows[index]? = some row) (added : List α) :
    Merged (rows.set index (row ++ added)) (merged ++ added) := by
  induction added generalizing rows merged row with
  | nil =>
      obtain ⟨hlt, hget⟩ := List.getElem?_eq_some_iff.mp hrow
      rw [List.append_nil, List.append_nil, ← hget, List.set_getElem_self]
      exact h
  | cons a added ih =>
      obtain ⟨hlt, -⟩ := List.getElem?_eq_some_iff.mp hrow
      have hnext := ih (h.snoc hrow a) (List.getElem?_set_self hlt)
      rwa [List.set_set, List.append_assoc, List.append_assoc, List.singleton_append] at hnext

end Merged

namespace Splitter

inductive Story (s : Splitter) (path : String) : Phase → Bool → List Event → Prop where
  | unread {phase : Phase} {error : String} :
      Story s path phase false [.fileFailed phase path error]
  | extracted {count : Nat} : Story s path .extract true [.fileClassified .extract path count]
  | copied {count : Nat} : Story s path .strip true
      [.fileClassified .strip path count, .fileWritten .strip (s.outputPath path)]
  | uncopied {count : Nat} {error : String} : Story s path .strip false
      [.fileClassified .strip path count, .fileFailed .strip path error]

/-- What the job of a file has told when it is at a stage. Its story ends when its outcome is
collected, and that is one of the outcomes that are `reached` for the file. -/
def HasTold (s : Splitter) (phase : Phase) (path : String) (reached : Except Fault Piece → Prop) :
    Stage → List Event → Prop
  | .waiting, row | .loaded _, row => row = []
  | .classified _, row | .written _, row =>
      phase = .strip ∧ ∃ count, row = [.fileClassified .strip path count]
  | .finished outcome, row =>
      s.Story path phase outcome.isOk (row ++ Round.collectEvents phase path outcome)
  | .collected, row => ∃ outcome, reached outcome ∧ s.Story path phase outcome.isOk row

variable {s : Splitter} {phase : Phase} {path : String}

theorem HasTold.mono {reached reached' : Except Fault Piece → Prop} {stage : Stage}
    {row : List Event} (h : s.HasTold phase path reached stage row)
    (hreached : ∀ outcome, reached outcome → reached' outcome) :
    s.HasTold phase path reached' stage row := by
  cases stage with
  | collected =>
      obtain ⟨outcome, houtcome, hstory⟩ := h
      exact ⟨outcome, hreached outcome houtcome, hstory⟩
  | waiting => exact h
  | loaded sheet => exact h
  | classified piece => exact h
  | written piece => exact h
  | finished outcome => exact h

/-- One step of a job takes its story one step further. -/
theorem HasTold.advance [Codecs] (hquiet : s.IsQuiet) {reached : Except Fault Piece → Prop}
    {stage : Stage} {row : List Event} (hunderway : stage.isUnderway = true)
    (h : s.HasTold phase path reached stage row) (w : World) :
    s.HasTold phase path reached (s.advance phase path w stage).1
      (row ++ s.stepEvents phase path stage) := by
  cases stage with
  | finished outcome => cases hunderway
  | collected => cases hunderway
  | waiting =>
      obtain rfl : row = [] := h
      simp only [Splitter.advance, stepEvents, List.append_nil]
      cases w.load path with
      | mk loaded w' =>
          cases loaded with
          | error fault => exact .unread
          | ok sheet => rfl
  | loaded sheet =>
      obtain rfl : row = [] := h
      simp only [Splitter.advance, tell_of_isQuiet hquiet, stepEvents, List.nil_append]
      cases phase with
      | extract => exact .extracted
      | strip => exact ⟨rfl, _, rfl⟩
  | classified piece =>
      obtain ⟨rfl, count, rfl⟩ := h
      simp only [Splitter.advance, stepEvents, List.append_nil]
      cases w.write s.configuration.encoding (s.outputPath path) piece.text with
      | mk written w' =>
          cases written with
          | error fault => exact .uncopied
          | ok _ => exact ⟨rfl, count, rfl⟩
  | written piece =>
      obtain ⟨rfl, count, rfl⟩ := h
      simp only [Splitter.advance, tell_of_isQuiet hquiet, stepEvents]
      exact .copied

end Splitter

namespace Round

variable {s : Splitter} {phase : Phase} {I : Invariant}

/-- That an outcome is reached for a file, as far as an invariant says. -/
def Invariant.Reached (I : Invariant) (w : World) (path : String) (outcome : Except Fault Piece) :
    Prop :=
  I.job w.tree w.cache path (.finished outcome)

private theorem files_collect (s : Splitter) (phase : Phase) (path : String) (r : Round)
    (outcome : Except Fault Piece) :
    (collect s phase path r outcome).world.tree = r.world.tree ∧
      (collect s phase path r outcome).world.cache = r.world.cache := by
  rcases collect_cases s phase path r outcome with
    ⟨piece, -, hcollect⟩ | ⟨fault, w, -, htree, hcache, hcollect⟩ |
    ⟨message, w, -, htree, hcache, hcollect⟩
  · rw [hcollect]
    exact ⟨rfl, rfl⟩
  · rw [hcollect]
    exact ⟨htree, hcache⟩
  · rw [hcollect]
    exact ⟨htree, hcache⟩

structure Narrates (I : Invariant) (s : Splitter) (phase : Phase) (before : List Event)
    (r : Round) (rows : List (List Event)) (told : List Event) : Prop where
  events : r.world.events = before ++ told
  merged : Merged rows told
  length : rows.length = r.jobs.length
  tells : ∀ {index : Nat} {job : Job} {row : List Event}, r.jobs[index]? = some job →
    rows[index]? = some row →
    s.HasTold phase job.path (I.Reached r.world job.path) job.stage row

namespace Narrates

variable {before told : List Event} {r : Round} {rows : List (List Event)}

theorem start (w : World) :
    Narrates I s phase w.events (Round.start s.configuration.files w)
      (s.configuration.files.map fun _ => []) [] where
  events := (List.append_nil _).symm
  merged := by
    refine .done fun row hrow => ?_
    obtain ⟨-, -, rfl⟩ := List.mem_map.mp hrow
    rfl
  length := by simp [Round.start]
  tells {index job row} hjob hrow := by
    obtain ⟨-, -, rfl⟩ := List.mem_map.mp (List.mem_of_getElem? hjob)
    obtain ⟨-, -, rfl⟩ := List.mem_map.mp (List.mem_of_getElem? hrow)
    rfl

/-- One job gets on and tells of it; what is reached for the others still is. -/
private theorem set (h : Narrates I s phase before r rows told) {index : Nat} {job : Job}
    {row added : List Event} {stage : Stage} {r' : Round} (hjob : r.jobs[index]? = some job)
    (hrow : rows[index]? = some row) (hjobs : r'.jobs = r.jobs.set index ⟨job.path, stage⟩)
    (hevents : r'.world.events = r.world.events ++ added)
    (hown : s.HasTold phase job.path (I.Reached r'.world job.path) stage (row ++ added))
    (hothers : ∀ other ∈ r.jobs, ∀ outcome, I.Reached r.world other.path outcome →
      I.Reached r'.world other.path outcome) :
    Narrates I s phase before r' (rows.set index (row ++ added)) (told ++ added) where
  events := by rw [hevents, h.events, List.append_assoc]
  merged := h.merged.append hrow added
  length := by rw [hjobs, List.length_set, List.length_set, h.length]
  tells {other otherJob otherRow} hother hotherRow := by
    rw [hjobs] at hother
    by_cases heq : index = other
    · subst heq
      obtain ⟨hlt, -⟩ := List.getElem?_eq_some_iff.mp hjob
      obtain ⟨hlt', -⟩ := List.getElem?_eq_some_iff.mp hrow
      rw [List.getElem?_set_self hlt] at hother
      rw [List.getElem?_set_self hlt'] at hotherRow
      obtain rfl := Option.some.inj hother
      obtain rfl := Option.some.inj hotherRow
      exact hown
    · rw [List.getElem?_set_ne heq] at hother hotherRow
      exact (h.tells hother hotherRow).mono
        (hothers otherJob (List.mem_of_getElem? hother))

/-- A job that is under way takes its own story one step further. -/
private theorem advance [Codecs] (hquiet : s.IsQuiet) (kept : I.IsKept s phase)
    (hholds : I.Holds s r) (h : Narrates I s phase before r rows told) {index : Nat} {job : Job}
    {row : List Event} (hjob : r.jobs[index]? = some job) (hrow : rows[index]? = some row)
    (hunderway : job.stage.isUnderway = true) {r' : Round}
    (hjobs : r'.jobs = r.jobs.set index
      ⟨job.path, (s.advance phase job.path r.world job.stage).1⟩)
    (hworld : r'.world = (s.advance phase job.path r.world job.stage).2) :
    Narrates I s phase before r'
      (rows.set index (row ++ s.stepEvents phase job.path job.stage))
      (told ++ s.stepEvents phase job.path job.stage) := by
  have hmem := List.mem_of_getElem? hjob
  obtain ⟨-, hcollected | hown⟩ := hholds.jobs job hmem
  · rw [hcollected] at hunderway
    cases hunderway
  have hothers : ∀ other ∈ r.jobs, ∀ outcome, I.Reached r.world other.path outcome →
      I.Reached r'.world other.path outcome := by
    intro other hother outcome hreached
    rw [hworld]
    exact kept.others (hholds.jobs job hmem).1 hunderway hholds.shared hown
      (hholds.jobs other hother).1 hreached
  refine h.set hjob hrow hjobs ?_ ?_ hothers
  · rw [hworld]
    exact s.events_advance phase job.path r.world job.stage
  · exact ((h.tells hjob hrow).mono (hothers job hmem)).advance hquiet hunderway r.world

/-- A finished job ends its story when its outcome is collected, which touches no file. -/
private theorem collect (hholds : I.Holds s r) (h : Narrates I s phase before r rows told)
    {index : Nat} {job : Job} {row : List Event} {outcome : Except Fault Piece}
    (hjob : r.jobs[index]? = some job) (hrow : rows[index]? = some row)
    (hstage : job.stage = .finished outcome) {r' : Round}
    (hjobs : r'.jobs = r.jobs.set index ⟨job.path, .collected⟩)
    (hworld : r'.world = (Round.collect s phase job.path r outcome).world) :
    Narrates I s phase before r'
      (rows.set index (row ++ collectEvents phase job.path outcome))
      (told ++ collectEvents phase job.path outcome) := by
  obtain ⟨-, hcollected | hown⟩ := hholds.jobs job (List.mem_of_getElem? hjob)
  · rw [hstage] at hcollected
    cases hcollected
  have hreached : ∀ path ended, I.Reached r.world path ended → I.Reached r'.world path ended := by
    intro path ended hended
    obtain ⟨htree, hcache⟩ := files_collect s phase job.path r outcome
    rwa [Invariant.Reached, hworld, htree, hcache]
  have htold := h.tells hjob hrow
  rw [hstage] at hown htold
  refine h.set hjob hrow hjobs ?_ ⟨outcome, hreached _ _ hown, htold⟩
    fun other _ => hreached other.path
  rw [hworld]
  exact events_collect s phase job.path r outcome

/-- The stories go on with every move. -/
theorem move [Codecs] (hquiet : s.IsQuiet) (kept : I.IsKept s phase) (hholds : I.Holds s r)
    (h : Narrates I s phase before r rows told) (index : Nat) :
    ∃ rows' told', Narrates I s phase before (Round.move s phase r index) rows' told' := by
  have hrow : ∀ {job}, r.jobs[index]? = some job → ∃ row, rows[index]? = some row := by
    intro job hjob
    obtain ⟨hlt, -⟩ := List.getElem?_eq_some_iff.mp hjob
    rw [← h.length] at hlt
    exact ⟨_, List.getElem?_eq_getElem hlt⟩
  rcases move_cases s phase r index with ⟨-, hmove⟩ | ⟨job, hjob, hunderway, hmove⟩ |
    ⟨job, outcome, hjob, hstage, -, hmove⟩
  · rw [hmove]
    exact ⟨rows, told, h⟩
  · obtain ⟨row, hrow⟩ := hrow hjob
    rw [hmove]
    exact ⟨_, _, h.advance hquiet kept hholds hjob hrow hunderway rfl rfl⟩
  · obtain ⟨row, hrow⟩ := hrow hjob
    rw [hmove]
    have hjobs := @jobs_collect s phase job.path r outcome
    exact ⟨_, _, h.collect hholds hjob hrow hstage (by rw [setStage, hjobs]) rfl⟩

/-- The stories of a whole phase, each with an outcome that is reached for its file. -/
theorem run [Codecs] (hquiet : s.IsQuiet) (kept : I.IsKept s phase) {w : World}
    (hshared : I.shared w.tree w.cache)
    (hwaiting : ∀ path ∈ s.configuration.files, I.job w.tree w.cache path .waiting) :
    ∃ rows told, Narrates I s phase w.events (Round.run s phase w) rows told := by
  have hmoves : ∀ (moves : List Nat) (r : Round) (rows : List (List Event)) (told : List Event),
      I.Holds s r → Narrates I s phase w.events r rows told →
      ∃ rows told, Narrates I s phase w.events (moves.foldl (Round.move s phase) r) rows told := by
    intro moves
    induction moves with
    | nil => exact fun r rows told _ h => ⟨rows, told, h⟩
    | cons index rest ih =>
        intro r rows told hholds h
        obtain ⟨rows', told', h'⟩ := h.move hquiet kept hholds index
        exact ih _ rows' told' (hholds.move kept index) h'
  exact hmoves _ _ _ _ (Invariant.holds_start hshared hwaiting) (start w)

end Narrates

/-- That an invariant leaves no two ways for a file to end: it is done in all its jobs, or in
none of them. -/
def Invariant.Settles (I : Invariant) (s : Splitter) : Prop :=
  ∀ {w : World} {path : String} {outcome outcome' : Except Fault Piece},
    path ∈ s.configuration.files → I.shared w.tree w.cache → I.Reached w path outcome →
    I.Reached w path outcome' → outcome.isOk = outcome'.isOk

end Round

namespace Splitter

/-- That events are the stories of all files, mixed in any way, where the path of a file says
whether it is done. -/
def Tells (s : Splitter) (phase : Phase) (done : String → Bool) (told : List Event) : Prop :=
  ∃ stories, List.Forall₂ (fun path story => s.Story path phase (done path) story)
    s.configuration.files stories ∧ Merged stories told

variable {s : Splitter} {phase : Phase}

/-- What a phase tells, and how it ends. -/
theorem tells_of_fanOut [Codecs] (hquiet : s.IsQuiet) (hworkers : s.hasWorkers = true)
    {I : Round.Invariant} (kept : I.IsKept s phase) (settles : I.Settles s) {w : World}
    (hshared : I.shared w.tree w.cache)
    (hwaiting : ∀ path ∈ s.configuration.files, I.job w.tree w.cache path .waiting) :
    ∃ (outcome : String → Except Fault Piece) (told : List Event),
      s.Tells phase (fun path => (outcome path).isOk) told ∧
      (Round.run s phase w).world.events = w.events ++ told ∧
      (s.fanOut phase).perform w =
        conclude phase (failuresOf outcome s.configuration.files)
          (resultsOf outcome s.configuration.files) (Round.run s phase w).world := by
  have hholds := Round.Invariant.holds_run kept hshared hwaiting
  have hgoing := Round.interruption_of_isQuiet hholds hquiet
  obtain ⟨outcome, hended, hfanOut⟩ := fanOut_of_holds hquiet hworkers hholds
  obtain ⟨rows, told, hnarrates⟩ := Round.Narrates.run hquiet kept hshared hwaiting
  refine ⟨outcome, told, ⟨rows, ?_, hnarrates.merged⟩, hnarrates.events, hfanOut⟩
  have hpaths := Round.paths_run s phase w
  rw [← hpaths, List.forall₂_map_left_iff, List.forall₂_iff_get]
  refine ⟨hnarrates.length.symm, fun index hlt hlt' => ?_⟩
  have hmem : (Round.run s phase w).jobs[index] ∈ (Round.run s phase w).jobs :=
    List.getElem_mem hlt
  have htold := hnarrates.tells (List.getElem?_eq_getElem hlt) (List.getElem?_eq_getElem hlt')
  rw [Round.collected_of_run hgoing hmem] at htold
  obtain ⟨found, hfound, hstory⟩ := htold
  have hpath : (Round.run s phase w).jobs[index].path ∈ s.configuration.files := by
    rw [← hpaths]
    exact List.mem_map_of_mem hmem
  rw [settles hpath hholds.shared hfound (hended _ hpath)] at hstory
  exact hstory

section Tells

variable {done : String → Bool} {told : List Event}

/-- What is picked from the events of a phase is what is picked from the stories of its files, if
no story has more than one event to pick from. -/
theorem Tells.perm_filterMap {α : Type} (h : s.Tells phase done told) (pick : Event → Option α)
    {picked : String → Option α}
    (hpicked : ∀ path ∈ s.configuration.files, ∀ story, s.Story path phase (done path) story →
      story.filterMap pick = (picked path).toList) :
    (told.filterMap pick).Perm (s.configuration.files.filterMap picked) := by
  obtain ⟨stories, hstories, hmerged⟩ := h
  have hflat : stories.flatten.filterMap pick = s.configuration.files.filterMap picked := by
    clear hmerged
    rw [List.filterMap_eq_flatMap_toList picked]
    generalize s.configuration.files = files at hstories hpicked
    induction hstories with
    | nil => rfl
    | @cons path story files stories hstory _ ih =>
        rw [List.flatten_cons, List.filterMap_append, List.flatMap_cons,
          hpicked path List.mem_cons_self story hstory,
          ih fun other hother => hpicked other (List.mem_cons_of_mem path hother)]
  rw [← hflat]
  exact hmerged.perm.filterMap pick

/-- Nothing is picked from the events if nothing is from the stories. -/
theorem Tells.filterMap_eq_nil {α : Type} (h : s.Tells phase done told) (pick : Event → Option α)
    (hnone : ∀ path ∈ s.configuration.files, ∀ story, s.Story path phase (done path) story →
      story.filterMap pick = []) : told.filterMap pick = [] := by
  have hpicked : (told.filterMap pick).Perm (s.configuration.files.filterMap fun _ => none) :=
    h.perm_filterMap pick hnone
  rw [List.filterMap_none] at hpicked
  exact hpicked.eq_nil

end Tells

end Splitter

end MediaSplit
