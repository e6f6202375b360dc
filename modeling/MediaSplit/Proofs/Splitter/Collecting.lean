import MediaSplit.Proofs.Splitter.Telling

/-!
What a phase collects. Outcomes come in any order and are kept by path, and a path that is repeated
has several jobs; but when every path can end in one way only, the failures and the results are
those of the outcomes in configured order, whatever the order was in which they came.
-/

namespace MediaSplit

/-- The failures among the outcomes of files, in the order of the files. -/
def failuresOf {α : Type} (outcome : String → Except Fault α) (files : List String) :
    List FileFailure :=
  files.filterMap fun path =>
    match outcome path with
    | .ok _ => none
    | .error fault => some ⟨path, fault⟩

/-- The results among the outcomes of files, each file at its first place. -/
def resultsOf (outcome : String → Except Fault Piece) (files : List String) :
    Table String Piece :=
  files.eraseDups.filterMap fun path =>
    match outcome path with
    | .ok piece => some (path, piece)
    | .error _ => none

section Outcomes

variable {α β : Type} {outcome : String → Except Fault α} {files : List String}

theorem mem_failuresOf {failure : FileFailure} :
    failure ∈ failuresOf outcome files ↔
      failure.path ∈ files ∧ outcome failure.path = .error failure.fault := by
  unfold failuresOf
  rw [List.mem_filterMap]
  constructor
  · rintro ⟨path, hpath, hfailure⟩
    split at hfailure
    · cases hfailure
    · rename_i fault houtcome
      obtain rfl := Option.some.inj hfailure
      exact ⟨hpath, houtcome⟩
  · rintro ⟨hpath, houtcome⟩
    refine ⟨failure.path, hpath, ?_⟩
    rw [houtcome]

theorem failuresOf_eq_nil_iff :
    failuresOf outcome files = [] ↔ ∀ path ∈ files, ∃ value, outcome path = .ok value := by
  unfold failuresOf
  rw [List.filterMap_eq_nil_iff]
  apply forall₂_congr
  intro path _
  cases outcome path with
  | ok value => simp
  | error fault => simp

theorem failuresOf_congr {outcome' : String → Except Fault β}
    (h : ∀ path ∈ files, ∀ fault, outcome path = .error fault ↔ outcome' path = .error fault) :
    failuresOf outcome files = failuresOf outcome' files := by
  refine List.filterMap_congr fun path hpath => ?_
  have hpath := h path hpath
  cases hfirst : outcome path with
  | error fault => rw [(hpath fault).mp hfirst]
  | ok value =>
      cases hsecond : outcome' path with
      | ok value' => rfl
      | error fault =>
          rw [(hpath fault).mpr hsecond] at hfirst
          cases hfirst

theorem resultsOf_congr {outcome outcome' : String → Except Fault Piece}
    (h : ∀ path ∈ files, outcome path = outcome' path) :
    resultsOf outcome files = resultsOf outcome' files := by
  refine List.filterMap_congr fun path hpath => ?_
  rw [h path (List.mem_eraseDups.mp hpath)]

theorem outcome_of_mem_resultsOf {outcome : String → Except Fault Piece} {path : String}
    {piece : Piece} (h : (path, piece) ∈ resultsOf outcome files) :
    path ∈ files ∧ outcome path = .ok piece := by
  obtain ⟨found, hfound, hresult⟩ := List.mem_filterMap.mp h
  split at hresult
  · rename_i value houtcome
    obtain ⟨rfl, rfl⟩ := Prod.mk.inj (Option.some.inj hresult)
    exact ⟨List.mem_eraseDups.mp hfound, houtcome⟩
  · cases hresult

/-- Without failures every file has its result. -/
theorem paths_resultsOf {outcome : String → Except Fault Piece}
    (h : failuresOf outcome files = []) : (resultsOf outcome files).map Prod.fst = files.eraseDups := by
  unfold resultsOf
  rw [List.map_filterMap]
  conv => rhs; rw [← List.filterMap_some (l := files.eraseDups)]
  refine List.filterMap_congr fun path hpath => ?_
  obtain ⟨piece, hpiece⟩ := failuresOf_eq_nil_iff.mp h path (List.mem_eraseDups.mp hpath)
  rw [hpiece]
  rfl

/-- The failures are those of the files whose outcome is one. -/
theorem paths_failuresOf : (failuresOf outcome files).map FileFailure.path =
    files.filter fun path => !(outcome path).isOk := by
  unfold failuresOf
  rw [List.map_filterMap, ← List.filterMap_eq_filter]
  refine List.filterMap_congr fun path _ => ?_
  cases houtcome : outcome path with
  | ok value => simp [Option.guard, houtcome, Except.isOk, Except.toBool]
  | error fault => simp [Option.guard, houtcome, Except.isOk, Except.toBool]

theorem resultsOf_eq_map {outcome : String → Except Fault Piece} {pieceOf : String → Piece}
    (h : ∀ path ∈ files, outcome path = .ok (pieceOf path)) :
    resultsOf outcome files = files.eraseDups.map fun path => (path, pieceOf path) := by
  unfold resultsOf
  rw [← List.filterMap_eq_map]
  refine List.filterMap_congr fun path hpath => ?_
  rw [h path (List.mem_eraseDups.mp hpath)]
  rfl

end Outcomes

namespace Round

variable {s : Splitter} {phase : Phase}

/-- The outcome of a file that counts when all are collected: a fault if there was any, or else its
result. -/
def counted (r : Round) (path : String) : Except Fault Piece :=
  match Table.get? r.faults path, Table.get? r.results path with
  | some fault, _ => .error fault
  | none, some piece => .ok piece
  | none, none => .error .noWorkers

theorem counted_of_fault {r : Round} {path : String} {fault : Fault}
    (h : Table.get? r.faults path = some fault) : r.counted path = .error fault := by
  simp only [counted, h]

theorem counted_of_result {r : Round} {path : String} {piece : Piece}
    (hnone : Table.get? r.faults path = none) (h : Table.get? r.results path = some piece) :
    r.counted path = .ok piece := by
  simp only [counted, hnone, h]

/-- When all outcomes are collected, each file has one that counts, and the failures and results are
those of the outcomes that count. -/
theorem exists_outcome {I : Invariant} {r : Round} (hholds : I.Holds s r)
    (hgoing : r.interruption = none) (hpaths : r.jobs.map Job.path = s.configuration.files)
    (hcollected : ∀ job ∈ r.jobs, job.stage = .collected) :
    ∃ outcome : String → Except Fault Piece,
      (∀ path ∈ s.configuration.files,
        I.job r.world.tree r.world.cache path (.finished (outcome path))) ∧
      r.failures s.configuration.files = failuresOf outcome s.configuration.files ∧
      (failuresOf outcome s.configuration.files = [] →
        r.resultsInOrder s.configuration.files = resultsOf outcome s.configuration.files) := by
  have hkept : ∀ path ∈ s.configuration.files, Table.get? r.faults path = none →
      ∃ piece, Table.get? r.results path = some piece := by
    intro path hpath hnone
    rw [← hpaths] at hpath
    obtain ⟨job, hjob, rfl⟩ := List.mem_map.mp hpath
    have hsome := hholds.collected hgoing job hjob (hcollected job hjob)
    rw [hnone] at hsome
    exact Option.isSome_iff_exists.mp (hsome.resolve_right (by simp))
  refine ⟨r.counted, ?_, ?_, ?_⟩
  · intro path hpath
    cases hget : Table.get? r.faults path with
    | some fault =>
        rw [counted_of_fault hget]
        exact (hholds.faults path fault hget).2
    | none =>
        obtain ⟨piece, hpiece⟩ := hkept path hpath hget
        rw [counted_of_result hget hpiece]
        exact (hholds.results path piece hpiece).2
  · refine List.filterMap_congr fun path hpath => ?_
    cases hget : Table.get? r.faults path with
    | some fault =>
        rw [counted_of_fault hget]
        rfl
    | none =>
        obtain ⟨piece, hpiece⟩ := hkept path hpath hget
        rw [counted_of_result hget hpiece]
        rfl
  · intro hsucceeded
    refine List.filterMap_congr fun path hpath => ?_
    have hpath := List.mem_eraseDups.mp hpath
    cases hget : Table.get? r.faults path with
    | some fault =>
        obtain ⟨piece, hpiece⟩ := failuresOf_eq_nil_iff.mp hsucceeded path hpath
        rw [counted_of_fault hget] at hpiece
        cases hpiece
    | none =>
        obtain ⟨piece, hpiece⟩ := hkept path hpath hget
        rw [counted_of_result hget hpiece, hpiece]
        rfl

/-- The jobs of files that have all come to their ends, before any outcome is collected. -/
def ended (outcome : String → Except Fault Piece) (files : List String) (w : World) : Round :=
  ⟨files.map fun path => ⟨path, .finished (outcome path)⟩, [], [], none, w⟩

private def endsWith (outcome : String → Except Fault Piece) : Invariant where
  shared _ _ := True
  job _ _ path
    | .finished found => found = outcome path
    | _ => False

private theorem endsWith_isKept [Codecs] (outcome : String → Except Fault Piece) :
    (endsWith outcome).IsKept s phase where
  own {path stage _} _ hunderway _ hjob := by
    cases stage <;> first | exact hjob.elim | cases hunderway
  others {path stage _} _ hunderway _ hjob := by
    cases stage <;> first | exact hjob.elim | cases hunderway

private theorem endsWith_ended (outcome : String → Except Fault Piece) (w : World) :
    (endsWith outcome).Holds s (ended outcome s.configuration.files w) where
  shared := trivial
  jobs job hjob := by
    obtain ⟨path, hpath, rfl⟩ := List.mem_map.mp hjob
    exact ⟨hpath, Or.inr rfl⟩
  results path piece hget := by cases hget
  faults path fault hget := by cases hget
  collected _ job hjob hstage := by
    obtain ⟨path, -, rfl⟩ := List.mem_map.mp hjob
    cases hstage
  interruption fault hfault := by cases hfault

/-- When no event is refused, the outcomes of jobs that have ended are collected to the same
failures, or to the same results, in every order. -/
theorem collected_of_ended [Codecs] (hquiet : s.IsQuiet) (phase : Phase)
    (outcome : String → Except Fault Piece) (w : World) {order : List Nat}
    (hall : ∀ index < s.configuration.files.length, index ∈ order) :
    let r := order.foldl (move s phase) (ended outcome s.configuration.files w)
    r.interruption = none ∧
      r.failures s.configuration.files = failuresOf outcome s.configuration.files ∧
      (failuresOf outcome s.configuration.files = [] →
        r.resultsInOrder s.configuration.files = resultsOf outcome s.configuration.files) := by
  intro r
  have hholds : (endsWith outcome).Holds s r := by
    have hmoves : ∀ (moves : List Nat) (r : Round), (endsWith outcome).Holds s r →
        (endsWith outcome).Holds s (moves.foldl (move s phase) r) := by
      intro moves
      induction moves with
      | nil => exact fun r h => h
      | cons index rest ih => exact fun r h => ih _ (h.move (endsWith_isKept outcome) index)
    exact hmoves order _ (endsWith_ended outcome w)
  have hgoing := interruption_of_isQuiet hholds hquiet
  have hpaths : r.jobs.map Job.path = s.configuration.files := by
    simp [r, paths_foldl, ended, Function.comp_def]
  have hcollected : ∀ job ∈ r.jobs, job.stage = .collected := by
    intro job hjob
    obtain ⟨index, hindex⟩ := List.mem_iff_getElem?.mp hjob
    have hlt : index < s.configuration.files.length := by
      obtain ⟨hlt, -⟩ := List.getElem?_eq_some_iff.mp hindex
      have := congrArg List.length hpaths
      simp only [List.length_map] at this
      omega
    have hleft := foldl_movesLeft_le order _ index hgoing
    have hcount := List.count_pos_iff.mpr (hall index hlt)
    have hstart : (ended outcome s.configuration.files w).movesLeft index = 1 := by
      simp [movesLeft, ended, hlt, Stage.movesLeft]
    rw [hstart] at hleft
    have hzero : r.movesLeft index = 0 := by
      simp only [r]
      omega
    rw [movesLeft_eq hindex] at hzero
    exact Stage.eq_collected_of_movesLeft hzero
  obtain ⟨found, hfound, hfailures, hresults⟩ :=
    exists_outcome hholds hgoing hpaths hcollected
  have hsame : ∀ path ∈ s.configuration.files, found path = outcome path := hfound
  have hfailuresOf : failuresOf found s.configuration.files =
      failuresOf outcome s.configuration.files :=
    failuresOf_congr fun path hpath fault => by rw [hsame path hpath]
  rw [← hfailuresOf, ← resultsOf_congr hsame]
  exact ⟨hgoing, hfailures, hresults⟩

end Round

end MediaSplit
