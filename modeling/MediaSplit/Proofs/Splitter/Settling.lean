import MediaSplit.Proofs.Files.CopyNames
import MediaSplit.Proofs.Files.Touching
import MediaSplit.Proofs.Splitter.Stories

/-!
All jobs for one file end alike. In the first phase neither the files change nor what can be had of
them. In the second phase files do change, but a copy that is written can be read and so written
again, whatever the other jobs write in between, and one that cannot be written cannot be written
later either.
-/

namespace MediaSplit.Splitter

open FileTree TextFile

variable {s : Splitter} {t : FileTree} {c : Cache}

section Fetching

/-- That the style sheet of a source can be had, from the cache or from its file. -/
def CanLoad [Codecs] (t : FileTree) (c : Cache) (path : String) : Prop :=
  (c.get? path).isSome = true ∨ ∃ sheet, Cache.load t c.encoding path = .ok sheet

theorem canLoad_store [Codecs] {path : String} {sheet : Stylesheet}
    (hload : Cache.load t c.encoding path = .ok sheet) (serial : Nat) (other : String) :
    CanLoad t (c.store path ⟨serial, sheet⟩) other ↔ CanLoad t c other := by
  unfold CanLoad
  by_cases heq : other = path
  · subst heq
    rw [Cache.get?_store_self]
    exact ⟨fun _ => Or.inr ⟨sheet, hload⟩, fun _ => Or.inl rfl⟩
  · rw [Cache.get?_store_of_ne heq]
    exact Iff.rfl

/-- The jobs of the first phase get the style sheets that can be had at its start, and no others. -/
def fetching [Codecs] (t : FileTree) (c : Cache) : Round.Invariant where
  shared tree cache := tree = t ∧ cache.encoding = c.encoding ∧
    ∀ path, CanLoad t cache path ↔ CanLoad t c path
  job _ _ path
    | .waiting | .collected => True
    | .loaded _ | .finished (.ok _) => CanLoad t c path
    | .finished (.error _) => ¬ CanLoad t c path
    | .classified _ | .written _ => False

theorem fetching_isKept [Codecs] (hquiet : s.IsQuiet) (t : FileTree) (c : Cache) :
    (fetching t c).IsKept s .extract where
  own {path stage w} _ hunderway hshared hjob := by
    obtain ⟨rfl, hencoding, hcan⟩ := hshared
    cases stage with
    | finished outcome => cases hunderway
    | collected => cases hunderway
    | classified piece => exact hjob.elim
    | written piece => exact hjob.elim
    | loaded sheet =>
        simp only [advance, tell_of_isQuiet hquiet]
        exact ⟨⟨rfl, hencoding, hcan⟩, hjob⟩
    | waiting =>
        simp only [advance]
        rcases w.load_cases path with ⟨serial, sheet, hget, hload⟩ |
          ⟨fault, w', hnone, hfault, htree, hcache, hload⟩ |
          ⟨sheet, w', hnone, hsheet, htree, hcache, hload⟩
        · rw [hload]
          refine ⟨⟨rfl, hencoding, hcan⟩, (hcan path).mp (Or.inl ?_)⟩
          rw [hget]
          rfl
        · rw [hload]
          simp only [htree, hcache]
          refine ⟨⟨rfl, hencoding, hcan⟩, fun h => ?_⟩
          rcases (hcan path).mpr h with hsome | ⟨sheet, hsheet⟩
          · rw [hnone] at hsome
            cases hsome
          · rw [hfault] at hsheet
            cases hsheet
        · rw [hload]
          simp only [htree, hcache]
          refine ⟨⟨rfl, hencoding, fun other => ?_⟩, (hcan path).mp (Or.inr ⟨sheet, hsheet⟩)⟩
          exact (canLoad_store hsheet _ other).trans (hcan other)
  others {path stage w} _ _ _ _ path' stage' _ hother := by
    cases stage' with
    | waiting => trivial
    | collected => trivial
    | loaded sheet => exact hother
    | classified piece => exact hother
    | written piece => exact hother
    | finished outcome => cases outcome <;> exact hother

theorem fetching_settles [Codecs] (t : FileTree) (c : Cache) : (fetching t c).Settles s := by
  intro w path outcome outcome' _ _ hreached hreached'
  cases outcome with
  | ok piece =>
      cases outcome' with
      | ok piece' => rfl
      | error fault => exact absurd hreached hreached'
  | error fault =>
      cases outcome' with
      | ok piece => exact absurd hreached' hreached
      | error fault' => rfl

end Fetching

section Settling

variable {sheetOf : String → Stylesheet}

/-- That the copy of a source has bytes in the encoding of the run. -/
def Encodes [Codecs] (s : Splitter) (sheetOf : String → Stylesheet) (path : String) : Prop :=
  ∃ bytes, written s.configuration.encoding (s.copyOf sheetOf path) = .ok bytes

/-- That some text of a path can be read, and that the copy of its source could be written. -/
def IsWritten [Codecs] (s : Splitter) (sheetOf : String → Stylesheet) (tree : FileTree)
    (path : String) : Prop :=
  (∃ content, tree.read (s.outputPath path) = .ok content) ∧ s.Encodes sheetOf path

/-- The jobs of the second phase, from files `t` and a cache of all sources: what a job could write
stays readable, and what it could not write stays closed. -/
def settling [Codecs] (s : Splitter) (t : FileTree) (c : Cache) (sheetOf : String → Stylesheet) :
    Round.Invariant where
  shared tree cache := cache = c ∧ ∃ files directories, Changes files directories t tree
  job tree _ path
    | .waiting | .collected => True
    | .loaded sheet => sheet = sheetOf path
    | .classified piece => piece = s.pieceOf .strip (sheetOf path)
    | .written _ | .finished (.ok _) => s.IsWritten sheetOf tree path
    | .finished (.error _) => ¬ (tree.Opens (s.outputPath path) ∧ s.Encodes sheetOf path)

/-- What a job has come to stays as files change. -/
private theorem settling_of_changes [Codecs] {tree tree' : FileTree} {cache cache' : Cache}
    {files directories : List Location} (hchanges : Changes files directories tree tree')
    {path : String} {stage : Stage} (h : (s.settling t c sheetOf).job tree cache path stage) :
    (s.settling t c sheetOf).job tree' cache' path stage := by
  have hwritten : s.IsWritten sheetOf tree path → s.IsWritten sheetOf tree' path := by
    rintro ⟨⟨content, hread⟩, hencodes⟩
    exact ⟨hchanges.readable hread, hencodes⟩
  cases stage with
  | waiting => trivial
  | collected => trivial
  | loaded sheet => exact h
  | classified piece => exact h
  | written piece => exact hwritten h
  | finished outcome =>
      cases outcome with
      | ok piece => exact hwritten h
      | error fault => exact fun hopens => h ⟨hchanges.opens hopens.1, hopens.2⟩

/-- An attempt to write a copy tells whether it can be written. -/
private theorem settled_write [Codecs] {tree : FileTree} {path : String}
    (hstart : tree.entry? (tree.startOf (s.outputPath path).toList) = some .directory) :
    match TextFile.write tree s.configuration.encoding (s.outputPath path)
      (s.copyOf sheetOf path) with
    | (.ok (), tree') => s.IsWritten sheetOf tree' path
    | (.error _, tree') => ¬ (tree'.Opens (s.outputPath path) ∧ s.Encodes sheetOf path) := by
  have hok := write_eq_ok_iff hstart s.configuration.encoding (s.copyOf sheetOf path)
  have hchanges := changes_write tree s.configuration.encoding (s.outputPath path)
    (s.copyOf sheetOf path)
  have houtcome := write_outcome tree s.configuration.encoding (s.outputPath path)
    (s.copyOf sheetOf path)
  generalize TextFile.write tree s.configuration.encoding (s.outputPath path)
    (s.copyOf sheetOf path) = result at hok hchanges houtcome
  obtain ⟨written, tree'⟩ := result
  cases written with
  | error fault =>
      rintro ⟨hopens, hencodes⟩
      cases hok.mpr ⟨hchanges.opens hopens, hencodes⟩
  | ok _ =>
      cases houtcome with
      | written named opens changes full =>
          obtain ⟨bytes, hwritten, hread, -⟩ := full
          exact ⟨⟨bytes, hread⟩, bytes, hwritten⟩

/-- One step of the second phase only changes files, and brings its job on. -/
private theorem settling_advance [Codecs] (hquiet : s.IsQuiet)
    (hcached : ∀ path ∈ s.configuration.files,
      ∃ serial, c.get? path = some ⟨serial, sheetOf path⟩)
    (hstart : ∀ path ∈ s.configuration.files,
      t.entry? (t.startOf (s.outputPath path).toList) = some .directory)
    {path : String} {stage : Stage} {w : World} (hpath : path ∈ s.configuration.files)
    (hunderway : stage.isUnderway = true) (hshared : (s.settling t c sheetOf).shared w.tree w.cache)
    (hjob : (s.settling t c sheetOf).job w.tree w.cache path stage) :
    let next := s.advance .strip path w stage
    next.2.cache = c ∧ (∃ files directories, Changes files directories w.tree next.2.tree) ∧
      (s.settling t c sheetOf).job next.2.tree next.2.cache path next.1 := by
  obtain ⟨rfl, files, directories, hchanges⟩ := hshared
  have hsame : ∃ files directories, Changes files directories w.tree w.tree :=
    ⟨[], [], Changes.refl _ _ _⟩
  cases stage with
  | finished outcome => cases hunderway
  | collected => cases hunderway
  | waiting =>
      obtain ⟨serial, hget⟩ := hcached path hpath
      simp only [advance, World.load_of_cached hget]
      exact ⟨trivial, hsame, rfl⟩
  | loaded sheet =>
      obtain rfl : sheet = sheetOf path := hjob
      simp only [advance, tell_of_isQuiet hquiet]
      exact ⟨rfl, hsame, rfl⟩
  | classified piece =>
      obtain rfl : piece = s.pieceOf .strip (sheetOf path) := hjob
      -- The way still starts at a directory: what is written in between removes none.
      have hthere : w.tree.entry? (w.tree.startOf (s.outputPath path).toList) =
          some .directory := by
        rw [hchanges.startOf]
        exact hchanges.directoryStays _ (hstart path hpath)
      have hsettled := @settled_write s sheetOf _ w.tree path hthere
      have hwrite := changes_write w.tree s.configuration.encoding (s.outputPath path)
        (s.copyOf sheetOf path)
      simp only [advance, World.write]
      rw [copyOf] at hsettled hwrite
      generalize TextFile.write w.tree s.configuration.encoding (s.outputPath path)
        (s.pieceOf .strip (sheetOf path)).text = result at hsettled hwrite
      obtain ⟨written, tree'⟩ := result
      cases written with
      | ok _ => exact ⟨rfl, ⟨_, _, hwrite⟩, hsettled⟩
      | error fault => exact ⟨rfl, ⟨_, _, hwrite⟩, hsettled⟩
  | written piece =>
      simp only [advance, tell_of_isQuiet hquiet]
      exact ⟨rfl, hsame, hjob⟩

theorem settling_isKept [Codecs] (hquiet : s.IsQuiet)
    (hcached : ∀ path ∈ s.configuration.files,
      ∃ serial, c.get? path = some ⟨serial, sheetOf path⟩)
    (hstart : ∀ path ∈ s.configuration.files,
      t.entry? (t.startOf (s.outputPath path).toList) = some .directory) :
    (s.settling t c sheetOf).IsKept s .strip where
  own hpath hunderway hshared hjob := by
    obtain ⟨hcache, ⟨files', directories', hstep⟩, hjob'⟩ :=
      settling_advance hquiet hcached hstart hpath hunderway hshared hjob
    obtain ⟨-, files, directories, hchanges⟩ := hshared
    refine ⟨⟨hcache, files ++ files', directories ++ directories', ?_⟩, hjob'⟩
    exact (hchanges.mono (List.subset_append_left _ _) (List.subset_append_left _ _)).trans
      (hstep.mono (List.subset_append_right _ _) (List.subset_append_right _ _))
  others hpath hunderway hshared hjob _ _ _ hother := by
    obtain ⟨-, ⟨files', directories', hstep⟩, -⟩ :=
      settling_advance hquiet hcached hstart hpath hunderway hshared hjob
    exact settling_of_changes hstep hother

theorem settling_settles [Codecs] (s : Splitter) (t : FileTree) (c : Cache)
    (sheetOf : String → Stylesheet) : (s.settling t c sheetOf).Settles s := by
  -- a copy that can be read can be written
  have hopens : ∀ {tree path}, s.IsWritten sheetOf tree path →
      tree.Opens (s.outputPath path) ∧ s.Encodes sheetOf path := by
    rintro tree path ⟨⟨content, hread⟩, hencodes⟩
    exact ⟨opens_of_read hread, hencodes⟩
  intro w path outcome outcome' _ _ hreached hreached'
  cases outcome with
  | ok piece =>
      cases outcome' with
      | ok piece' => rfl
      | error fault => exact absurd (hopens hreached) hreached'
  | error fault =>
      cases outcome' with
      | ok piece => exact absurd (hopens hreached') hreached
      | error fault' => rfl

end Settling

/-- The way to a copy starts where the way to its source does. -/
theorem startOf_outputPath (s : Splitter) (t : FileTree) (path : String) :
    t.startOf (s.outputPath path).toList = t.startOf path.toList := by
  unfold outputPath
  split
  · rfl
  · exact startOf_strippedPath path s.configuration.strippedSuffix t

end MediaSplit.Splitter
