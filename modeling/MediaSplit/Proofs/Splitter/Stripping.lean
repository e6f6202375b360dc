import MediaSplit.Proofs.Files.Touching
import MediaSplit.Proofs.Splitter.Concluding

/-!
The second phase on its own, with any cache. A source is written from its style sheet in the cache
or else from its file, as that was at the start of the phase: the copies of other sources neither
change the file nor make a way to it. So how a job ends is a matter of its own source and its own
copy.
-/

namespace MediaSplit

namespace Cache

def known [Codecs] (c : Cache) (t : FileTree) (path : String) : Except Fault Stylesheet :=
  (c.get t path).1.map Parsed.sheet

theorem known_of_some [Codecs] {c : Cache} {path : String} {parsed : Parsed}
    (h : c.get? path = some parsed) (t : FileTree) : c.known t path = .ok parsed.sheet := by
  simp only [known, get, h]
  rfl

theorem known_of_none [Codecs] {c : Cache} {path : String} (h : c.get? path = none) (t : FileTree) :
    c.known t path = load t c.encoding path := by
  simp only [known, get, h]
  cases load t c.encoding path <;> rfl

/-- A style sheet that comes from a file comes from any other tree on which the file reads the
same. -/
theorem load_of_read [Codecs] {t t' : FileTree} {encoding path : String} {sheet : Stylesheet}
    (hread : ∀ bytes, t'.read path = .ok bytes → t.read path = .ok bytes)
    (h : load t' encoding path = .ok sheet) : load t encoding path = .ok sheet := by
  obtain ⟨bytes, -, -, hbytes, -⟩ := load_eq_ok h
  simpa only [load, TextFile.read, hbytes, hread bytes hbytes] using h

end Cache

namespace Splitter

open FileTree

/-- The text of a stripped copy, given the style sheet of its source. -/
def strippedText (s : Splitter) (sheet : Stylesheet) : String :=
  (s.pieceOf .strip sheet).text

def otherOutputs (s : Splitter) (path : String) : List String :=
  (s.configuration.files.filter (· ≠ path)).map s.outputPath

/-- That the copies of the other sources neither change a file nor make a way to it. -/
def IsSteady (s : Splitter) (t : FileTree) (path : String) : Prop :=
  t.placeOf path ∉ (s.otherOutputs path).map t.placeOf ∧ t.IsShut (s.otherOutputs path) path

/-- That every source with its copy at the same place gives it the same text. -/
def Agrees [Codecs] (s : Splitter) (t : FileTree) (c : Cache) (path : String) : Prop :=
  ∀ other ∈ s.configuration.files, t.placeOf (s.outputPath other) = t.placeOf (s.outputPath path) →
    ∀ sheet sheet', c.known t path = .ok sheet → c.known t other = .ok sheet' →
      s.strippedText sheet' = s.strippedText sheet

/-- A fault of reading a source, or of writing its copy, on files as they were at some time in the
second phase. -/
inductive OwnFault [Codecs] (s : Splitter) (t : FileTree) (c : Cache) (path : String)
    (fault : Fault) : Prop where
  | unread {tree : FileTree} (uncached : c.get? path = none)
      (touched : Touched (s.otherOutputs path) t tree)
      (failed : Cache.load tree c.encoding path = .error fault)
  | unwritten {tree : FileTree} {sheet : Stylesheet} (read : c.known t path = .ok sheet)
      (touched : Touched (s.configuration.files.map s.outputPath) t tree)
      (failed : (TextFile.write tree s.configuration.encoding (s.outputPath path)
        (s.strippedText sheet)).1 = .error fault)

/-- What the outcome of a job of the second phase tells of its source and its copy. -/
def Ends [Codecs] (s : Splitter) (t : FileTree) (c : Cache) (tree : FileTree) (path : String) :
    Except Fault Piece → Prop
  | .ok piece => ∃ sheet, c.known t path = .ok sheet ∧ piece = s.pieceOf .strip sheet ∧
      (TextFile.write t s.configuration.encoding (s.outputPath path) piece.text).1 = .ok () ∧
      (s.Agrees t c path →
        TextFile.Holds tree s.configuration.encoding (s.outputPath path) piece.text)
  | .error fault => s.Refuses fault ∨ s.OwnFault t c path fault

/-- The second phase from files `t` and a cache `c`. Only sources that are in the cache by now can
have their copies written. -/
def stripping [Codecs] (s : Splitter) (t : FileTree) (c : Cache) : Round.Invariant where
  shared tree cache := cache.encoding = c.encoding ∧
    (∀ path parsed, c.get? path = some parsed → cache.get? path = some parsed) ∧
    (∀ path parsed, cache.get? path = some parsed → c.known t path = .ok parsed.sheet) ∧
    Touched ((s.configuration.files.filter cache.holds).map s.outputPath) t tree
  job tree cache path
    | .waiting | .collected => True
    | .loaded sheet => cache.holds path = true ∧ c.known t path = .ok sheet
    | .classified piece => cache.holds path = true ∧
        ∃ sheet, c.known t path = .ok sheet ∧ piece = s.pieceOf .strip sheet
    | .written piece => s.Ends t c tree path (.ok piece)
    | .finished outcome => s.Ends t c tree path outcome

variable {s : Splitter} {t tree : FileTree} {c : Cache}

private theorem mem_cachedOutputs {cache : Cache} {path : String}
    (hpath : path ∈ s.configuration.files) (hholds : cache.holds path = true) :
    s.outputPath path ∈ (s.configuration.files.filter cache.holds).map s.outputPath :=
  List.mem_map.mpr ⟨path, List.mem_filter.mpr ⟨hpath, hholds⟩, rfl⟩

private theorem cachedOutputs_subset (s : Splitter) (cache : Cache) :
    (s.configuration.files.filter cache.holds).map s.outputPath ⊆
      s.configuration.files.map s.outputPath :=
  List.map_subset _ List.filter_sublist.subset

/-- As long as a source is not in the cache only copies of others are written. -/
private theorem touched_others {cache : Cache} {path : String} (hnone : cache.get? path = none)
    (h : Touched ((s.configuration.files.filter cache.holds).map s.outputPath) t tree) :
    Touched (s.otherOutputs path) t tree := by
  refine h.mono (List.map_subset _ fun other hother => ?_)
  obtain ⟨hfile, hholds⟩ := List.mem_filter.mp hother
  refine List.mem_filter.mpr ⟨hfile, ?_⟩
  have hne : other ≠ path := by
    rintro rfl
    rw [Cache.holds, hnone] at hholds
    cases hholds
  simpa using hne

private theorem load_steady [Codecs] (hworking : t.entry? t.workingDirectory = some .directory)
    {path encoding : String} {sheet : Stylesheet} (hsteady : s.IsSteady t path)
    (htouched : Touched (s.otherOutputs path) t tree)
    (h : Cache.load tree encoding path = .ok sheet) : Cache.load t encoding path = .ok sheet :=
  Cache.load_of_read (fun _ => htouched.read hworking hsteady.1 hsteady.2) h

/-- What has become of a copy stays when another one is written. -/
private theorem Ends.write [Codecs] {path other : String} {outcome : Except Fault Piece}
    {sheet : Stylesheet} (h : s.Ends t c tree path outcome)
    (hplaces : ∀ path, tree.placeOf path = t.placeOf path)
    (hother : other ∈ s.configuration.files) (hsheet : c.known t other = .ok sheet) :
    s.Ends t c (TextFile.write tree s.configuration.encoding (s.outputPath other)
      (s.strippedText sheet)).2 path outcome := by
  cases outcome with
  | error fault => exact h
  | ok piece =>
      obtain ⟨own, hown, rfl, hwritten, hholds⟩ := h
      refine ⟨own, hown, rfl, hwritten, fun hagrees => ?_⟩
      by_cases hplace : t.placeOf (s.outputPath other) = t.placeOf (s.outputPath path)
      · rw [hagrees other hother hplace own sheet hown hsheet]
        refine TextFile.holds_of_write (hholds hagrees) ?_
        rw [hplaces, hplaces, hplace]
      · refine (hholds hagrees).imp fun hread => (changes_write _ _ _ _).read hread ?_
        rw [List.mem_singleton, hplaces, hplaces]
        exact Ne.symm hplace

/-- What a job has left when it has tried to write its copy. -/
private theorem ends_write [Codecs] (hworking : t.entry? t.workingDirectory = some .directory)
    {paths : List String} (hpaths : paths ⊆ s.configuration.files.map s.outputPath)
    (htouched : Touched paths t tree) {path : String} {sheet : Stylesheet}
    (hsheet : c.known t path = .ok sheet) :
    match TextFile.write tree s.configuration.encoding (s.outputPath path)
      (s.strippedText sheet) with
    | (.ok (), tree') => s.Ends t c tree' path (.ok (s.pieceOf .strip sheet))
    | (.error fault, tree') => s.Ends t c tree' path (.error fault) := by
  have hworking' : tree.entry? tree.workingDirectory = some .directory := by
    rw [htouched.changes.workingDirectory]
    exact htouched.changes.directoryStays _ hworking
  cases hwrite : TextFile.write tree s.configuration.encoding (s.outputPath path)
    (s.strippedText sheet) with
  | mk written tree' =>
      cases written with
      | error fault =>
          exact Or.inr (.unwritten hsheet (htouched.mono hpaths) (by rw [hwrite]))
      | ok _ =>
          have hok : (TextFile.write tree s.configuration.encoding (s.outputPath path)
            (s.strippedText sheet)).1 = .ok () := by rw [hwrite]
          obtain ⟨hopens, hbytes⟩ :=
            (TextFile.write_eq_ok_iff (TextFile.entry?_startOf hworking' _) _ _).mp hok
          refine ⟨sheet, hsheet, rfl, ?_, fun _ => ?_⟩
          · exact (TextFile.write_eq_ok_iff (TextFile.entry?_startOf hworking _) _ _).mpr
              ⟨htouched.changes.opens hopens, hbytes⟩
          · have houtcome := TextFile.write_outcome tree s.configuration.encoding
              (s.outputPath path) (s.strippedText sheet)
            rw [hwrite] at houtcome
            cases houtcome with
            | written named opens changes full => exact full

private theorem stripping_load [Codecs] (hworking : t.entry? t.workingDirectory = some .directory)
    (hsteady : ∀ path ∈ s.configuration.files, c.get? path = none → s.IsSteady t path)
    {path : String} {w : World} (hpath : path ∈ s.configuration.files)
    (hshared : (s.stripping t c).shared w.tree w.cache) :
    let next := s.advance .strip path w .waiting
    (s.stripping t c).shared next.2.tree next.2.cache ∧
      (s.stripping t c).job next.2.tree next.2.cache path next.1 ∧
      next.2.tree = w.tree ∧
      ∀ path, w.cache.holds path = true → next.2.cache.holds path = true := by
  obtain ⟨hencoding, hkept, hknown, htouched⟩ := hshared
  simp only [advance]
  rcases w.load_cases path with ⟨serial, sheet, hget, hload⟩ |
    ⟨fault, w', hnone, hfault, htree, hcache, hload⟩ |
    ⟨sheet, w', hnone, hsheet, htree, hcache, hload⟩
  · rw [hload]
    refine ⟨⟨hencoding, hkept, hknown, htouched⟩, ⟨?_, hknown path _ hget⟩, rfl, fun _ h => h⟩
    rw [Cache.holds, hget]
    rfl
  · have huncached : c.get? path = none := by
      cases hget : c.get? path with
      | none => rfl
      | some parsed =>
          rw [hkept path parsed hget] at hnone
          cases hnone
    rw [hload]
    simp only [htree, hcache]
    refine ⟨⟨hencoding, hkept, hknown, htouched⟩, Or.inr ?_, trivial, fun _ h => h⟩
    exact .unread huncached (touched_others hnone htouched) (by rw [← hencoding, hfault])
  · have huncached : c.get? path = none := by
      cases hget : c.get? path with
      | none => rfl
      | some parsed =>
          rw [hkept path parsed hget] at hnone
          cases hnone
    have hsource : c.known t path = .ok sheet := by
      rw [Cache.known_of_none huncached, ← hencoding]
      exact load_steady hworking (hsteady path hpath huncached) (touched_others hnone htouched)
        hsheet
    have hgrows : ∀ other, w.cache.holds other = true →
        (w.cache.store path ⟨w.cache.parses, sheet⟩).holds other = true := by
      intro other hother
      rw [Cache.holds, Cache.get?_store]
      split
      · rfl
      · exact hother
    rw [hload]
    simp only [htree, hcache]
    refine ⟨⟨hencoding, ?_, ?_, ?_⟩, ⟨?_, hsource⟩, trivial, hgrows⟩
    · intro other parsed hget
      have hne : other ≠ path := by
        rintro rfl
        rw [huncached] at hget
        cases hget
      rw [Cache.get?_store, if_neg hne]
      exact hkept other parsed hget
    · intro other parsed hget
      rw [Cache.get?_store] at hget
      split at hget
      · rename_i heq
        rw [heq, ← Option.some.inj hget, hsource]
      · exact hknown other parsed hget
    · refine htouched.mono (List.map_subset _ fun other hother => ?_)
      obtain ⟨hfile, hholds⟩ := List.mem_filter.mp hother
      exact List.mem_filter.mpr ⟨hfile, hgrows other hholds⟩
    · rw [Cache.holds, Cache.get?_store, if_pos rfl]
      rfl

/-- One step of the second phase keeps what holds of its job, keeps sources in the cache, and either
writes the copy of its own source or no file at all. -/
private theorem stripping_advance [Codecs]
    (hworking : t.entry? t.workingDirectory = some .directory)
    (hsteady : ∀ path ∈ s.configuration.files, c.get? path = none → s.IsSteady t path)
    {path : String} {stage : Stage} {w : World} (hpath : path ∈ s.configuration.files)
    (hunderway : stage.isUnderway = true) (hshared : (s.stripping t c).shared w.tree w.cache)
    (hjob : (s.stripping t c).job w.tree w.cache path stage) :
    let next := s.advance .strip path w stage
    (s.stripping t c).shared next.2.tree next.2.cache ∧
      (s.stripping t c).job next.2.tree next.2.cache path next.1 ∧
      (next.2.tree = w.tree ∨ ∃ sheet, c.known t path = .ok sheet ∧
        next.2.tree = (TextFile.write w.tree s.configuration.encoding (s.outputPath path)
          (s.strippedText sheet)).2) ∧
      ∀ path, w.cache.holds path = true → next.2.cache.holds path = true := by
  cases stage with
  | finished outcome => cases hunderway
  | collected => cases hunderway
  | waiting =>
      obtain ⟨hshared', hjob', htree, hgrows⟩ :=
        stripping_load hworking hsteady hpath hshared
      exact ⟨hshared', hjob', Or.inl htree, hgrows⟩
  | loaded sheet =>
      obtain ⟨hholds, hsheet⟩ := hjob
      simp only [advance]
      obtain ⟨w', htree, hcache, htold⟩ := s.tell_cases
        (.fileClassified .strip path (s.pieceOf .strip sheet).ruleCount)
        (w.note (classifiedNotice .strip (s.pieceOf .strip sheet).ruleCount path))
      simp only [World.note_tree, World.note_cache] at htree hcache
      rcases htold with htold | ⟨fault, hrefused, htold⟩
      · rw [htold]
        simp only [htree, hcache]
        exact ⟨hshared, ⟨hholds, sheet, hsheet, rfl⟩, Or.inl trivial, fun _ h => h⟩
      · rw [htold]
        simp only [htree, hcache]
        exact ⟨hshared, Or.inl hrefused, Or.inl trivial, fun _ h => h⟩
  | classified piece =>
      obtain ⟨hholds, sheet, hsheet, rfl⟩ := hjob
      obtain ⟨hencoding, hkept, hknown, htouched⟩ := hshared
      have hends := ends_write hworking (s.cachedOutputs_subset w.cache) htouched hsheet
      have htouched' := htouched.write (mem_cachedOutputs hpath hholds) s.configuration.encoding
        (s.strippedText sheet)
      simp only [advance, World.write]
      simp only [strippedText] at hends htouched'
      cases hwrite : TextFile.write w.tree s.configuration.encoding (s.outputPath path)
        (s.pieceOf .strip sheet).text with
      | mk written tree' =>
          rw [hwrite] at hends htouched'
          cases written with
          | ok _ =>
              refine ⟨⟨hencoding, hkept, hknown, htouched'⟩, hends, Or.inr ⟨sheet, hsheet, ?_⟩,
                fun _ h => h⟩
              rw [strippedText, hwrite]
          | error fault =>
              refine ⟨⟨hencoding, hkept, hknown, htouched'⟩, hends, Or.inr ⟨sheet, hsheet, ?_⟩,
                fun _ h => h⟩
              rw [strippedText, hwrite]
  | written piece =>
      simp only [advance]
      obtain ⟨w', htree, hcache, htold⟩ := s.tell_cases
        (.fileWritten .strip (s.outputPath path)) w
      rcases htold with htold | ⟨fault, hrefused, htold⟩
      · rw [htold]
        simp only [htree, hcache]
        exact ⟨hshared, hjob, Or.inl trivial, fun _ h => h⟩
      · rw [htold]
        simp only [htree, hcache]
        exact ⟨hshared, Or.inl hrefused, Or.inl trivial, fun _ h => h⟩

theorem stripping_isKept [Codecs] (hworking : t.entry? t.workingDirectory = some .directory)
    (hsteady : ∀ path ∈ s.configuration.files, c.get? path = none → s.IsSteady t path) :
    (s.stripping t c).IsKept s .strip where
  own hpath hunderway hshared hjob := by
    obtain ⟨hshared', hjob', -, -⟩ :=
      stripping_advance hworking hsteady hpath hunderway hshared hjob
    exact ⟨hshared', hjob'⟩
  others {path stage w} hpath hunderway hshared hjob path' stage' _ hother := by
    obtain ⟨-, -, htree, hgrows⟩ :=
      stripping_advance hworking hsteady hpath hunderway hshared hjob
    have hplaces := hshared.2.2.2.changes.placeOf
    have hends : ∀ outcome, s.Ends t c w.tree path' outcome → s.Ends t c
        (s.advance .strip path w stage).2.tree path' outcome := by
      intro outcome h
      rcases htree with htree | ⟨sheet, hsheet, htree⟩
      · rw [htree]
        exact h
      · rw [htree]
        exact h.write hplaces hpath hsheet
    cases stage' with
    | waiting => trivial
    | collected => trivial
    | loaded sheet => exact ⟨hgrows path' hother.1, hother.2⟩
    | classified piece => exact ⟨hgrows path' hother.1, hother.2⟩
    | written piece => exact hends (.ok piece) hother
    | finished outcome => exact hends outcome hother

/-- The jobs of the second phase, with any cache: they end as they may, and their copies are all
that is written. -/
theorem fanOut_strip [Codecs] (hquiet : s.IsQuiet) (hworkers : s.hasWorkers = true) {w : World}
    (hworking : w.tree.entry? w.tree.workingDirectory = some .directory)
    (hsteady : ∀ path ∈ s.configuration.files, w.cache.get? path = none → s.IsSteady w.tree path) :
    ∃ outcome : String → Except Fault Piece,
      (∀ path ∈ s.configuration.files, s.Ends w.tree w.cache (Round.run s .strip w).world.tree path
        (outcome path)) ∧
      Touched (s.configuration.files.map s.outputPath) w.tree
        (Round.run s .strip w).world.tree ∧
      (s.fanOut .strip).perform w =
        conclude .strip (failuresOf outcome s.configuration.files)
          (resultsOf outcome s.configuration.files) (Round.run s .strip w).world := by
  have hholds : (s.stripping w.tree w.cache).Holds s (Round.run s .strip w) := by
    refine Round.Invariant.holds_run (stripping_isKept hworking hsteady) ⟨rfl, ?_, ?_, ?_⟩
      fun _ _ => trivial
    · exact fun path parsed hget => hget
    · exact fun path parsed hget => Cache.known_of_some hget w.tree
    · exact .refl _ _
  obtain ⟨outcome, hended, hfanOut⟩ := fanOut_of_holds hquiet hworkers hholds
  exact ⟨outcome, hended, hholds.shared.2.2.2.mono (s.cachedOutputs_subset _), hfanOut⟩

end Splitter

end MediaSplit
