import MediaSplit.Proofs.Cache.Entries
import MediaSplit.Proofs.Files.Writing
import MediaSplit.Proofs.Results
import MediaSplit.Proofs.Splitter.Invariant
import MediaSplit.Splitter

/-!
What holds throughout the two phases. The first phase reads only: the files stay as they are, and
the cache comes to hold what they hold. The second phase writes only: its style sheets are those
in the cache, so each copy has one text, whichever of its jobs writes it and whenever.
-/

namespace MediaSplit

namespace Cache

def sheetOf (c : Cache) (path : String) : Stylesheet :=
  match c.get? path with
  | some parsed => parsed.sheet
  | none => ⟨[], path⟩

theorem load_eq_ok [Codecs] {t : FileTree} {encoding path : String} {sheet : Stylesheet}
    (h : load t encoding path = .ok sheet) :
    ∃ bytes e chars, t.read path = .ok bytes ∧ TextFile.encodingOf encoding = .ok e ∧
      e.decode bytes = .ok chars ∧ Stylesheet.parse path (String.ofList chars) = .ok sheet := by
  simp only [load, TextFile.read, bind_eq_ok, mapError_eq_ok] at h
  obtain ⟨text, ⟨-, -, bytes, hread, e, hencoding, chars, hdecode, htext⟩, hparse⟩ := h
  obtain rfl := Except.ok.inj htext
  exact ⟨bytes, e, chars, hread, hencoding, hdecode, hparse⟩

end Cache

theorem World.load_of_cached [Codecs] {w : World} {path : String} {serial : Nat}
    {sheet : Stylesheet} (hget : w.cache.get? path = some ⟨serial, sheet⟩) :
    w.load path = (.ok sheet, w) := by
  simp [World.load, Cache.holds, Cache.get, hget]

/-- The three ways to get a style sheet: from the cache, not at all, and from its file. -/
theorem World.load_cases [Codecs] (w : World) (path : String) :
    (∃ serial sheet, w.cache.get? path = some ⟨serial, sheet⟩ ∧ w.load path = (.ok sheet, w)) ∨
    (∃ fault w', w.cache.get? path = none ∧
      Cache.load w.tree w.cache.encoding path = .error fault ∧ w'.tree = w.tree ∧
      w'.cache = w.cache ∧ w.load path = (.error fault, w')) ∨
    ∃ sheet w', w.cache.get? path = none ∧
      Cache.load w.tree w.cache.encoding path = .ok sheet ∧ w'.tree = w.tree ∧
      w'.cache = w.cache.store path ⟨w.cache.parses, sheet⟩ ∧ w.load path = (.ok sheet, w') := by
  cases hget : w.cache.get? path with
  | some parsed =>
      refine Or.inl ⟨parsed.serial, parsed.sheet, rfl, ?_⟩
      simp [World.load, Cache.holds, Cache.get, hget]
  | none =>
      right
      let told := w.note (.parsing path)
      cases hload : Cache.load w.tree w.cache.encoding path with
      | error fault =>
          refine Or.inl ⟨fault, told, rfl, rfl, rfl, rfl, ?_⟩
          simp [World.load, Cache.holds, Cache.get, hget, World.note, World.record, hload, told]
      | ok sheet =>
          refine Or.inr ⟨sheet, { told with cache := told.cache.store path ⟨_, sheet⟩ }, rfl, rfl,
            rfl, rfl, ?_⟩
          simp [World.load, Cache.holds, Cache.get, hget, World.note, World.record, hload, told]

namespace Splitter

/-- That a listener refused to hear of something. -/
def Refuses (s : Splitter) (fault : Fault) : Prop :=
  ∃ e message, s.listener e = some message ∧ fault = .listener message

theorem tell_cases (s : Splitter) (e : Event) (w : World) :
    ∃ w', w'.tree = w.tree ∧ w'.cache = w.cache ∧
      (s.tell e w = (.ok (), w') ∨ ∃ fault, s.Refuses fault ∧ s.tell e w = (.error fault, w')) := by
  refine ⟨w.record (.event e), rfl, rfl, ?_⟩
  unfold tell
  cases hanswer : s.listener e with
  | none => exact Or.inl rfl
  | some message => exact Or.inr ⟨_, ⟨e, message, hanswer, rfl⟩, rfl⟩

/-- The first phase reads the sources as they are. -/
def reading [Codecs] (s : Splitter) (t : FileTree) (c : Cache) : Round.Invariant where
  shared tree cache := tree = t ∧ cache.encoding = c.encoding ∧
    ∀ path parsed, cache.get? path = some parsed →
      c.get? path = some parsed ∨ Cache.load t c.encoding path = .ok parsed.sheet
  job _ cache path
    | .waiting | .collected => True
    | .loaded sheet => ∃ serial, cache.get? path = some ⟨serial, sheet⟩
    | .classified _ | .written _ => False
    | .finished (.ok piece) => ∃ serial sheet, cache.get? path = some ⟨serial, sheet⟩ ∧
        piece = s.pieceOf .extract sheet
    | .finished (.error fault) =>
        s.Refuses fault ∨ Cache.load t c.encoding path = .error fault

private theorem reading_of_cache [Codecs] (s : Splitter) {t tree tree' : FileTree}
    {c cache cache' : Cache}
    (hkept : ∀ path parsed, cache.get? path = some parsed → cache'.get? path = some parsed)
    {path : String} {stage : Stage} (h : (s.reading t c).job tree cache path stage) :
    (s.reading t c).job tree' cache' path stage := by
  cases stage with
  | waiting => trivial
  | collected => trivial
  | loaded sheet =>
      obtain ⟨serial, hget⟩ := h
      exact ⟨serial, hkept _ _ hget⟩
  | classified piece => exact h
  | written piece => exact h
  | finished outcome =>
      cases outcome with
      | error fault => exact h
      | ok piece =>
          obtain ⟨serial, sheet, hget, hpiece⟩ := h
          exact ⟨serial, sheet, hkept _ _ hget, hpiece⟩

private theorem get?_store_of_none {c : Cache} {path : String} (parsed : Parsed)
    (hnone : c.get? path = none) (other : String) (found : Parsed)
    (h : c.get? other = some found) : (c.store path parsed).get? other = some found := by
  have hne : other ≠ path := by
    rintro rfl
    rw [hnone] at h
    cases h
  rw [Cache.get?_store, if_neg hne, h]

/-- One step of the first phase: it never writes, and what the cache holds it keeps. -/
private theorem reading_advance [Codecs] (s : Splitter) {t : FileTree} {c : Cache} {path : String}
    {stage : Stage} {w : World} (hunderway : stage.isUnderway = true)
    (hshared : (s.reading t c).shared w.tree w.cache)
    (hjob : (s.reading t c).job w.tree w.cache path stage) :
    let next := s.advance .extract path w stage
    (s.reading t c).shared next.2.tree next.2.cache ∧
      (s.reading t c).job next.2.tree next.2.cache path next.1 ∧
      ∀ path parsed, w.cache.get? path = some parsed → next.2.cache.get? path = some parsed := by
  obtain ⟨htree, hencoding, hsource⟩ := hshared
  cases stage with
  | finished outcome => cases hunderway
  | collected => cases hunderway
  | classified piece => exact hjob.elim
  | written piece => exact hjob.elim
  | waiting =>
      simp only [advance]
      rcases w.load_cases path with ⟨serial, sheet, hget, hload⟩ |
        ⟨fault, w', -, hfault, htree', hcache', hload⟩ |
        ⟨sheet, w', hnone, hsheet, htree', hcache', hload⟩
      · rw [hload]
        exact ⟨⟨htree, hencoding, hsource⟩, ⟨serial, hget⟩, fun _ _ h => h⟩
      · rw [hload]
        simp only [htree', hcache']
        refine ⟨⟨htree, hencoding, hsource⟩, Or.inr ?_, fun _ _ h => h⟩
        rw [← htree, ← hencoding]
        exact hfault
      · rw [hload]
        simp only [htree', hcache']
        refine ⟨⟨htree, hencoding, ?_⟩, ⟨w.cache.parses, ?_⟩, get?_store_of_none _ hnone⟩
        · intro other parsed hget
          rw [Cache.get?_store] at hget
          split at hget
          · rename_i heq
            rw [← Option.some.inj hget, heq, ← htree, ← hencoding]
            exact Or.inr hsheet
          · exact hsource other parsed hget
        · rw [Cache.get?_store, if_pos rfl]
  | loaded sheet =>
      obtain ⟨serial, hget⟩ := hjob
      simp only [advance]
      obtain ⟨w', htree', hcache', htold⟩ := s.tell_cases
        (.fileClassified .extract path (s.pieceOf .extract sheet).ruleCount)
        (w.note (classifiedNotice .extract (s.pieceOf .extract sheet).ruleCount path))
      have htree'' : w'.tree = w.tree := htree'
      have hcache'' : w'.cache = w.cache := hcache'
      rcases htold with htold | ⟨fault, hrefused, htold⟩
      · rw [htold]
        simp only [htree'', hcache'']
        exact ⟨⟨htree, hencoding, hsource⟩, ⟨serial, sheet, hget, rfl⟩, fun _ _ h => h⟩
      · rw [htold]
        simp only [htree'', hcache'']
        exact ⟨⟨htree, hencoding, hsource⟩, Or.inl hrefused, fun _ _ h => h⟩

theorem reading_isKept [Codecs] (s : Splitter) (t : FileTree) (c : Cache) :
    (s.reading t c).IsKept s .extract where
  own _ hunderway hshared hjob := by
    obtain ⟨hshared', hjob', -⟩ := reading_advance s hunderway hshared hjob
    exact ⟨hshared', hjob'⟩
  others _ hunderway hshared hjob _ _ _ hother :=
    reading_of_cache s (reading_advance s hunderway hshared hjob).2.2 hother

/-- The text of the combined file, given the style sheets of the sources. -/
def combinedOf (s : Splitter) (sheetOf : String → Stylesheet) : String :=
  combinedText (s.configuration.files.eraseDups.map fun path =>
    (path, s.pieceOf .extract (sheetOf path)))

def copyOf (s : Splitter) (sheetOf : String → Stylesheet) (path : String) : String :=
  (s.pieceOf .strip (sheetOf path)).text

/-- The stripped copies that a run is to write, each text with its path. -/
def copies (s : Splitter) (sheetOf : String → Stylesheet) : List (String × String) :=
  s.configuration.files.map fun path => (s.outputPath path, s.copyOf sheetOf path)

/-- What a run is to write: the combined file and the stripped copies. -/
def orders (s : Splitter) (sheetOf : String → Stylesheet) : List (String × String) :=
  (s.configuration.dest, s.combinedOf sheetOf) :: s.copies sheetOf

/-- That no other source has its copy at the same place. -/
def IsApart (s : Splitter) (t : FileTree) (path : String) : Prop :=
  ∀ other ∈ s.configuration.files, other ≠ path →
    t.placeOf (s.outputPath other) ≠ t.placeOf (s.outputPath path)

/-- What the outcome of a job of the second phase tells of the copy that it was to write. -/
def Left [Codecs] (s : Splitter) (t : FileTree) (sheetOf : String → Stylesheet) (tree : FileTree)
    (path : String) : Except Fault Piece → Prop
  | .ok piece => piece = s.pieceOf .strip (sheetOf path) ∧ (s.IsApart t path →
      TextFile.Holds tree s.configuration.encoding (s.outputPath path) piece.text)
  | .error fault =>
      s.Refuses fault ∨
      (∃ trouble, fault = .path trouble ∧ (t.entry? t.workingDirectory = some .directory →
        ¬ tree.Opens (s.outputPath path))) ∨
      (TextFile.written s.configuration.encoding (s.pieceOf .strip (sheetOf path)).text =
          .error fault ∧
        (s.IsApart t path → tree.read (s.outputPath path) = .ok []))

/-- The second phase writes the copies of the sources, as they are in the cache. -/
def copying [Codecs] (s : Splitter) (t : FileTree) (c : Cache) (sheetOf : String → Stylesheet) :
    Round.Invariant where
  shared tree cache :=
    cache = c ∧ TextFile.Rewritten (s.copies sheetOf) s.configuration.encoding t tree
  job tree _ path
    | .waiting | .collected => True
    | .loaded sheet => sheet = sheetOf path
    | .classified piece => piece = s.pieceOf .strip (sheetOf path)
    | .written piece => s.Left t sheetOf tree path (.ok piece)
    | .finished outcome => s.Left t sheetOf tree path outcome

variable {s : Splitter} {t tree tree' : FileTree} {sheetOf : String → Stylesheet}

/-- What a job has left stays when nothing is written at the place of its copy. -/
private theorem Left.of_changes [Codecs] {files directories : List Location} {path : String}
    {outcome : Except Fault Piece} (h : s.Left t sheetOf tree path outcome)
    (hchanges : FileTree.Changes files directories tree tree')
    (haway : s.IsApart t path → tree.placeOf (s.outputPath path) ∉ files) :
    s.Left t sheetOf tree' path outcome := by
  cases outcome with
  | ok piece =>
      obtain ⟨hpiece, hholds⟩ := h
      refine ⟨hpiece, fun hapart => ?_⟩
      exact (hholds hapart).imp fun hread => hchanges.read hread (haway hapart)
  | error fault =>
      rcases h with hrefused | ⟨trouble, hfault, hclosed⟩ | ⟨hwritten, hempty⟩
      · exact Or.inl hrefused
      · exact Or.inr (Or.inl ⟨trouble, hfault,
          fun hworking hopens => hclosed hworking (hchanges.opens hopens)⟩)
      · exact Or.inr (Or.inr ⟨hwritten,
          fun hapart => hchanges.read (hempty hapart) (haway hapart)⟩)

/-- What a job has left stays when another job, for the same source or not, writes its copy. -/
private theorem Left.write [Codecs] {path other : String} {outcome : Except Fault Piece}
    (h : s.Left t sheetOf tree path outcome) (hplaces : ∀ path, tree.placeOf path = t.placeOf path)
    (hother : other ∈ s.configuration.files) :
    s.Left t sheetOf (TextFile.write tree s.configuration.encoding (s.outputPath other)
      (s.pieceOf .strip (sheetOf other)).text).2 path outcome := by
  have haway : other ≠ path → s.IsApart t path →
      tree.placeOf (s.outputPath path) ∉ [tree.placeOf (s.outputPath other)] := by
    intro hne hapart hmem
    rw [List.mem_singleton, hplaces, hplaces] at hmem
    exact hapart other hother hne hmem.symm
  have houtcome := TextFile.write_outcome tree s.configuration.encoding (s.outputPath other)
    (s.pieceOf .strip (sheetOf other)).text
  generalize TextFile.write tree s.configuration.encoding (s.outputPath other)
    (s.pieceOf .strip (sheetOf other)).text = result at houtcome
  cases houtcome with
  | unopened changes closed => exact h.of_changes changes fun _ => List.not_mem_nil
  | emptied opens changes empty refused =>
      by_cases heq : other = path
      · subst heq
        cases outcome with
        | ok piece =>
            obtain ⟨rfl, hholds⟩ := h
            refine ⟨rfl, fun hapart => ?_⟩
            obtain ⟨bytes, hwritten, -⟩ := hholds hapart
            rw [refused] at hwritten
            cases hwritten
        | error fault =>
            rcases h with hrefused | ⟨trouble, hfault, hclosed⟩ | ⟨hwritten, -⟩
            · exact Or.inl hrefused
            · exact Or.inr (Or.inl ⟨trouble, hfault, fun hworking => absurd opens (hclosed hworking)⟩)
            · exact Or.inr (Or.inr ⟨hwritten, fun _ => empty⟩)
      · exact h.of_changes changes (haway heq)
  | written named opens changes full =>
      by_cases heq : other = path
      · subst heq
        cases outcome with
        | ok piece =>
            obtain ⟨rfl, -⟩ := h
            exact ⟨rfl, fun _ => full⟩
        | error fault =>
            rcases h with hrefused | ⟨trouble, hfault, hclosed⟩ | ⟨hwritten, -⟩
            · exact Or.inl hrefused
            · exact Or.inr (Or.inl ⟨trouble, hfault, fun hworking => absurd opens (hclosed hworking)⟩)
            · obtain ⟨bytes, hwritten', -⟩ := full
              rw [hwritten] at hwritten'
              cases hwritten'
      · exact h.of_changes changes (haway heq)

/-- What a job has left when it has tried to write its copy. -/
private theorem left_write [Codecs] (sheetOf : String → Stylesheet)
    (hnamed : TextFile.checkName s.configuration.encoding = .ok ())
    (hworking : t.entry? t.workingDirectory = some .directory →
      tree.entry? tree.workingDirectory = some .directory) (path : String) :
    match TextFile.write tree s.configuration.encoding (s.outputPath path)
      (s.pieceOf .strip (sheetOf path)).text with
    | (.ok (), tree') => s.Left t sheetOf tree' path (.ok (s.pieceOf .strip (sheetOf path)))
    | (.error fault, tree') => s.Left t sheetOf tree' path (.error fault) := by
  have houtcome := TextFile.write_outcome tree s.configuration.encoding (s.outputPath path)
    (s.pieceOf .strip (sheetOf path)).text
  generalize TextFile.write tree s.configuration.encoding (s.outputPath path)
    (s.pieceOf .strip (sheetOf path)).text = result at houtcome
  cases houtcome with
  | unopened changes closed =>
      rcases closed with hname | ⟨trouble, hfault, hclosed⟩
      · rw [hnamed] at hname
        cases hname
      · exact Or.inr (Or.inl ⟨trouble, hfault, fun hthere hopens =>
          hclosed (TextFile.entry?_startOf (hworking hthere) _) (changes.opens hopens)⟩)
  | emptied opens changes empty refused => exact Or.inr (Or.inr ⟨refused, fun _ => empty⟩)
  | written named opens changes full => exact ⟨rfl, fun _ => full⟩

/-- One step of the second phase either writes the copy of its job or no file at all. -/
private theorem copying_advance [Codecs] {c : Cache}
    (hcached : ∀ path ∈ s.configuration.files, ∃ serial, c.get? path = some ⟨serial, sheetOf path⟩)
    (hnamed : TextFile.checkName s.configuration.encoding = .ok ()) {path : String} {stage : Stage}
    {w : World} (hpath : path ∈ s.configuration.files) (hunderway : stage.isUnderway = true)
    (hshared : (s.copying t c sheetOf).shared w.tree w.cache)
    (hjob : (s.copying t c sheetOf).job w.tree w.cache path stage) :
    let next := s.advance .strip path w stage
    next.2.cache = c ∧ (s.copying t c sheetOf).job next.2.tree next.2.cache path next.1 ∧
      (next.2.tree = w.tree ∨
        next.2.tree = (TextFile.write w.tree s.configuration.encoding (s.outputPath path)
          (s.pieceOf .strip (sheetOf path)).text).2) := by
  obtain ⟨hcache, hrewritten⟩ := hshared
  cases stage with
  | finished outcome => cases hunderway
  | collected => cases hunderway
  | waiting =>
      simp only [advance]
      obtain ⟨serial, hget⟩ := hcached path hpath
      have hload : w.load path = (.ok (sheetOf path), w) := by
        rw [← hcache] at hget
        exact World.load_of_cached hget
      rw [hload]
      exact ⟨hcache, rfl, Or.inl rfl⟩
  | loaded sheet =>
      have hsheet : sheet = sheetOf path := hjob
      subst hsheet
      simp only [advance]
      obtain ⟨w', htree', hcache', htold⟩ := s.tell_cases
        (.fileClassified .strip path (s.pieceOf .strip (sheetOf path)).ruleCount)
        (w.note (classifiedNotice .strip (s.pieceOf .strip (sheetOf path)).ruleCount path))
      rcases htold with htold | ⟨fault, hrefused, htold⟩
      · rw [htold]
        exact ⟨hcache'.trans hcache, rfl, Or.inl htree'⟩
      · rw [htold]
        exact ⟨hcache'.trans hcache, Or.inl hrefused, Or.inl htree'⟩
  | classified piece =>
      have hpiece : piece = s.pieceOf .strip (sheetOf path) := hjob
      subst hpiece
      have hworking : t.entry? t.workingDirectory = some .directory →
          w.tree.entry? w.tree.workingDirectory = some .directory := by
        intro hthere
        rw [hrewritten.changes.workingDirectory]
        exact hrewritten.changes.directoryStays _ hthere
      have hleft := left_write sheetOf hnamed hworking path
      simp only [advance, World.write]
      cases hwrite : TextFile.write w.tree s.configuration.encoding (s.outputPath path)
        (s.pieceOf .strip (sheetOf path)).text with
      | mk written tree' =>
          simp only [hwrite] at hleft ⊢
          cases written with
          | ok _ => exact ⟨hcache, hleft, Or.inr rfl⟩
          | error fault => exact ⟨hcache, hleft, Or.inr rfl⟩
  | written piece =>
      simp only [advance]
      obtain ⟨w', htree', hcache', htold⟩ := s.tell_cases
        (.fileWritten .strip (s.outputPath path)) w
      rcases htold with htold | ⟨fault, hrefused, htold⟩
      · rw [htold]
        refine ⟨hcache'.trans hcache, ?_, Or.inl htree'⟩
        simp only [copying, htree'] at hjob ⊢
        exact hjob
      · rw [htold]
        exact ⟨hcache'.trans hcache, Or.inl hrefused, Or.inl htree'⟩

theorem copying_isKept [Codecs] {c : Cache}
    (hcached : ∀ path ∈ s.configuration.files, ∃ serial, c.get? path = some ⟨serial, sheetOf path⟩)
    (hnamed : TextFile.checkName s.configuration.encoding = .ok ()) :
    (s.copying t c sheetOf).IsKept s .strip where
  own {path _ w} hpath hunderway hshared hjob := by
    obtain ⟨hcache, hjob', htree⟩ := copying_advance hcached hnamed hpath hunderway hshared hjob
    refine ⟨⟨hcache, ?_⟩, hjob'⟩
    rcases htree with htree | htree
    · rw [htree]
      exact hshared.2
    · rw [htree]
      exact hshared.2.write (List.mem_map.mpr ⟨path, hpath, rfl⟩)
  others {path _ w} hpath hunderway hshared hjob path' stage' _ hother := by
    obtain ⟨-, -, htree⟩ := copying_advance hcached hnamed hpath hunderway hshared hjob
    rcases htree with htree | htree
    · simp only [copying, htree] at hother ⊢
      exact hother
    · have hplaces := hshared.2.changes.placeOf
      rw [htree]
      cases stage' with
      | waiting => trivial
      | collected => trivial
      | loaded sheet => exact hother
      | classified piece => exact hother
      | written piece =>
          have hleft : s.Left t sheetOf w.tree path' (.ok piece) := hother
          exact hleft.write hplaces hpath
      | finished outcome =>
          have hleft : s.Left t sheetOf w.tree path' outcome := hother
          exact hleft.write hplaces hpath

end Splitter

end MediaSplit
