import MediaSplit.Proofs.Files.CopyWays
import MediaSplit.Proofs.Splitter.Concluding

/-!
The second phase with all its sources in the cache, and with outputs that are apart. Each job ends
as if it were the first to write, and when all have ended every place is as the job that changes it
leaves it. Nothing of this depends on the order in which the jobs get on.
-/

namespace MediaSplit.Splitter

open FileTree TextFile

def orderOf (s : Splitter) (sheetOf : String → Stylesheet) (path : String) : String × String :=
  (s.outputPath path, s.copyOf sheetOf path)

def rewriting [Codecs] (s : Splitter) (t : FileTree) (sheetOf : String → Stylesheet)
    (path : String) : Except Fault Piece :=
  match (TextFile.write t s.configuration.encoding (s.outputPath path)
    (s.copyOf sheetOf path)).1 with
  | .ok () => .ok (s.pieceOf .strip (sheetOf path))
  | .error fault => .error fault

/-- The second phase from files `t`, with the style sheets of all sources in a cache `c`. -/
def mixing [Codecs] (s : Splitter) (t : FileTree) (c : Cache) (sheetOf : String → Stylesheet) :
    Round.Invariant where
  shared tree cache := cache = c ∧
    Mixed t s.configuration.encoding (s.copies sheetOf) tree
  job tree _ path
    | .waiting | .collected => True
    | .loaded sheet => sheet = sheetOf path
    | .classified piece => piece = s.pieceOf .strip (sheetOf path)
    | .written piece => s.rewriting t sheetOf path = .ok piece ∧
        Shows t s.configuration.encoding (s.orderOf sheetOf path) tree
    | .finished outcome => outcome = s.rewriting t sheetOf path ∧
        Shows t s.configuration.encoding (s.orderOf sheetOf path) tree

variable {s : Splitter} {t : FileTree} {c : Cache} {sheetOf : String → Stylesheet}

private theorem mem_copies {path : String} (hpath : path ∈ s.configuration.files) :
    s.orderOf sheetOf path ∈ s.copies sheetOf :=
  List.mem_map.mpr ⟨path, hpath, rfl⟩

/-- One step of the second phase: it writes the copy of its source or nothing, and what it writes
is there for good. -/
private theorem mixing_advance [Codecs] (hquiet : s.IsQuiet)
    (hapart : AreApart t (s.copies sheetOf)) (hcached : ∀ path ∈ s.configuration.files,
      ∃ serial, c.get? path = some ⟨serial, sheetOf path⟩)
    {path : String} {stage : Stage} {w : World} (hpath : path ∈ s.configuration.files)
    (hunderway : stage.isUnderway = true) (hshared : (s.mixing t c sheetOf).shared w.tree w.cache)
    (hjob : (s.mixing t c sheetOf).job w.tree w.cache path stage) :
    let next := s.advance .strip path w stage
    (s.mixing t c sheetOf).shared next.2.tree next.2.cache ∧
      (s.mixing t c sheetOf).job next.2.tree next.2.cache path next.1 ∧
      ∀ other ∈ s.copies sheetOf, Shows t s.configuration.encoding other w.tree →
        Shows t s.configuration.encoding other next.2.tree := by
  obtain ⟨rfl, hmixed⟩ := hshared
  cases stage with
  | finished outcome => cases hunderway
  | collected => cases hunderway
  | waiting =>
      obtain ⟨serial, hget⟩ := hcached path hpath
      simp only [advance, World.load_of_cached hget]
      exact ⟨⟨rfl, hmixed⟩, rfl, fun _ _ h => h⟩
  | loaded sheet =>
      obtain rfl : sheet = sheetOf path := hjob
      simp only [advance, tell_of_isQuiet hquiet]
      exact ⟨⟨rfl, hmixed⟩, rfl, fun _ _ h => h⟩
  | classified piece =>
      obtain rfl : piece = s.pieceOf .strip (sheetOf path) := hjob
      obtain ⟨hsame, hmixed', hshown, hkept⟩ :=
        hapart.write (mem_copies hpath) hmixed
      simp only [orderOf, after, copyOf] at hsame hmixed' hshown hkept
      simp only [advance, World.write]
      cases hwrite : TextFile.write w.tree s.configuration.encoding (s.outputPath path)
          (s.pieceOf .strip (sheetOf path)).text with
      | mk written tree =>
          rw [hwrite] at hsame hmixed' hshown hkept
          cases written with
          | ok _ =>
              refine ⟨⟨rfl, hmixed'⟩, ⟨?_, hshown⟩, hkept⟩
              simp only [rewriting, copyOf, ← hsame]
          | error fault =>
              refine ⟨⟨rfl, hmixed'⟩, ⟨?_, hshown⟩, hkept⟩
              simp only [rewriting, copyOf, ← hsame]
  | written piece =>
      obtain ⟨hpiece, hshown⟩ := hjob
      simp only [advance, tell_of_isQuiet hquiet]
      exact ⟨⟨rfl, hmixed⟩, ⟨hpiece.symm, hshown⟩, fun _ _ h => h⟩

theorem mixing_isKept [Codecs] (hquiet : s.IsQuiet) (hapart : AreApart t (s.copies sheetOf))
    (hcached : ∀ path ∈ s.configuration.files,
      ∃ serial, c.get? path = some ⟨serial, sheetOf path⟩) :
    (s.mixing t c sheetOf).IsKept s .strip where
  own hpath hunderway hshared hjob := by
    obtain ⟨hshared', hjob', -⟩ :=
      mixing_advance hquiet hapart hcached hpath hunderway hshared hjob
    exact ⟨hshared', hjob'⟩
  others hpath hunderway hshared hjob path' stage' hpath' hother := by
    obtain ⟨-, -, hkept⟩ := mixing_advance hquiet hapart hcached hpath hunderway hshared hjob
    have hshows := hkept _ (mem_copies hpath')
    cases stage' with
    | waiting => trivial
    | collected => trivial
    | loaded sheet => exact hother
    | classified piece => exact hother
    | written piece => exact ⟨hother.1, hshows hother.2⟩
    | finished outcome => exact ⟨hother.1, hshows hother.2⟩

/-- What the job of a source has to tell in the second phase, from where it stands. -/
def leftToRewrite [Codecs] (s : Splitter) (t : FileTree) (sheetOf : String → Stylesheet)
    (path : String) : Stage → List Event
  | .waiting | .loaded _ =>
      .fileClassified .strip path (s.pieceOf .strip (sheetOf path)).ruleCount ::
        writingEvents (s.rewriting t sheetOf path)
  | .classified _ => writingEvents (s.rewriting t sheetOf path)
  | .written _ => [.fileWritten .strip (s.outputPath path)]
  | .finished outcome => Round.collectEvents .strip path outcome
  | .collected => []
where
  writingEvents : Except Fault Piece → List Event
    | .ok _ => [.fileWritten .strip (s.outputPath path)]
    | .error fault => [.fileFailed .strip path fault.message]

theorem mixing_foretells [Codecs] (hquiet : s.IsQuiet) (hapart : AreApart t (s.copies sheetOf))
    (hcached : ∀ path ∈ s.configuration.files,
      ∃ serial, c.get? path = some ⟨serial, sheetOf path⟩) :
    (s.mixing t c sheetOf).Foretells s .strip (s.leftToRewrite t sheetOf) where
  step {path stage w} hpath hunderway hshared hjob := by
    obtain ⟨rfl, hmixed⟩ := hshared
    cases stage with
    | finished outcome => cases hunderway
    | collected => cases hunderway
    | waiting =>
        obtain ⟨serial, hget⟩ := hcached path hpath
        simp only [advance, World.load_of_cached hget]
        rfl
    | loaded sheet =>
        obtain rfl : sheet = sheetOf path := hjob
        simp only [advance, tell_of_isQuiet hquiet]
        rfl
    | classified piece =>
        obtain rfl : piece = s.pieceOf .strip (sheetOf path) := hjob
        obtain ⟨hsame, -⟩ := hapart.write (mem_copies hpath) hmixed
        simp only [orderOf, copyOf] at hsame
        simp only [advance, World.write, leftToRewrite, rewriting, copyOf, ← hsame]
        cases hwrite : TextFile.write w.tree s.configuration.encoding (s.outputPath path)
            (s.pieceOf .strip (sheetOf path)).text with
        | mk written tree => cases written <;> rfl
    | written piece =>
        simp only [advance, tell_of_isQuiet hquiet]
        rfl
  finished _ _ := rfl
  collected _ := rfl

/-- The jobs of the second phase, when all style sheets are known and the outputs are apart: each
ends as if it were the first to write, and all that it changes is there in the end. -/
theorem fanOut_mixing [Codecs] (hquiet : s.IsQuiet) (hworkers : s.hasWorkers = true) {w : World}
    (hapart : AreApart w.tree (s.copies sheetOf))
    (hcached : ∀ path ∈ s.configuration.files,
      ∃ serial, w.cache.get? path = some ⟨serial, sheetOf path⟩) :
    (s.fanOut .strip).perform w =
        conclude .strip (failuresOf (s.rewriting w.tree sheetOf) s.configuration.files)
          (resultsOf (s.rewriting w.tree sheetOf) s.configuration.files)
          (Round.run s .strip w).world ∧
      Mixed w.tree s.configuration.encoding (s.copies sheetOf) (Round.run s .strip w).world.tree ∧
      (∀ order ∈ s.copies sheetOf,
        Shows w.tree s.configuration.encoding order (Round.run s .strip w).world.tree) ∧
      (Round.run s .strip w).world.events.Perm (w.events ++ s.configuration.files.flatMap
        fun path => s.leftToRewrite w.tree sheetOf path .waiting) := by
  have kept := mixing_isKept hquiet hapart hcached
  have hstart : (s.mixing w.tree w.cache sheetOf).shared w.tree w.cache :=
    ⟨rfl, rfl, fun _ => Or.inl rfl⟩
  have hholds := Round.Invariant.holds_run kept hstart fun _ _ => trivial
  obtain ⟨outcome, hended, hfanOut⟩ := fanOut_of_holds hquiet hworkers hholds
  have hsame : ∀ path ∈ s.configuration.files, outcome path = s.rewriting w.tree sheetOf path :=
    fun path hpath => (hended path hpath).1
  refine ⟨?_, hholds.shared.2, ?_, ?_⟩
  · rw [hfanOut, resultsOf_congr hsame,
      failuresOf_congr fun path hpath fault => by rw [hsame path hpath]]
  · intro order horder
    obtain ⟨path, hpath, rfl⟩ := List.mem_map.mp horder
    exact (hended path hpath).2
  · exact Round.events_run_perm kept (mixing_foretells hquiet hapart hcached) hquiet hstart
      fun _ _ => trivial

end MediaSplit.Splitter
