import MediaSplit.Encoding.HostNames
import MediaSplit.Proofs.Splitter.Stripping

/-!
Failures of the second phase stay with their files. Each source either fails, with a fault of its
own, or has its copy, whole; and which of the two it is does not depend on the other sources, as
long as their copies do not get in its way.
-/

namespace MediaSplit.Splitter

open FileTree Act

def alone [Codecs] (s : Splitter) (t : FileTree) (c : Cache) (path : String) :
    Except Fault Piece := do
  let sheet ← c.known t path
  let piece := s.pieceOf .strip sheet
  (TextFile.write t s.configuration.encoding (s.outputPath path) piece.text).1
  return piece

/-- That the copies do not get in each other's way, nor in that of a source that is still to be
read. Ways are those that paths are spelled to take. -/
structure IsSpread (s : Splitter) (t : FileTree) (c : Cache) : Prop where
  apart : ∀ path ∈ s.configuration.files, s.IsApart t path
  clear : ∀ path ∈ s.configuration.files, ∀ other ∈ s.configuration.files, other ≠ path →
    t.placeOf (s.outputPath other) ∈ t.parentsOf (s.outputPath path) →
    t.entry? (t.placeOf (s.outputPath other)) ≠ none
  steady : ∀ path ∈ s.configuration.files, c.get? path = none → s.IsSteady t path

structure Isolated [Codecs] (s : Splitter) (t : FileTree) (c : Cache)
    (outcome : String → Except Fault Piece) (result : Except Stop (List StrippedFile))
    (t' : FileTree) : Prop where
  /-- A source succeeds just when it would on its own. -/
  alone : ∀ path ∈ s.configuration.files, ∀ piece,
    outcome path = .ok piece ↔ s.alone t c path = .ok piece
  own : ∀ path ∈ s.configuration.files, ∀ fault, outcome path = .error fault →
    s.OwnFault t c path fault
  /-- A source succeeds just when its copy holds the whole text that is to be written. -/
  copy : ∀ path ∈ s.configuration.files, (∃ piece, outcome path = .ok piece) ↔
    ∃ sheet, c.known t path = .ok sheet ∧ TextFile.Holds t' s.configuration.encoding
      (s.outputPath path) (Node.write (Node.stripped s.configuration.widths.tokens
        s.configuration.extract.tokens sheet.nodes))
  /-- The phase fails just when a source does, with all failures in configured order. -/
  failed : ∀ stop, result = .error stop ↔ failuresOf outcome s.configuration.files ≠ [] ∧
    stop = .phase ⟨.strip, failuresOf outcome s.configuration.files⟩
  cause : ∀ e, result = .error (.phase e) →
    e.first? = (failuresOf outcome s.configuration.files).head?
  stripped : ∀ stripped, result = .ok stripped →
    stripped.map StrippedFile.source = s.configuration.files.eraseDups ∧
    ∀ file ∈ stripped, file.output = s.outputPath file.source ∧
      ∃ sheet, c.known t file.source = .ok sheet ∧ file.ruleCount =
        Node.countRules (Node.stripped s.configuration.widths.tokens
          s.configuration.extract.tokens sheet.nodes)

variable {s : Splitter} {t t' : FileTree} {c : Cache}

theorem alone_eq_ok_iff [Codecs] (s : Splitter) (t : FileTree) (c : Cache) (path : String)
    (piece : Piece) :
    s.alone t c path = .ok piece ↔ ∃ sheet, c.known t path = .ok sheet ∧
      piece = s.pieceOf .strip sheet ∧ (TextFile.write t s.configuration.encoding
        (s.outputPath path) piece.text).1 = .ok () := by
  simp only [alone, bind_eq_ok]
  constructor
  · rintro ⟨sheet, hsheet, ⟨⟩, hwrite, hpiece⟩
    obtain rfl := Except.ok.inj hpiece
    exact ⟨sheet, hsheet, rfl, hwrite⟩
  · rintro ⟨sheet, hsheet, rfl, hwrite⟩
    exact ⟨sheet, hsheet, (), hwrite, rfl⟩

/-- A source whose place for its copy is its own agrees with all that share it. -/
theorem agrees_of_isApart [Codecs] {path : String} (hapart : s.IsApart t path) :
    s.Agrees t c path := by
  intro other hother hplace sheet sheet' hsheet hsheet'
  by_cases heq : other = path
  · rw [heq, hsheet] at hsheet'
    rw [Except.ok.inj hsheet']
  · exact absurd hplace (hapart other hother heq)

/-- A fault that a source meets among others it would also meet, or another one, on its own. -/
theorem alone_of_ownFault [Codecs] (hworking : t.entry? t.workingDirectory = some .directory)
    (hspread : s.IsSpread t c) {path : String} (hpath : path ∈ s.configuration.files)
    {fault : Fault} (hfault : s.OwnFault t c path fault) (piece : Piece) :
    s.alone t c path ≠ .ok piece := by
  intro halone
  obtain ⟨sheet, hsheet, rfl, hok⟩ := (s.alone_eq_ok_iff t c path piece).mp halone
  cases hfault with
  | @unread tree uncached touched failed =>
      -- what could be read at the start can still be read
      rw [Cache.known_of_none uncached] at hsheet
      have hsteady := hspread.steady path hpath uncached
      have hread : ∀ bytes, t.read path = .ok bytes → tree.read path = .ok bytes :=
        fun bytes hbytes => touched.changes.read hbytes hsteady.1
      rw [Cache.load_of_read hread hsheet] at failed
      cases failed
  | @unwritten tree sheet' read touched failed =>
      rw [read] at hsheet
      obtain rfl := Except.ok.inj hsheet
      have hworking' : tree.entry? tree.workingDirectory = some .directory := by
        rw [touched.changes.workingDirectory]
        exact touched.changes.directoryStays _ hworking
      obtain ⟨hopens, hbytes⟩ :=
        (TextFile.write_eq_ok_iff (TextFile.entry?_startOf hworking _) _ _).mp hok
      have hopens' : tree.Opens (s.outputPath path) := by
        refine touched.opens hopens ?_ ?_
        · intro output houtput hne hway
          obtain ⟨other, hother, rfl⟩ := List.mem_map.mp houtput
          exact hspread.clear path hpath other hother (fun heq => hne (heq ▸ rfl)) hway
        · intro output houtput hne hway
          obtain ⟨other, hother, rfl⟩ := List.mem_map.mp houtput
          exact hspread.clear other hother path hpath (fun heq => hne (heq ▸ rfl)) hway
      have hok' := (TextFile.write_eq_ok_iff (TextFile.entry?_startOf hworking' _) _ _).mpr
        ⟨hopens', hbytes⟩
      rw [strippedText, hok'] at failed
      cases failed

/-- A copy whose source failed does not hold the text that was to be written. -/
private theorem not_holds_of_ownFault [Codecs]
    (hworking : t.entry? t.workingDirectory = some .directory) (hspread : s.IsSpread t c)
    (htouched : Touched (s.configuration.files.map s.outputPath) t t')
    {path : String} (hpath : path ∈ s.configuration.files) {fault : Fault}
    (hfault : s.OwnFault t c path fault) {sheet : Stylesheet}
    (hsheet : c.known t path = .ok sheet) :
    ¬ TextFile.Holds t' s.configuration.encoding (s.outputPath path) (s.strippedText sheet) := by
  rintro ⟨bytes, hwritten, hread, -⟩
  refine alone_of_ownFault hworking hspread hpath hfault (s.pieceOf .strip sheet) ?_
  refine (s.alone_eq_ok_iff t c path _).mpr ⟨sheet, hsheet, rfl, ?_⟩
  refine (TextFile.write_eq_ok_iff (TextFile.entry?_startOf hworking _) _ _).mpr
    ⟨?_, bytes, hwritten⟩
  exact htouched.changes.opens (opens_of_read hread)

namespace Ends

variable {path : String} {outcome : Except Fault Piece}

private theorem ownFault [Codecs] {fault : Fault} (h : s.Ends t c t' path (.error fault))
    (hquiet : s.IsQuiet) : s.OwnFault t c path fault :=
  h.resolve_left (not_refuses_of_isQuiet hquiet fault)

/-- A source succeeds among the others just when it would on its own. -/
private theorem eq_ok_iff [Codecs] (h : s.Ends t c t' path outcome) (hquiet : s.IsQuiet)
    (hworking : t.entry? t.workingDirectory = some .directory) (hspread : s.IsSpread t c)
    (hpath : path ∈ s.configuration.files) (piece : Piece) :
    outcome = .ok piece ↔ s.alone t c path = .ok piece := by
  cases outcome with
  | error fault =>
      refine iff_of_false nofun ?_
      exact alone_of_ownFault hworking hspread hpath (h.ownFault hquiet) piece
  | ok found =>
      obtain ⟨sheet, hsheet, rfl, hwritten, -⟩ := h
      have halone := (s.alone_eq_ok_iff t c path _).mpr ⟨sheet, hsheet, rfl, hwritten⟩
      rw [halone]

/-- A source succeeds just when its copy is there in the end. -/
private theorem exists_ok_iff [Codecs] (h : s.Ends t c t' path outcome) (hquiet : s.IsQuiet)
    (hworking : t.entry? t.workingDirectory = some .directory) (hspread : s.IsSpread t c)
    (htouched : Touched (s.configuration.files.map s.outputPath) t t')
    (hpath : path ∈ s.configuration.files) :
    (∃ piece, outcome = .ok piece) ↔ ∃ sheet, c.known t path = .ok sheet ∧
      TextFile.Holds t' s.configuration.encoding (s.outputPath path) (s.strippedText sheet) := by
  cases outcome with
  | error fault =>
      refine iff_of_false (fun ⟨_, hok⟩ => nomatch hok) ?_
      rintro ⟨sheet, hsheet, hholds⟩
      exact not_holds_of_ownFault hworking hspread htouched hpath (h.ownFault hquiet) hsheet hholds
  | ok piece =>
      obtain ⟨sheet, hsheet, rfl, -, hholds⟩ := h
      refine iff_of_true ⟨_, rfl⟩ ⟨sheet, hsheet, ?_⟩
      exact hholds (agrees_of_isApart (hspread.apart path hpath))

end Ends

/-- In the second phase every source either fails, with a fault of its own, or has its copy written,
and the other sources have no part in which of the two it is. -/
theorem isolated_of_writeStripped [Codecs] (s : Splitter) (w : World) (hquiet : s.IsQuiet)
    (hworkers : s.hasWorkers = true)
    (hworking : w.tree.entry? w.tree.workingDirectory = some .directory)
    (hspread : s.IsSpread w.tree w.cache) :
    ∃ outcome, s.Isolated w.tree w.cache outcome (s.writeStripped.perform w).1
      (s.writeStripped.perform w).2.tree := by
  obtain ⟨outcome, hends, htouched, hfanOut⟩ := @fanOut_strip s _ hquiet hworkers
    (w.told (.phaseStarted .strip)) hworking hspread.steady
  generalize (Round.run s .strip (w.told (.phaseStarted .strip))).world = w₁ at *
  simp only [World.told_tree, World.told_cache] at hends htouched
  have hstrip := writeStripped_of_fanOut hquiet hfanOut
  have htree : (s.writeStripped.perform w).2.tree = w₁.tree := by
    rw [hstrip]
    split <;> rfl
  have hfailed : ∀ stop, (s.writeStripped.perform w).1 = .error stop ↔
      failuresOf outcome s.configuration.files ≠ [] ∧
        stop = .phase ⟨.strip, failuresOf outcome s.configuration.files⟩ := by
    intro stop
    rw [hstrip]
    split
    · rename_i hnone
      simp [hnone]
    · rename_i hsome
      simp [hsome, eq_comm]
  refine ⟨outcome, ?_, ?_, ?_, hfailed, ?_, ?_⟩
  · exact fun path hpath => (hends path hpath).eq_ok_iff hquiet hworking hspread hpath
  · intro path hpath fault hfault
    have hended := hends path hpath
    rw [hfault] at hended
    exact hended.ownFault hquiet
  · intro path hpath
    rw [htree]
    exact (hends path hpath).exists_ok_iff hquiet hworking hspread htouched hpath
  · intro e he
    obtain ⟨-, hstop⟩ := (hfailed (.phase e)).mp he
    rw [Stop.phase.inj hstop]
    rfl
  · intro stripped hstripped
    rw [hstrip] at hstripped
    split at hstripped
    · rename_i hnone
      obtain rfl := Except.ok.inj hstripped
      constructor
      · rw [List.map_map, ← paths_resultsOf hnone]
        rfl
      · intro file hfile
        obtain ⟨⟨path, piece⟩, hmem, rfl⟩ := List.mem_map.mp hfile
        obtain ⟨hpath, hpiece⟩ := outcome_of_mem_resultsOf hmem
        have hended := hends path hpath
        rw [hpiece] at hended
        obtain ⟨sheet, hsheet, rfl, -, -⟩ := hended
        exact ⟨rfl, sheet, hsheet, rfl⟩
    · cases hstripped

/-- A splitter of some sources, with a listener that accepts everything. -/
def ofFiles (files : List String) (inPlace : Bool) (suffix : String) (order : List Nat) :
    Splitter where
  configuration :=
    { files := files, dest := "out.css", widths := WidthSet.ofList ["8"]
      extract := WidthSet.empty
      inPlace := inPlace, strippedSuffix := suffix, encoding := "utf-8" }
  listener _ := none
  workers := none
  schedule _ := order

theorem isolated_of_writeStripped_missing :
    let s := ofFiles ["a.css", "b.css"] false "x" [1, 0]
    let t : FileTree := (⟨[], []⟩ : FileTree).put ["a.css"] (.file "a\x7b\x7d".toUTF8.toList)
    let w := World.fresh t "utf-8"
    s.IsSpread w.tree w.cache ∧
      ∃ outcome, s.Isolated w.tree w.cache outcome (s.writeStripped.perform w).1
        (s.writeStripped.perform w).2.tree := by
  intro s t w
  have hspread : s.IsSpread w.tree w.cache := by
    constructor
    · unfold IsApart
      decide +kernel
    · decide +kernel
    · unfold IsSteady IsShut
      decide +kernel
  exact ⟨hspread, isolated_of_writeStripped s w (fun _ => rfl) rfl rfl hspread⟩

/-- A source that could not be read when the phase began can be read later, when the copy of another
one has made a directory on its way; and a directory that one copy needs can take the place of
another, so that the order decides which of the two fails. -/
theorem not_isolated_on_shared_ways :
    (¬ ∀ (s : Splitter) (w : World), s.IsQuiet → s.hasWorkers = true →
      (∀ path ∈ s.configuration.files, ∀ other ∈ s.configuration.files, other ≠ path →
        ¬ w.tree.placeOf (s.outputPath other) <+: w.tree.placeOf (s.outputPath path)) →
      (∀ path ∈ s.configuration.files, w.cache.get? path = none →
        ∀ other ∈ s.configuration.files, other ≠ path →
          w.tree.placeOf (s.outputPath other) ≠ w.tree.placeOf path) →
      ∀ path ∈ s.configuration.files,
        (∃ failures, (s.writeStripped.perform w).1 = .error (.phase ⟨.strip, failures⟩) ∧
          path ∈ failures.map FileFailure.path) ∨
        ∃ sheet, w.cache.known w.tree path = .ok sheet) ∧
    ¬ ∀ (s s' : Splitter) (w : World), s.configuration = s'.configuration →
      s.IsQuiet → s'.IsQuiet → s.hasWorkers = true → s'.hasWorkers = true →
      (∀ path ∈ s.configuration.files, ∀ other ∈ s.configuration.files, other ≠ path →
        ¬ w.tree.placeOf (s.outputPath other) <+: w.tree.placeOf (s.outputPath path)) →
      (∀ path ∈ s.configuration.files, (w.cache.get? path).isSome = true) →
      ∀ path ∈ s.configuration.files, ∀ failures failures',
        (s.writeStripped.perform w).1 = .error (.phase ⟨.strip, failures⟩) →
        (s'.writeStripped.perform w).1 = .error (.phase ⟨.strip, failures'⟩) →
        (path ∈ failures.map FileFailure.path ↔ path ∈ failures'.map FileFailure.path) := by
  constructor
  · intro h
    let t : FileTree := ((⟨[], []⟩ : FileTree).put ["a.css"] (.file [])).put ["b.css"] (.file [])
    let s := ofFiles ["b.css", "b.x/../a.css"] false "x/y" []
    let w : World := ⟨t, (Cache.get t "b.css" (Cache.empty "utf-8")).2, []⟩
    have hcases := h s w (fun _ => rfl) rfl (by decide +kernel) (by decide +kernel)
      "b.x/../a.css" (by decide)
    rcases hcases with ⟨failures, hfailures, -⟩ | ⟨sheet, hsheet⟩
    · have hok : (s.writeStripped.perform w).1.isOk = true := by decide +kernel
      rw [hfailures] at hok
      cases hok
    · have hunread : (w.cache.known w.tree "b.x/../a.css").isOk = false := by decide +kernel
      rw [hsheet] at hunread
      cases hunread
  · intro h
    let sheet : Parsed := ⟨0, ⟨[], "q"⟩⟩
    let w : World := ⟨⟨[], []⟩, ⟨"utf-8", [("q", sheet), ("q/../b.css", sheet)], 1⟩, []⟩
    let s := ofFiles ["q", "q/../b.css"] true "x"
    have hsame := h (s [0, 0, 0, 0, 0]) (s [1, 1, 1, 1, 1]) w rfl (fun _ => rfl) (fun _ => rfl) rfl rfl
      (by decide +kernel) (by decide +kernel) "q" (by decide)
      [⟨"q/../b.css", .path (.trouble .notDirectory "q/..")⟩]
      [⟨"q", .path (.trouble .isDirectory "q")⟩] (by decide +kernel) (by decide +kernel)
    revert hsame
    decide

end MediaSplit.Splitter
