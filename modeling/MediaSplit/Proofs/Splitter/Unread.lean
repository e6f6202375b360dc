import MediaSplit.Encoding.HostNames
import MediaSplit.Proofs.Resolving
import MediaSplit.Proofs.Splitter.Concluding
import MediaSplit.Splitter.Requested

/-!
Nothing is written before everything has been read. Options are resolved without a write, and in
the first phase all sources are tried before the combined file is opened; so options that make no
sense, and sources that cannot be read, leave all files as they were.
-/

namespace MediaSplit.Splitter

open Act

/-- The first phase ends with the failures of all sources that could not be read, and leaves the
files alone. -/
theorem extractMedia_of_unread [Codecs] {s : Splitter} (hquiet : s.IsQuiet)
    (hworkers : s.hasWorkers = true) {w : World}
    (hcache : w.cache = Cache.empty s.configuration.encoding)
    (hunread : failuresOf (s.extraction w.tree) s.configuration.files ≠ []) :
    ∃ w', s.extractMedia.perform w =
        (.error (.phase ⟨.extract, failuresOf (s.extraction w.tree) s.configuration.files⟩), w') ∧
      w'.tree = w.tree ∧
      ∃ told, w'.events = w.events ++ told ∧ Event.phaseStarted .strip ∉ told := by
  let w₁ := w.told (.phaseStarted .extract)
  obtain ⟨hholds, hfanOut⟩ := @fanOut_extract s _ hquiet hworkers w₁ hcache
  have hextract := extractMedia_of_fanOut hquiet hfanOut
  have htree : w₁.tree = w.tree := rfl
  rw [← htree] at hunread ⊢
  rw [if_neg hunread] at hextract
  refine ⟨_, hextract, hholds.shared.1, ?_⟩
  obtain ⟨told, htold, hfiles⟩ := Round.events_run s .extract w₁
  let failed := Event.phaseFailed .extract (PhaseError.message
    ⟨.extract, failuresOf (s.extraction w.tree) s.configuration.files⟩)
  refine ⟨.phaseStarted .extract :: (told ++ [failed]), ?_, ?_⟩
  · rw [World.told_events, htold]
    simp [w₁, failed]
  · simp only [List.mem_cons, List.mem_append, List.not_mem_nil, or_false, not_or]
    refine ⟨nofun, fun hmem => ?_, nofun⟩
    cases hfiles _ hmem

/-- Options that make no sense, or a source that cannot be read, leave all files as they were: a
run stops before the stripped copies, with the failures of all such sources in configured
order. -/
theorem untouched_of_unread [Codecs] (t : FileTree) (options : Value)
    (listener : Event → Option String) (hquiet : ∀ e, listener e = none) (workers : Option Int)
    (hworkers : ∀ n, workers = some n → 0 ≤ n) (schedule : Phase → List Nat) :
    (∀ fault, Configuration.resolve t options = .error fault →
      request t options listener workers schedule = ⟨.error (.configuration fault), t, []⟩) ∧
    ∀ c, Configuration.resolve t options = .ok c →
      (∃ path ∈ c.files, ∃ fault, Cache.load t c.encoding path = .error fault) →
      let requested := request t options listener workers schedule
      requested.result = .error
          (.stopped (.phase ⟨.extract, failuresOf (Cache.load t c.encoding) c.files⟩)) ∧
        requested.tree = t ∧ Event.phaseStarted .strip ∉ requested.events := by
  constructor
  · intro fault hresolve
    simp only [request, ofOptions, hresolve, Except.map]
  · rintro c hresolve ⟨path, hpath, fault, hfault⟩ requested
    let s : Splitter := ⟨c, listener, workers, schedule⟩
    let started := (World.fresh t c.encoding).told (.runStarted c.files c.dest)
    have hworkers' : s.hasWorkers = true := by
      simp only [hasWorkers, s]
      cases workers with
      | none => rfl
      | some n => exact decide_eq_true (hworkers n rfl)
    have hfailures : failuresOf (s.extraction t) c.files =
        failuresOf (Cache.load t c.encoding) c.files := by
      refine failuresOf_congr fun path _ fault => ?_
      simp only [extraction, s]
      cases Cache.load t c.encoding path <;> simp [Except.map]
    have hunread : failuresOf (s.extraction t) c.files ≠ [] := by
      rw [hfailures]
      intro hnone
      obtain ⟨sheet, hsheet⟩ := failuresOf_eq_nil_iff.mp hnone path hpath
      rw [hfault] at hsheet
      cases hsheet
    obtain ⟨w, hextract, htree, told, hevents, hstrip⟩ :=
      extractMedia_of_unread (s := s) hquiet hworkers' (w := started) rfl hunread
    have hrun : s.run.perform (World.fresh t c.encoding) =
        (.error (.phase ⟨.extract, failuresOf (Cache.load t c.encoding) c.files⟩), w) := by
      rw [run_of_isQuiet (s := s) hquiet, ← hfailures]
      simp only [started, s] at hextract ⊢
      rw [hextract]
      rfl
    have hrequested : requested = ⟨.error (.stopped
        (.phase ⟨.extract, failuresOf (Cache.load t c.encoding) c.files⟩)), w.tree, w.events⟩ := by
      simp only [requested, request, ofOptions, hresolve, Except.map]
      simp only [s] at hrun
      rw [hrun]
      rfl
    rw [hrequested]
    refine ⟨rfl, htree, ?_⟩
    have hstarted : started.events = [.runStarted c.files c.dest] := rfl
    rw [hevents, hstarted]
    simp [hstrip]

def twoSources : Value :=
  .map [(.text "files", .list [.text "a.css", .text "b.css"]), (.text "dest", .text "out.css"),
    (.text "widths", .text "8")]

theorem untouched_of_missing_source :
    let t : FileTree := (⟨[], []⟩ : FileTree).put ["a.css"] (.file "a\x7b\x7d".toUTF8.toList)
    let ask := fun options => request t options (fun _ => none) (some 4) fun _ => [1, 0, 1]
    (∃ fault, ask (.map []) = ⟨.error (.configuration fault), t, []⟩) ∧
      (ask twoSources).result = .error (.stopped
        (.phase ⟨.extract, [⟨"b.css", .path (.trouble .noEntry "b.css")⟩]⟩)) ∧
      (ask twoSources).tree = t ∧ Event.phaseStarted .strip ∉ (ask twoSources).events := by
  intro t ask
  have huntouched := fun options => untouched_of_unread t options (fun _ => none) (fun _ => rfl)
    (some 4) (fun n hn => by cases hn; decide) fun _ => [1, 0, 1]
  constructor
  · have hempty : (Configuration.resolve t (.map [])).isOk = false := by decide +kernel
    cases hc : Configuration.resolve t (.map []) with
    | error fault => exact ⟨fault, (huntouched _).1 fault hc⟩
    | ok c =>
        rw [hc] at hempty
        cases hempty
  · have hresolve : (Configuration.resolve t twoSources).toOption.map
        (fun c => (c.files, c.encoding)) = some (["a.css", "b.css"], "utf-8") := by decide +kernel
    obtain ⟨c, hc, hvalues⟩ := exists_of_toOption_map hresolve
    obtain ⟨hfiles, hencoding⟩ := Prod.mk.inj hvalues
    have hfailures : failuresOf (Cache.load t c.encoding) c.files =
        [⟨"b.css", .path (.trouble .noEntry "b.css")⟩] := by
      rw [hfiles, hencoding]
      decide +kernel
    obtain ⟨hmem, hfault⟩ := mem_failuresOf.mp (hfailures ▸ List.mem_cons_self)
    have hall := (huntouched _).2 c hc ⟨"b.css", hmem, _, hfault⟩
    rwa [hfailures] at hall

end MediaSplit.Splitter
