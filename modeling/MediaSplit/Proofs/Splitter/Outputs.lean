import MediaSplit.Encoding.HostNames
import MediaSplit.Proofs.Splitter.Run

/-!
What the files hold after a run. A run that gives a report has read every source before the first
write, has written each output once and whole, and has left everything else alone. A run that fails
keeps the content of every file it could not open, but a file that it could open is emptied before
its text is encoded.
-/

namespace MediaSplit.Splitter

open FileTree

def outputPaths (s : Splitter) : List String :=
  s.configuration.dest :: s.configuration.files.map s.outputPath

private theorem map_orders (s : Splitter) (sheetOf : String → Stylesheet) :
    (s.orders sheetOf).map Prod.fst = s.outputPaths := by
  simp [orders, copies, outputPaths, Function.comp_def]

theorem rewritten_dest [Codecs] {s : Splitter} {t t' : FileTree} {text : String} {fault}
    (hwrite : TextFile.write t s.configuration.encoding s.configuration.dest text = (fault, t')) :
    TextFile.Rewritten [(s.configuration.dest, text)] s.configuration.encoding t t' := by
  have h := (TextFile.Rewritten.refl [(s.configuration.dest, text)] s.configuration.encoding
    t).write (List.mem_singleton.mpr rfl)
  rwa [hwrite] at h

private theorem holds_dest [Codecs] {s : Splitter} {t t' : FileTree} {text : String}
    (hwrite : TextFile.write t s.configuration.encoding s.configuration.dest text = (.ok (), t')) :
    TextFile.Holds t' s.configuration.encoding s.configuration.dest text := by
  have houtcome := TextFile.write_outcome t s.configuration.encoding s.configuration.dest text
  rw [hwrite] at houtcome
  cases houtcome with
  | written named opens changes full => exact full

theorem changes_orders [Codecs] {s : Splitter} {sheetOf : String → Stylesheet} {t t' : FileTree}
    (h : TextFile.Rewritten (s.orders sheetOf) s.configuration.encoding t t') :
    Changes (s.outputPaths.map t.placeOf) (s.outputPaths.flatMap t.parentsOf) t t' := by
  have hchanges := h.changes
  rw [← s.map_orders sheetOf, List.map_map, List.flatMap_map]
  exact hchanges

structure Written [Codecs] (s : Splitter) (t : FileTree) (sheetOf : String → Stylesheet)
    (report : Report) (t' : FileTree) : Prop where
  /-- The style sheets are those of the files before the run. -/
  sources : ∀ path ∈ s.configuration.files,
    Cache.load t s.configuration.encoding path = .ok (sheetOf path)
  combined : TextFile.Holds t' s.configuration.encoding s.configuration.dest
    ("\n".intercalate (s.configuration.files.eraseDups.map fun path =>
      Node.write (Node.matching s.configuration.widths.tokens (sheetOf path).nodes)))
  copies : ∀ path ∈ s.configuration.files,
    TextFile.Holds t' s.configuration.encoding (s.outputPath path)
      (Node.write (Node.stripped s.configuration.widths.tokens s.configuration.extract.tokens
        (sheetOf path).nodes))
  /-- Nothing else has changed, but for new directories on the way to the outputs. -/
  others : ∀ place, place ∉ s.outputPaths.map t.placeOf → t'.entry? place = t.entry? place ∨
    t.entry? place = none ∧ t'.entry? place = some .directory ∧
      place ∈ s.outputPaths.flatMap t.parentsOf
  report : report =
    { combined := ⟨s.configuration.dest, s.configuration.files.eraseDups.map fun path =>
        (path, Node.countRules
          (Node.matching s.configuration.widths.tokens (sheetOf path).nodes))⟩
      stripped := s.configuration.files.eraseDups.map fun path => ⟨path, s.outputPath path,
        Node.countRules (Node.stripped s.configuration.widths.tokens
          s.configuration.extract.tokens (sheetOf path).nodes)⟩ }

/-- A run from an empty cache that gives a report has written every output, whole and from the
sources as they were, whatever the schedules. -/
theorem written_of_report [Codecs] (s : Splitter) (t : FileTree) {report : Report} {w : World}
    (hrun : s.run.perform (World.fresh t s.configuration.encoding) = (.ok report, w))
    (hdest : ∀ path ∈ s.configuration.files,
      t.placeOf (s.outputPath path) ≠ t.placeOf s.configuration.dest)
    (hapart : ∀ path ∈ s.configuration.files, s.IsApart t path) :
    ∃ sheetOf, s.Written t sheetOf report w.tree := by
  have hran := s.run_cases (World.fresh t s.configuration.encoding)
  rw [hrun] at hran
  cases hran with
  | @further _ copied _ w' t₁ sheetOf knows succeeded copies tree outcome =>
      rcases outcome with ⟨fault, -, hresult⟩ | ⟨stop, -, hresult⟩ | ⟨stripped, rfl, hresult⟩
      · cases hresult
      · cases hresult
      · cases hresult
        cases copies with
        | done rewritten left =>
            have hfirst := rewritten_dest succeeded
            have hboth : TextFile.Rewritten (s.orders sheetOf) s.configuration.encoding t w'.tree :=
              hfirst.trans rewritten
            have hplaces := hfirst.changes.placeOf
            rw [tree]
            refine ⟨sheetOf, ?_, ?_, ?_, (changes_orders hboth).kept, rfl⟩
            · exact fun path hpath => knows.load rfl hpath
            · have hpieces : s.combinedOf sheetOf =
                  "\n".intercalate (s.configuration.files.eraseDups.map fun path => Node.write
                    (Node.matching s.configuration.widths.tokens (sheetOf path).nodes)) := by
                simp [combinedOf, combinedText, Function.comp_def, pieceOf, nodesFor]
              rw [← hpieces]
              refine (holds_dest succeeded).imp fun hread =>
                rewritten.changes.read hread fun hmem => ?_
              obtain ⟨order, horder, hat⟩ := List.mem_map.mp hmem
              obtain ⟨path, hpath, rfl⟩ := List.mem_map.mp horder
              rw [hplaces, hplaces] at hat
              exact hdest path hpath hat
            · intro path hpath
              refine (left path hpath).2 fun other hother hne => ?_
              rw [hplaces, hplaces]
              exact hapart path hpath other hother hne

def overwriting (encoding : String) : Splitter where
  configuration :=
    { files := ["a.css"], dest := "out/a.css", widths := WidthSet.ofList ["8"]
      extract := WidthSet.empty
      inPlace := true, strippedSuffix := "x", encoding := encoding }
  listener _ := none
  workers := none
  schedule _ := [0]

def oneSource (text : String) : FileTree :=
  (⟨[], []⟩ : FileTree).put ["a.css"] (.file text.toUTF8.toList)

theorem written_of_report_overwriting :
    let s := overwriting "utf-8"
    let t := oneSource "a{}@media (width:8px){b{}}"
    ∃ w sheetOf, s.run.perform (World.fresh t "utf-8") =
        (.ok ⟨⟨"out/a.css", [("a.css", 1)]⟩, [⟨"a.css", "a.css", 1⟩]⟩, w) ∧
      s.Written t sheetOf ⟨⟨"out/a.css", [("a.css", 1)]⟩, [⟨"a.css", "a.css", 1⟩]⟩ w.tree := by
  intro s t
  have hrun : (s.run.perform (World.fresh t s.configuration.encoding)).1 =
      .ok ⟨⟨"out/a.css", [("a.css", 1)]⟩, [⟨"a.css", "a.css", 1⟩]⟩ := by decide +kernel
  have hdest : ∀ path ∈ s.configuration.files,
      t.placeOf (s.outputPath path) ≠ t.placeOf s.configuration.dest := by decide +kernel
  have hapart : ∀ path ∈ s.configuration.files, s.IsApart t path := by
    intro path hpath other hother hne
    simp only [s, overwriting, List.mem_singleton] at hpath hother
    exact absurd (hother.trans hpath.symm) hne
  cases hperform : s.run.perform (World.fresh t s.configuration.encoding) with
  | mk result w =>
      rw [hperform] at hrun
      obtain rfl : result = _ := hrun
      obtain ⟨sheetOf, hwritten⟩ := written_of_report s t hperform hdest hapart
      exact ⟨w, sheetOf, hperform, hwritten⟩

/-- In the encoding of host names, which keeps back the end of a text, a run can give a report and
leave nothing of what it was to write. -/
theorem emptied_by_report :
    ¬ ∀ (s : Splitter) (t : FileTree) (sheetOf : String → Stylesheet) (report : Report) (w : World),
      s.run.perform (World.fresh t s.configuration.encoding) = (.ok report, w) →
      (∀ e, s.listener e = none) →
      (∀ path ∈ s.configuration.files,
        ¬ t.placeOf (s.outputPath path) <+: t.placeOf s.configuration.dest ∧
        ¬ t.placeOf s.configuration.dest <+: t.placeOf (s.outputPath path)) →
      (∀ path ∈ s.configuration.files, ∀ other ∈ s.configuration.files, other ≠ path →
        ¬ t.placeOf (s.outputPath other) <+: t.placeOf (s.outputPath path)) →
      (∀ path ∈ s.configuration.files,
        Cache.load t s.configuration.encoding path = .ok (sheetOf path)) →
      ∀ order ∈ s.orders sheetOf, ∃ bytes,
        TextFile.encode s.configuration.encoding order.2 = .ok bytes ∧
        w.tree.read order.1 = .ok bytes := by
  intro h
  let s := overwriting "idna"
  let t := oneSource "a\x7b\x7d@media (width:8px)\x7bb\x7b\x7d\x7d"
  have hrun : (s.run.perform (World.fresh t "idna")).1.isOk = true := by decide +kernel
  have hempty : ((s.run.perform (World.fresh t "idna")).2.tree.read "a.css").toOption =
      some [] := by
    decide +kernel
  obtain ⟨sheet, hload, hwhole⟩ := @exists_of_toOption_map _ _ _ (Cache.load t "idna" "a.css")
    (fun sheet => (TextFile.encode "idna" (s.copyOf (fun _ => sheet) "a.css")).toOption)
    (some "a\x7b\x7d".toUTF8.toList) (by decide +kernel)
  have hdest : ∀ path ∈ s.configuration.files,
      ¬ t.placeOf (s.outputPath path) <+: t.placeOf s.configuration.dest ∧
      ¬ t.placeOf s.configuration.dest <+: t.placeOf (s.outputPath path) := by
    decide +kernel
  have hapart : ∀ path ∈ s.configuration.files, ∀ other ∈ s.configuration.files, other ≠ path →
      ¬ t.placeOf (s.outputPath other) <+: t.placeOf (s.outputPath path) := by
    decide +kernel
  cases hperform : s.run.perform (World.fresh t "idna") with
  | mk result w =>
      rw [hperform] at hrun hempty
      cases result with
      | error stop => cases hrun
      | ok report =>
          obtain ⟨bytes, hencode, hread⟩ := h s t (fun _ => sheet) report w hperform
            (fun _ => rfl) hdest hapart (fun path hpath => List.mem_singleton.mp hpath ▸ hload)
            ("a.css", s.copyOf (fun _ => sheet) "a.css")
            (List.mem_cons_of_mem _ List.mem_cons_self)
          have hall := hencode.symm.trans (eq_ok_of_toOption hwhole)
          have hnothing := hread.symm.trans (eq_ok_of_toOption hempty)
          have hdiffer : "a\x7b\x7d".toUTF8.toList ≠ [] := by decide +kernel
          exact hdiffer ((Except.ok.inj hall).symm.trans (Except.ok.inj hnothing))

/-- What a failure to write leaves. A file that could not be opened keeps its content, and one
whose text has no bytes in the encoding is empty. -/
def FailsWith [Codecs] (t t' : FileTree) (encoding path text : String) (fault : Fault) : Prop :=
  (∃ trouble, fault = .path trouble ∧
    t'.content? (t.placeOf path) = t.content? (t.placeOf path)) ∨
  TextFile.written encoding text = .error fault ∧ t'.read path = .ok []

structure Accounted [Codecs] (s : Splitter) (w₀ : World) (sheetOf : String → Stylesheet)
    (result : Except Stop Report) (w : World) : Prop where
  /-- Nothing was written before all style sheets were known. -/
  sheets : w.tree = w₀.tree ∨ s.Knows w₀ w.cache sheetOf
  /-- Each file to which no two sources have their copies written holds what it held, or the text
  of an output that goes there, or nothing if there is such a text that could not be encoded. -/
  contents : ∀ place, (∀ path ∈ s.configuration.files,
      w₀.tree.placeOf (s.outputPath path) = place → s.IsApart w₀.tree path) →
    w.tree.content? place = w₀.tree.content? place ∨
    ∃ order ∈ s.orders sheetOf, w₀.tree.placeOf order.1 = place ∧
      (TextFile.Holds w.tree s.configuration.encoding order.1 order.2 ∨
        w.tree.read order.1 = .ok [] ∧
          ∃ fault, TextFile.written s.configuration.encoding order.2 = .error fault)
  /-- A source that is written in place holds what it held or the whole stripped text, or nothing if
  that text could not be encoded. -/
  inPlace : s.configuration.inPlace = true → ∀ path, s.IsApart w₀.tree path →
    w₀.tree.placeOf s.configuration.dest ≠ w₀.tree.placeOf path →
    w.tree.content? (w₀.tree.placeOf path) = w₀.tree.content? (w₀.tree.placeOf path) ∨
    TextFile.Holds w.tree s.configuration.encoding path (s.copyOf sheetOf path) ∨
    w.tree.read path = .ok [] ∧
      ∃ fault, TextFile.written s.configuration.encoding (s.copyOf sheetOf path) = .error fault
  /-- A failure of the first phase is one of reading, and nothing was written, or it is that of
  the combined file. -/
  extract : ∀ failures, result = .error (.phase ⟨.extract, failures⟩) → w.tree = w₀.tree ∨
    ∃ fault, failures = [⟨s.configuration.dest, fault⟩] ∧
      FailsWith w₀.tree w.tree s.configuration.encoding s.configuration.dest
        (s.combinedOf sheetOf) fault
  /-- A failure of the second phase is one of writing, unless a listener refused an event. -/
  strip : ∀ failures, result = .error (.phase ⟨.strip, failures⟩) → ∀ failure ∈ failures,
    failure.path ∈ s.configuration.files ∧
      (s.Refuses failure.fault ∨
        (s.IsApart w₀.tree failure.path →
          w₀.tree.placeOf s.configuration.dest ≠ w₀.tree.placeOf (s.outputPath failure.path) →
          FailsWith w₀.tree w.tree s.configuration.encoding (s.outputPath failure.path)
            (s.copyOf sheetOf failure.path) failure.fault))

/-- What becomes of an output whose place no other output shares. -/
private theorem contents_of_apart [Codecs] {s : Splitter} {t t' : FileTree}
    {sheetOf : String → Stylesheet} {path : String}
    (hrewritten : TextFile.Rewritten (s.orders sheetOf) s.configuration.encoding t t')
    (hapart : s.IsApart t path)
    (hdest : t.placeOf s.configuration.dest ≠ t.placeOf (s.outputPath path)) :
    t'.content? (t.placeOf (s.outputPath path)) = t.content? (t.placeOf (s.outputPath path)) ∨
    TextFile.Holds t' s.configuration.encoding (s.outputPath path) (s.copyOf sheetOf path) ∨
    t'.read (s.outputPath path) = .ok [] ∧ ∃ fault,
      TextFile.written s.configuration.encoding (s.copyOf sheetOf path) = .error fault := by
  rcases hrewritten.contents (t.placeOf (s.outputPath path)) with
    hsame | ⟨order, horder, hat, hleft⟩
  · exact Or.inl hsame
  · rcases List.mem_cons.mp horder with rfl | horder
    · exact absurd hat hdest
    · obtain ⟨other, hother, rfl⟩ := List.mem_map.mp horder
      by_cases heq : other = path
      · subst heq
        exact Or.inr hleft
      · exact absurd hat (hapart other hother heq)

private theorem inPlace_of_rewritten [Codecs] {s : Splitter} {w₀ w : World}
    {sheetOf : String → Stylesheet}
    (hrewritten : TextFile.Rewritten (s.orders sheetOf) s.configuration.encoding w₀.tree w.tree)
    (hinPlace : s.configuration.inPlace = true) (path : String) (hapart : s.IsApart w₀.tree path)
    (hdest : w₀.tree.placeOf s.configuration.dest ≠ w₀.tree.placeOf path) :
    w.tree.content? (w₀.tree.placeOf path) = w₀.tree.content? (w₀.tree.placeOf path) ∨
    TextFile.Holds w.tree s.configuration.encoding path (s.copyOf sheetOf path) ∨
    w.tree.read path = .ok [] ∧ ∃ fault,
      TextFile.written s.configuration.encoding (s.copyOf sheetOf path) = .error fault := by
  have hpath : s.outputPath path = path := by simp [outputPath, hinPlace]
  have h := contents_of_apart hrewritten hapart (by rw [hpath]; exact hdest)
  rwa [hpath] at h

/-- A write that failed, unless it failed at the name of the encoding. -/
private theorem failsWith_of_write [Codecs] {t t' : FileTree} {encoding path text : String}
    {fault : Fault} (hwrite : TextFile.write t encoding path text = (.error fault, t'))
    (hkind : fault.isOfWriting = true) : FailsWith t t' encoding path text fault := by
  have houtcome := TextFile.write_outcome t encoding path text
  rw [hwrite] at houtcome
  cases houtcome with
  | unopened changes closed =>
      rcases closed with hname | ⟨trouble, hfault, -⟩
      · rw [TextFile.isOfWriting_of_checkName hname] at hkind
        cases hkind
      · exact Or.inl ⟨trouble, hfault, changes.content? List.not_mem_nil⟩
  | emptied opens changes empty refused => exact Or.inr ⟨refused, empty⟩

/-- A copy that failed in the second phase, told in terms of the files before the first. -/
private theorem failsWith_of_left [Codecs] {s : Splitter} {t₀ t t' : FileTree}
    {sheetOf : String → Stylesheet} {path : String} {fault : Fault}
    (hplaces : ∀ path, t.placeOf path = t₀.placeOf path)
    (hthere : t.entry? t.workingDirectory = some .directory)
    (hrewritten : TextFile.Rewritten (s.orders sheetOf) s.configuration.encoding t₀ t')
    (hleft : s.Left t sheetOf t' path (.error fault)) :
    s.Refuses fault ∨
      (s.IsApart t₀ path → t₀.placeOf s.configuration.dest ≠ t₀.placeOf (s.outputPath path) →
        FailsWith t₀ t' s.configuration.encoding (s.outputPath path) (s.copyOf sheetOf path)
          fault) := by
  rcases hleft with hrefused | ⟨trouble, hfault, hclosed⟩ | ⟨hwritten, hempty⟩
  · exact Or.inl hrefused
  · -- only a file that can be opened ends with another content
    refine Or.inr fun hapart hdest => Or.inl ⟨trouble, hfault, ?_⟩
    rcases contents_of_apart hrewritten hapart hdest with hsame | ⟨bytes, -, hread, -⟩ | ⟨hread, -⟩
    · exact hsame
    · exact absurd (opens_of_read hread) (hclosed hthere)
    · exact absurd (opens_of_read hread) (hclosed hthere)
  · refine Or.inr fun hapart _ => Or.inr ⟨hwritten, hempty fun other hother hne => ?_⟩
    rw [hplaces, hplaces]
    exact hapart other hother hne

/-- Any run, on any files and with any cache: of each file it is known what became of it, also
where a failure is told of. -/
theorem accounted_of_run [Codecs] (s : Splitter) (w₀ : World)
    (hworking : w₀.tree.entry? w₀.tree.workingDirectory = some .directory) :
    ∃ sheetOf, s.Accounted w₀ sheetOf (s.run.perform w₀).1 (s.run.perform w₀).2 := by
  have hran := s.run_cases w₀
  generalize s.run.perform w₀ = ran at hran ⊢
  cases hran with
  | @untouched stop w tree reason =>
      have hrewritten : TextFile.Rewritten (s.orders w.cache.sheetOf) s.configuration.encoding
          w₀.tree w.tree := by
        rw [tree]
        exact .refl _ _ _
      refine ⟨w.cache.sheetOf, Or.inl tree, fun place _ => hrewritten.contents place,
        inPlace_of_rewritten hrewritten,
        fun _ _ => Or.inl tree, ?_⟩
      · intro failures hstop
        obtain ⟨hphase, -⟩ := reason .strip failures (Except.error.inj hstop)
        cases hphase
  | @unwritten stop w fault sheetOf knows failed reason =>
      have hrewritten : TextFile.Rewritten (s.orders sheetOf) s.configuration.encoding w₀.tree
          w.tree := (rewritten_dest failed).mono (by simp [orders])
      refine ⟨sheetOf, Or.inr knows, fun place _ => hrewritten.contents place,
        inPlace_of_rewritten hrewritten, ?_, ?_⟩
      · intro failures hstop
        obtain ⟨-, hfailures, hkind⟩ := reason .extract failures (Except.error.inj hstop)
        exact Or.inr ⟨fault, hfailures, failsWith_of_write failed hkind⟩
      · intro failures hstop
        obtain ⟨hphase, -⟩ := reason .strip failures (Except.error.inj hstop)
        cases hphase
  | @further result copied w w' t sheetOf knows succeeded copies tree outcome =>
      have hfirst := rewritten_dest succeeded
      have hthere : t.entry? t.workingDirectory = some .directory := by
        rw [hfirst.changes.workingDirectory]
        exact hfirst.changes.directoryStays _ hworking
      have hrewritten : TextFile.Rewritten (s.orders sheetOf) s.configuration.encoding w₀.tree
          w.tree := by
        rw [tree]
        cases copies with
        | stopped rewritten reason => exact hfirst.trans rewritten
        | done rewritten left => exact hfirst.trans rewritten
      have hstopped : ∀ phase failures, result = .error (.phase ⟨phase, failures⟩) →
          phase = .strip ∧ ∀ failure ∈ failures, failure.path ∈ s.configuration.files ∧
            s.Left t sheetOf w.tree failure.path (.error failure.fault) := by
        intro phase failures hresult
        rcases outcome with ⟨fault, -, rfl⟩ | ⟨stop, rfl, rfl⟩ | ⟨stripped, -, rfl⟩
        · cases hresult
        · rw [tree]
          cases copies with
          | stopped rewritten reason => exact reason phase failures (Except.error.inj hresult)
        · cases hresult
      refine ⟨sheetOf, Or.inr knows, fun place _ => hrewritten.contents place,
        inPlace_of_rewritten hrewritten, ?_, ?_⟩
      · intro failures hresult
        obtain ⟨hphase, -⟩ := hstopped .extract failures hresult
        cases hphase
      · intro failures hresult failure hfailure
        obtain ⟨hpath, hleft⟩ := (hstopped .strip failures hresult).2 failure hfailure
        exact ⟨hpath, failsWith_of_left hfirst.changes.placeOf hthere hrewritten hleft⟩

theorem accounted_of_run_overwriting :
    let s := overwriting "ascii"
    let w₀ := World.fresh (oneSource ".x::after\x7bcontent:\"\\e9 \"\x7d") "ascii"
    w₀.tree.entry? w₀.tree.workingDirectory = some .directory ∧
      ∃ sheetOf, s.Accounted w₀ sheetOf (s.run.perform w₀).1 (s.run.perform w₀).2 :=
  ⟨rfl, accounted_of_run _ _ rfl⟩

/-- A failed write can lose what a file held: the source is in the encoding, for it has an escape
where its stripped text has the character itself. -/
theorem not_kept_by_failed_write :
    ¬ ∀ (s : Splitter) (w₀ : World) (failures : List FileFailure),
      (s.run.perform w₀).1 = .error (.phase ⟨.strip, failures⟩) → ∀ failure ∈ failures,
        (∀ message, failure.fault ≠ .listener message) →
          (s.run.perform w₀).2.tree.content? (w₀.tree.placeOf (s.outputPath failure.path)) =
            w₀.tree.content? (w₀.tree.placeOf (s.outputPath failure.path)) := by
  intro h
  have hkept := h (overwriting "ascii")
    (World.fresh (oneSource ".x::after\x7bcontent:\"\\e9 \"\x7d") "ascii")
    [⟨"a.css", .unencodable (.unencodable ⟨"ascii", ⟨19, ['é'], .notAscii⟩⟩)⟩] (by decide +kernel) _
    List.mem_cons_self (by simp)
  revert hkept
  decide +kernel

end MediaSplit.Splitter
