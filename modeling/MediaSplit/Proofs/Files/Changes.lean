import MediaSplit.Files.Text
import MediaSplit.Proofs.Files.Placement

/-!
What writing does to a tree of files. A write touches one file and the directories on the way to
it; all else stays as it is, directories stay directories and files stay files. How far the write
came decides what its file holds: before it is opened nothing is lost, and once it is open it is
empty until the whole text has been encoded.
-/

namespace MediaSplit

namespace FileTree

open MediaSplit.Path

theorem entry?_put (t : FileTree) {place : Location} (h : place ≠ []) (e : Entry)
    (other : Location) :
    FileTree.entry? (t.put place e) other = if other = place then some e else t.entry? other := by
  cases other with
  | nil => simp [FileTree.entry?, h.symm]
  | cons name rest =>
      cases place with
      | nil => exact absurd rfl h
      | cons name' rest' =>
          simp only [FileTree.entry?, put]
          split
          · rename_i heq
            rw [heq, Table.get?_set_self]
          · rename_i hne
            rw [Table.get?_set_of_ne hne]

/-- What may become of a tree while files are written: some files get new contents, and
directories come into being where nothing was. -/
structure Changes (files directories : List Location) (t t' : FileTree) : Prop where
  workingDirectory : t'.workingDirectory = t.workingDirectory
  kept : ∀ place, place ∉ files → t'.entry? place = t.entry? place ∨
    t.entry? place = none ∧ t'.entry? place = some .directory ∧ place ∈ directories
  directoryStays : ∀ place, t.entry? place = some .directory → t'.entry? place = some .directory
  fileStays : ∀ place content, t.entry? place = some (.file content) →
    ∃ content', t'.entry? place = some (.file content')

namespace Changes

variable {files directories : List Location} {t t' t'' : FileTree}

theorem refl (files directories : List Location) (t : FileTree) :
    Changes files directories t t :=
  ⟨rfl, fun _ _ => Or.inl rfl, fun _ h => h, fun _ content h => ⟨content, h⟩⟩

theorem trans (first : Changes files directories t t') (second : Changes files directories t' t'') :
    Changes files directories t t'' where
  workingDirectory := second.workingDirectory.trans first.workingDirectory
  kept place hplace := by
    rcases first.kept place hplace with hsame | ⟨hnone, hdir, hmem⟩
    · rcases second.kept place hplace with hsame' | ⟨hnone, hdir, hmem⟩
      · exact Or.inl (hsame'.trans hsame)
      · exact Or.inr ⟨hsame ▸ hnone, hdir, hmem⟩
    · exact Or.inr ⟨hnone, second.directoryStays place hdir, hmem⟩
  directoryStays place h := second.directoryStays place (first.directoryStays place h)
  fileStays place content h := by
    obtain ⟨content', h'⟩ := first.fileStays place content h
    exact second.fileStays place content' h'

theorem mono {files' directories' : List Location} (h : Changes files directories t t')
    (hfiles : files ⊆ files') (hdirectories : directories ⊆ directories') :
    Changes files' directories' t t' where
  workingDirectory := h.workingDirectory
  kept place hplace := by
    rcases h.kept place fun hmem => hplace (hfiles hmem) with hsame | ⟨hnone, hdir, hmem⟩
    · exact Or.inl hsame
    · exact Or.inr ⟨hnone, hdir, hdirectories hmem⟩
  directoryStays := h.directoryStays
  fileStays := h.fileStays

theorem startOf (h : Changes files directories t t') (path : List Char) :
    t'.startOf path = t.startOf path := by
  simp only [FileTree.startOf, h.workingDirectory]

theorem placeOf (h : Changes files directories t t') (path : String) :
    t'.placeOf path = t.placeOf path := by
  simp only [FileTree.placeOf, h.startOf]

theorem parentsOf (h : Changes files directories t t') (path : String) :
    t'.parentsOf path = t.parentsOf path := by
  simp only [FileTree.parentsOf, h.startOf]

theorem isOpen (h : Changes files directories t t') {here : Location} {names : List String}
    (hopen : t.IsOpen here names) : t'.IsOpen here names := by
  induction names generalizing here with
  | nil => trivial
  | cons name rest ih =>
      obtain ⟨hdir, hshort, hrest⟩ := hopen
      exact ⟨h.directoryStays here hdir, hshort, ih hrest⟩

theorem locate (h : Changes files directories t t') {path : String} {place : Location}
    (hlocate : t.locate path = .ok place) : t'.locate path = .ok place := by
  rw [locate_eq_ok_iff] at hlocate ⊢
  obtain ⟨hplace, hne, hshort, hopen⟩ := hlocate
  refine ⟨by rw [h.placeOf, hplace], hne, hshort, ?_⟩
  rw [h.startOf]
  exact h.isOpen hopen

end Changes

theorem changes_put_directory {t : FileTree} {place : Location} (h : t.entry? place = none) :
    Changes [] [place] t (t.put place .directory) := by
  have hne : place ≠ [] := by
    rintro rfl
    cases h
  refine ⟨rfl, ?_, ?_, ?_⟩
  · intro other _
    rw [entry?_put t hne]
    by_cases heq : other = place
    · exact Or.inr ⟨heq ▸ h, by simp [heq], by simp [heq]⟩
    · exact Or.inl (by simp [heq])
  · intro other hdir
    rw [entry?_put t hne]
    split
    · rfl
    · exact hdir
  · intro other content hfile
    have hother : other ≠ place := by
      rintro rfl
      rw [h] at hfile
      cases hfile
    exact ⟨content, by rw [entry?_put t hne, if_neg hother, hfile]⟩

theorem ne_nil_of_entry?_ne_directory {t : FileTree} {place : Location}
    (h : t.entry? place ≠ some .directory) : place ≠ [] := by
  rintro rfl
  exact h rfl

theorem changes_put_file {t : FileTree} {place : Location} (h : t.entry? place ≠ some .directory)
    (content : List UInt8) : Changes [place] [] t (t.put place (.file content)) := by
  have hne := ne_nil_of_entry?_ne_directory h
  refine ⟨rfl, ?_, ?_, ?_⟩
  · intro other hother
    rw [entry?_put t hne, if_neg (by simpa using hother)]
    exact Or.inl rfl
  · intro other hdir
    have hother : other ≠ place := fun heq => h (heq ▸ hdir)
    rw [entry?_put t hne, if_neg hother, hdir]
  · intro other content' hfile
    rw [entry?_put t hne]
    split
    · exact ⟨content, rfl⟩
    · exact ⟨content', hfile⟩

theorem passed_append (here : Location) (first second : List String) :
    passed here (first ++ second) =
      passed here first ++ passed (first.foldl follow here) second := by
  induction first generalizing here with
  | nil => rfl
  | cons name rest ih => simp [passed, ih]

theorem foldl_follow_mem_passed (here : Location) {names : List String} (h : names ≠ []) :
    names.foldl follow here ∈ passed here names := by
  induction names generalizing here with
  | nil => exact absurd rfl h
  | cons name rest ih =>
      cases rest with
      | nil => simp [passed]
      | cons next rest =>
          rw [List.foldl_cons, passed]
          exact List.mem_cons_of_mem _ (ih _ (by simp))

/-- Directory and name of a path that may end in slashes lead the same way as the path. -/
theorem names_splitPath (path : List Char) :
    names path = names (splitPath path).1 ++ names (splitPath path).2 := by
  unfold splitPath
  split
  · rename_i hempty
    rw [names_eq_append path, List.isEmpty_iff.mp hempty, names_eq_append (directoryOf path)]
    simp [names, parts]
  · exact names_eq_append path

theorem startOf_splitPath (t : FileTree) (path : List Char) :
    t.startOf (splitPath path).1 = t.startOf path := by
  unfold splitPath startOf
  split <;> simp only [head?_directoryOf]

theorem onPath_of_clean {α : Type} {path : String}
    (hclean : path.toList.contains '\x00' = false) (result : Except PathTrouble α) :
    onPath path result = result.mapError (.trouble · path) := by
  unfold onPath
  rw [hclean]
  cases result <;> rfl

/-- Making a directory, as what is at the end of its path decides. -/
theorem ensureDirectory_eq {t : FileTree} {path : String}
    (hclean : path.toList.contains '\x00' = false) :
    t.ensureDirectory path =
      match t.locate path with
      | .error trouble => (.error (.trouble trouble path), t)
      | .ok place =>
          match t.entry? place with
          | none => (.ok (), t.put place .directory)
          | some .directory => (.ok (), t)
          | some (.file _) => (.error (.trouble .alreadyThere path), t) := by
  have honPath : ∀ {α : Type} (result : Except PathTrouble α), _ := onPath_of_clean hclean
  unfold ensureDirectory makeDirectory isDirectory find
  simp only [honPath]
  cases t.locate path with
  | error trouble => rfl
  | ok place =>
      cases hentry : t.entry? place with
      | none =>
          simp only [bind, Except.bind, hentry]
          rfl
      | some e =>
          simp only [bind, Except.bind, hentry]
          cases e with
          | directory => rfl
          | file content => cases asksForDirectory path <;> rfl

theorem ensureDirectory_of_nul {t : FileTree} {path : String}
    (hnul : path.toList.contains '\x00' = true) : t.ensureDirectory path = (.error .nul, t) := by
  simp only [ensureDirectory, makeDirectory, isDirectory, onPath, hnul, if_true]
  rfl

/-- Opening a file, as what is at the end of its path decides. -/
theorem openForWriting_eq {t : FileTree} {path : String}
    (hclean : path.toList.contains '\x00' = false) :
    t.openForWriting path =
      match t.locate path with
      | .error trouble => .error (.trouble trouble path)
      | .ok place =>
          if asksForDirectory path then .error (.trouble .isDirectory path)
          else if t.entry? place = some .directory then .error (.trouble .isDirectory path)
          else .ok (place, t.put place (.file [])) := by
  unfold openForWriting
  rw [onPath_of_clean hclean]
  cases t.locate path with
  | error trouble => rfl
  | ok place =>
      cases asksForDirectory path with
      | true => rfl
      | false =>
          cases hentry : t.entry? place with
          | none =>
              simp only [bind, Except.bind, hentry]
              rfl
          | some e =>
              simp only [bind, Except.bind, hentry]
              cases e <;> rfl

theorem openForWriting_of_nul {t : FileTree} {path : String}
    (hnul : path.toList.contains '\x00' = true) : t.openForWriting path = .error .nul := by
  simp only [openForWriting, onPath, hnul, if_true]

/-- Making one directory either changes nothing or puts it where nothing was. -/
theorem ensureDirectory_cases (t : FileTree) (path : String) :
    (t.ensureDirectory path).2 = t ∨
      t.locate path = .ok (t.placeOf path) ∧ t.entry? (t.placeOf path) = none ∧
        t.ensureDirectory path = (.ok (), t.put (t.placeOf path) .directory) := by
  cases hclean : path.toList.contains '\x00' with
  | true =>
      rw [ensureDirectory_of_nul hclean]
      exact Or.inl rfl
  | false =>
      rw [ensureDirectory_eq hclean]
      cases hlocate : t.locate path with
      | error trouble => exact Or.inl rfl
      | ok place =>
          obtain rfl := ((locate_eq_ok_iff t path place).mp hlocate).1
          cases hentry : t.entry? (t.placeOf path) with
          | none => exact Or.inr ⟨rfl, rfl, by simp only [hentry]⟩
          | some e => cases e <;> simp [hentry]

theorem names_ne_nil_of_head?_ne {path : List Char} (hne : path ≠ [])
    (h : path.head? ≠ some '/') : names path ≠ [] := by
  cases path with
  | nil => exact absurd rfl hne
  | cons c rest =>
      have hc : (c == '/') = false := by simpa using h
      unfold names parts
      rw [List.splitOn_cons_eq_if_modifyHead, hc]
      cases hrest : rest.splitOn '/' with
      | nil => exact absurd hrest (List.splitOn_ne_nil '/' rest)
      | cons part parts => simp

/-- A new directory lies on the way that its path is spelled. -/
theorem changes_ensureDirectory (t : FileTree) (path : List Char) :
    Changes [] (passed (t.startOf path) (names path)) t
      (t.ensureDirectory (String.ofList path)).2 := by
  rcases ensureDirectory_cases t (String.ofList path) with hsame | ⟨hlocate, hnone, hmade⟩
  · rw [hsame]
    exact Changes.refl _ _ _
  · rw [hmade]
    refine (changes_put_directory hnone).mono (List.Subset.refl _) ?_
    have hnames : names path ≠ [] := by
      intro hnil
      have hempty := ((locate_eq_ok_iff t _ _).mp hlocate).2.1
      simp only [placeOf, String.toList_ofList, hnil, List.foldl_nil] at hnone
      unfold startOf at hnone
      split at hnone
      · cases hnone
      · rename_i hhead
        refine names_ne_nil_of_head?_ne ?_ hhead hnil
        rintro rfl
        simp at hempty
    intro place hplace
    rw [List.mem_singleton] at hplace
    rw [hplace, placeOf, String.toList_ofList]
    exact foldl_follow_mem_passed _ hnames

/-- Making a directory with all that are missing on the way to it changes nothing else, also where
it fails on the way. -/
theorem changes_makeDirectories (t : FileTree) (path : List Char) :
    Changes [] (passed (t.startOf path) (names path)) t (t.makeDirectories path).2 := by
  have hway : passed (t.startOf (splitPath path).1) (names (splitPath path).1) ⊆
      passed (t.startOf path) (names path) := by
    rw [startOf_splitPath, names_splitPath path, passed_append]
    exact List.subset_append_left _ _
  rw [makeDirectories]
  split
  · rename_i hmissing
    have hfirst := (changes_makeDirectories t (splitPath path).1).mono (List.Subset.refl _) hway
    have hlast := changes_ensureDirectory (t.makeDirectories (splitPath path).1).2 path
    rw [hfirst.startOf] at hlast
    cases hrun : t.makeDirectories (splitPath path).1 with
    | mk made t' =>
        simp only [hrun] at hfirst hlast ⊢
        cases made with
        | error fault =>
            simp only
            split
            · split
              · exact hfirst
              · exact hfirst.trans hlast
            · exact hfirst
        | ok _ =>
            simp only
            split
            · exact hfirst
            · exact hfirst.trans hlast
  · exact changes_ensureDirectory t path
termination_by path.length
decreasing_by
  rename_i hmissing
  exact length_splitPath_lt hmissing.2.1

end FileTree

end MediaSplit
