import MediaSplit.Proofs.Files.Writing

/-!
What attempts to write some paths can do to another path. A file that can be read, and a path that
can be opened, are only disturbed where their ways meet: by a file that comes into being on the
way, or a directory that comes into being where the way ends or where it was cut.
-/

namespace MediaSplit

namespace FileTree

open MediaSplit.Path

structure Touched (paths : List String) (t t' : FileTree) : Prop where
  changes : Changes (paths.map t.placeOf) (paths.flatMap t.parentsOf) t t'
  directories : ∀ place, t'.entry? place = some .directory →
    t.entry? place = some .directory ∨ place ∈ paths.flatMap t.parentsOf

/-- That a way does not come to be open through attempts to write some paths. -/
def IsShut (t : FileTree) (paths : List String) (path : String) : Prop :=
  ∀ place ∈ t.parentsOf path, t.entry? place = none →
    place ∉ paths.map t.placeOf ∧ place ∉ paths.flatMap t.parentsOf

namespace Touched

variable {paths : List String} {t t' : FileTree}

theorem refl (paths : List String) (t : FileTree) : Touched paths t t :=
  ⟨Changes.refl _ _ _, fun _ h => Or.inl h⟩

theorem mono {paths' : List String} (h : Touched paths t t') (hsub : paths ⊆ paths') :
    Touched paths' t t' := by
  have hparents : paths.flatMap t.parentsOf ⊆ paths'.flatMap t.parentsOf := by
    intro place hplace
    obtain ⟨path, hpath, hmem⟩ := List.mem_flatMap.mp hplace
    exact List.mem_flatMap.mpr ⟨path, hsub hpath, hmem⟩
  constructor
  · exact h.changes.mono (List.map_subset _ hsub) hparents
  · intro place hdir
    exact (h.directories place hdir).imp_right fun hmem => hparents hmem

end Touched

/-- A new directory after a write lies on the way to the file that was to be written. -/
theorem directory_of_write [Codecs] {t : FileTree} {encoding path text : String} {place : Location}
    (h : FileTree.entry? (TextFile.write t encoding path text).2 place = some .directory) :
    t.entry? place = some .directory ∨ place ∈ t.parentsOf path := by
  have houtcome := TextFile.write_outcome t encoding path text
  generalize TextFile.write t encoding path text = result at h houtcome
  have hkept {files : List Location} {t' : FileTree}
      (changes : Changes files (t.parentsOf path) t t')
      (hdir : t'.entry? place = some .directory) (hplace : place ∉ files) :
      t.entry? place = some .directory ∨ place ∈ t.parentsOf path := by
    rcases changes.kept place hplace with hsame | ⟨-, -, hmem⟩
    · exact Or.inl (hsame ▸ hdir)
    · exact Or.inr hmem
  have hfile {t' : FileTree} {bytes : List UInt8}
      (changes : Changes [t.placeOf path] (t.parentsOf path) t t')
      (hread : t'.read path = .ok bytes) (hdir : t'.entry? place = some .directory) :
      place ∉ [t.placeOf path] := by
    intro hmem
    obtain ⟨-, -, -, hentry⟩ := (read_eq_ok_iff t' path bytes).mp hread
    rw [changes.placeOf, ← List.mem_singleton.mp hmem, hdir] at hentry
    cases hentry
  cases houtcome with
  | unopened changes closed => exact hkept changes h List.not_mem_nil
  | emptied opens changes empty refused => exact hkept changes h (hfile changes empty h)
  | written named opens changes full =>
      obtain ⟨bytes, -, hread, -⟩ := full
      exact hkept changes h (hfile changes hread h)

theorem changes_write [Codecs] (t : FileTree) (encoding path text : String) :
    Changes [t.placeOf path] (t.parentsOf path) t (TextFile.write t encoding path text).2 := by
  have houtcome := TextFile.write_outcome t encoding path text
  generalize TextFile.write t encoding path text = result at houtcome
  cases houtcome with
  | unopened changes closed => exact changes.mono (List.nil_subset _) (List.Subset.refl _)
  | emptied opens changes empty refused => exact changes
  | written named opens changes full => exact changes

namespace Touched

variable {paths : List String} {t t' : FileTree}

theorem write [Codecs] (h : Touched paths t t') {path : String} (hpath : path ∈ paths)
    (encoding text : String) :
    Touched paths t (TextFile.write t' encoding path text).2 := by
  have hparents : t'.parentsOf path ⊆ paths.flatMap t.parentsOf := by
    intro place hplace
    rw [h.changes.parentsOf] at hplace
    exact List.mem_flatMap.mpr ⟨path, hpath, hplace⟩
  constructor
  · refine h.changes.trans ((changes_write t' encoding path text).mono ?_ hparents)
    intro place hplace
    rw [List.mem_singleton, h.changes.placeOf] at hplace
    exact List.mem_map.mpr ⟨path, hpath, hplace.symm⟩
  · intro place hdir
    rcases directory_of_write hdir with hbefore | hmem
    · exact h.directories place hbefore
    · exact Or.inr (hparents hmem)

/-- A path that opens still opens, if no file has come to be on its way and no directory at its
end. -/
theorem opens (h : Touched paths t t') {path : String} (hopens : t.Opens path)
    (hway : ∀ other ∈ paths, other ≠ path → t.placeOf other ∈ t.parentsOf path →
      t.entry? (t.placeOf other) ≠ none)
    (hending : ∀ other ∈ paths, other ≠ path → t.placeOf path ∈ t.parentsOf other →
      t.entry? (t.placeOf path) ≠ none) : t'.Opens path where
  clean := hopens.clean
  nonempty := hopens.nonempty
  file := hopens.file
  short := hopens.short
  shortNames := hopens.shortNames
  way place hplace content hfile := by
    rw [h.changes.parentsOf] at hplace
    have hnotFile := hopens.way place hplace
    cases hentry : t.entry? place with
    | some e =>
        cases e with
        | file before => exact hnotFile before hentry
        | directory =>
            rw [h.changes.directoryStays place hentry] at hfile
            cases hfile
    | none =>
        by_cases hmem : place ∈ paths.map t.placeOf
        · obtain ⟨other, hother, rfl⟩ := List.mem_map.mp hmem
          by_cases heq : other = path
          · rw [heq] at hplace
            exact hopens.once hplace
          · exact hway other hother heq hplace hentry
        · rcases h.changes.kept place hmem with hsame | ⟨-, hdir, -⟩
          · rw [hsame, hentry] at hfile
            cases hfile
          · rw [hdir] at hfile
            cases hfile
  ending hdir := by
    rw [h.changes.placeOf] at hdir
    cases hentry : t.entry? (t.placeOf path) with
    | some e =>
        cases e with
        | directory => exact hopens.ending hentry
        | file before =>
            obtain ⟨content, hfile⟩ := h.changes.fileStays _ before hentry
            rw [hdir] at hfile
            cases hfile
    | none =>
        rcases h.directories _ hdir with hbefore | hmem
        · exact hopens.ending hbefore
        · obtain ⟨other, hother, hmem⟩ := List.mem_flatMap.mp hmem
          by_cases heq : other = path
          · rw [heq] at hmem
            exact hopens.once hmem
          · exact hending other hother heq hmem hentry
  once := by
    rw [h.changes.placeOf, h.changes.parentsOf]
    exact hopens.once

/-- What can be read after the writes could be read before, if its way did not come to be open
through them. -/
theorem read (h : Touched paths t t')
    (hworking : t.entry? t.workingDirectory = some .directory) {path : String}
    (hapart : t.placeOf path ∉ paths.map t.placeOf) (hshut : t.IsShut paths path)
    {content : List UInt8} (hread : t'.read path = .ok content) : t.read path = .ok content := by
  rw [read_eq_ok_iff] at hread ⊢
  obtain ⟨hnul, hasks, hlocate, hentry⟩ := hread
  rw [h.changes.placeOf] at hlocate hentry
  have hplaces : t'.placeOf path = t.placeOf path := h.changes.placeOf path
  have hway := parents_of_locate hasks (hplaces ▸ hlocate)
  rw [h.changes.parentsOf] at hway
  refine ⟨hnul, hasks, ?_, ?_⟩
  · rw [locate_eq_ok_iff] at hlocate ⊢
    obtain ⟨-, hne, hshort, hopen⟩ := hlocate
    refine ⟨rfl, hne, hshort, ?_⟩
    have hname := nameOf_ne_nil_of_file hne hasks
    have hstart := TextFile.entry?_startOf hworking path.toList
    have hparents : ∀ place ∈ t.parentsOf path, t.entry? place = some .directory := by
      intro place hplace
      have hafter := hway place hplace
      cases hentry : t.entry? place with
      | some e =>
          cases e with
          | directory => rfl
          | file before =>
              obtain ⟨content, hfile⟩ := h.changes.fileStays place before hentry
              rw [hafter] at hfile
              cases hfile
      | none =>
          obtain ⟨-, hnew⟩ := hshut place hplace hentry
          rcases h.directories place hafter with hdir | hmem
          · rw [hentry] at hdir
            cases hdir
          · exact absurd hmem hnew
    have hshortNames := shortNames_of_isOpen hopen
    rw [names_eq_append, names_of_nameOf hname] at hshortNames ⊢
    rw [isOpen_append]
    refine ⟨isOpen_of_passed hstart hparents fun name hname =>
      hshortNames name (List.mem_append_left _ hname), ?_, ?_, trivial⟩
    · exact foldl_follow_eq_directory hstart hparents
    · exact hshortNames _ (List.mem_append_right _ (List.mem_singleton.mpr rfl))
  · rcases h.changes.kept _ hapart with hsame | ⟨-, hdir, -⟩
    · rw [← hsame, hentry]
    · rw [hdir] at hentry
      cases hentry

end Touched

end FileTree

namespace TextFile

open FileTree

/-- A name that a text can be encoded under is one that can be asked for. -/
theorem checkName_of_written [Codecs] {encoding text : String} {bytes : List UInt8}
    (h : written encoding text = .ok bytes) : checkName encoding = .ok () := by
  unfold checkName
  split
  · rename_i hnul
    have hne : encoding ≠ surroundings := by
      rintro rfl
      revert hnul
      decide
    have hnamed : Encoding.named? encoding = .error .nul := if_pos hnul
    simp [written, encodingOf, hne, Encoding.ofName, hnamed, Except.mapError, bind,
      Except.bind] at h
  · rfl

/-- An attempt to write succeeds just where the path opens and the text has bytes. -/
theorem write_eq_ok_iff [Codecs] {t : FileTree} {path : String}
    (hstart : t.entry? (t.startOf path.toList) = some .directory) (encoding text : String) :
    (write t encoding path text).1 = .ok () ↔
      t.Opens path ∧ ∃ bytes, written encoding text = .ok bytes := by
  have houtcome := write_outcome t encoding path text
  generalize write t encoding path text = result at houtcome ⊢
  cases houtcome with
  | unopened changes closed =>
      constructor
      · intro h
        cases h
      · rintro ⟨hopens, bytes, hwritten⟩
        rcases closed with hrefused | ⟨trouble, -, hclosed⟩
        · rw [checkName_of_written hwritten] at hrefused
          cases hrefused
        · exact absurd hopens (hclosed hstart)
  | emptied opens changes empty refused =>
      constructor
      · intro h
        cases h
      · rintro ⟨-, bytes, hwritten⟩
        rw [refused] at hwritten
        cases hwritten
  | written named opens changes full =>
      obtain ⟨bytes, hwritten, -⟩ := full
      constructor
      · intro _
        exact ⟨opens, bytes, hwritten⟩
      · intro _
        rfl

/-- A file is whole again when its text is written once more, also through another spelling. -/
theorem holds_of_write [Codecs] {t : FileTree} {encoding path other text : String}
    (hholds : Holds t encoding path text) (hplace : t.placeOf other = t.placeOf path) :
    Holds (write t encoding other text).2 encoding path text := by
  obtain ⟨bytes, hwritten, hread, -⟩ := hholds
  refine holds_of_read hwritten ?_
  have houtcome := write_outcome t encoding other text
  generalize write t encoding other text = result at houtcome ⊢
  cases houtcome with
  | unopened changes closed => exact changes.read hread List.not_mem_nil
  | emptied opens changes empty refused =>
      rw [hwritten] at refused
      cases refused
  | @written t' named opens changes full =>
      obtain ⟨bytes', hwritten', hread', -⟩ := full
      rw [hwritten] at hwritten'
      obtain rfl := Except.ok.inj hwritten'
      refine changes.read_of_content? hread ?_
      obtain ⟨-, -, -, hbefore⟩ := (read_eq_ok_iff t path bytes).mp hread
      obtain ⟨-, -, -, hafter⟩ := (read_eq_ok_iff t' other bytes).mp hread'
      rw [changes.placeOf, hplace] at hafter
      rw [(content?_eq_some_iff _ _ _).mpr hbefore, (content?_eq_some_iff _ _ _).mpr hafter]

end TextFile

end MediaSplit
