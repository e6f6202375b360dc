import MediaSplit.Proofs.Files.Overlaying

/-!
Trees in which everything is in a directory. Writing keeps them so: something new is put only where
a path leads to, and a path leads through directories.
-/

namespace MediaSplit

namespace FileTree

open MediaSplit.Path

namespace IsRooted

variable {t : FileTree}

/-- Going up from a directory leads to a directory. -/
theorem directory_dropLast (h : t.IsRooted) {place : Location}
    (hplace : t.entry? place = some .directory) : t.entry? place.dropLast = some .directory := by
  rcases List.eq_nil_or_concat place with hnil | ⟨above, name, hconcat⟩
  · rw [hnil]
    rfl
  · rw [List.concat_eq_append] at hconcat
    rw [hconcat] at hplace ⊢
    rw [List.dropLast_concat]
    refine h.above above name ?_
    rw [hplace]
    simp

/-- What a path leads to, if it is no directory, is in a directory. -/
theorem exists_parent (h : t.IsRooted) {path : String} {place : Location}
    (hlocate : t.locate path = .ok place) (hplace : t.entry? place ≠ some .directory) :
    ∃ parent name, place = parent ++ [name] ∧ t.entry? parent = some .directory := by
  obtain ⟨hend, -, -, hopen⟩ := (locate_eq_ok_iff t path place).mp hlocate
  rw [placeOf] at hend
  rcases List.eq_nil_or_concat (names path.toList) with hnil | ⟨front, last, hnames⟩
  · rw [hnil, List.foldl_nil] at hend
    rw [hend, TextFile.entry?_startOf h.working] at hplace
    exact absurd rfl hplace
  · rw [List.concat_eq_append] at hnames
    rw [hnames, isOpen_append] at hopen
    rw [hnames, List.foldl_append, List.foldl_cons, List.foldl_nil] at hend
    have hmiddle := hopen.2.1
    generalize front.foldl follow (t.startOf path.toList) = middle at hend hmiddle
    unfold follow at hend
    split at hend
    · rw [hend] at hplace
      exact absurd hmiddle hplace
    · split at hend
      · rw [hend] at hplace
        exact absurd (h.directory_dropLast hmiddle) hplace
      · exact ⟨middle, last, hend, hmiddle⟩

theorem put (h : t.IsRooted) {path : String} {place : Location}
    (hlocate : t.locate path = .ok place) (hplace : t.entry? place ≠ some .directory) (e : Entry) :
    (t.put place e).IsRooted := by
  have hne := ne_nil_of_entry?_ne_directory hplace
  have hkept : ∀ other, t.entry? other = some .directory →
      FileTree.entry? (t.put place e) other = some .directory := by
    intro other hdir
    have hother : other ≠ place := by
      rintro rfl
      exact hplace hdir
    rw [entry?_put t hne, if_neg hother, hdir]
  refine ⟨hkept _ h.working, fun other name hthere => hkept other ?_⟩
  rw [entry?_put t hne] at hthere
  split at hthere
  · rename_i heq
    obtain ⟨parent, last, hparent, hdir⟩ := h.exists_parent hlocate hplace
    rw [hparent] at heq
    rw [(List.append_inj' heq rfl).1]
    exact hdir
  · exact h.above other name hthere

theorem ensureDirectory (h : t.IsRooted) (path : String) : (t.ensureDirectory path).2.IsRooted := by
  rcases ensureDirectory_cases t path with hsame | ⟨hlocate, hnone, hmade⟩
  · rwa [hsame]
  · rw [hmade]
    exact h.put hlocate (by simp [hnone]) _

theorem makeDirectories (h : t.IsRooted) (path : List Char) :
    (t.makeDirectories path).2.IsRooted := by
  rw [makeDirectories_eq]
  split
  · rename_i hmissing
    have hfront := h.makeDirectories (splitPath path).1
    split
    · split
      · exact hfront
      · exact hfront.ensureDirectory _
    · exact hfront
  · exact h.ensureDirectory _
termination_by path.length
decreasing_by
  rename_i hmissing
  exact length_splitPath_lt hmissing.2.1

theorem makeParents (h : t.IsRooted) (path : String) :
    (TextFile.makeParents t path).2.IsRooted := by
  simp only [TextFile.makeParents]
  split
  · exact h
  · exact h.makeDirectories _

theorem write [Codecs] (h : t.IsRooted) (encoding path text : String) :
    (TextFile.write t encoding path text).2.IsRooted := by
  have hparents := h.makeParents path
  unfold TextFile.write
  cases hrun : TextFile.makeParents t path with
  | mk outcome t₁ =>
      rw [hrun] at hparents
      cases outcome with
      | error fault => exact hparents
      | ok _ =>
          simp only
          split
          · exact hparents
          · cases hopen : t₁.openForWriting path with
            | error fault => exact hparents
            | ok opened =>
                obtain ⟨place, t₂⟩ := opened
                obtain ⟨-, -, hlocate, hentry, rfl, rfl⟩ := openForWriting_eq_ok hopen
                have hput := hparents.put hlocate hentry (.file [])
                simp only [TextFile.fill]
                cases TextFile.written encoding text with
                | error fault => exact hput
                | ok bytes =>
                    have hchanges := changes_put_file hentry []
                    have hne := ne_nil_of_entry?_ne_directory hentry
                    refine hput.put (hchanges.locate hlocate) ?_ _
                    rw [entry?_put t₁ hne, if_pos rfl]
                    simp

/-- A tree is rooted if every entry of it is in a directory. -/
theorem of_entries (hworking : t.entry? t.workingDirectory = some .directory)
    (h : ∀ entry ∈ t.entries, t.entry? entry.1.dropLast = some .directory) : t.IsRooted := by
  refine ⟨hworking, fun place name hthere => ?_⟩
  have hentry : t.entry? (place ++ [name]) = Table.get? t.entries (place ++ [name]) := by
    cases place <;> rfl
  rw [hentry, Table.get?, Option.ne_none_iff_isSome, List.lookup_isSome_iff] at hthere
  obtain ⟨entry, hmem, hkey⟩ := hthere
  have hdir := h entry hmem
  rwa [← eq_of_beq hkey, List.dropLast_concat] at hdir

end IsRooted

end FileTree

end MediaSplit
