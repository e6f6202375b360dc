import MediaSplit.Proofs.Files.CopyNames
import MediaSplit.Proofs.Files.Rooted

/-!
The ways to stripped copies. A copy is reached from the directory of its source, which is there if
the source can be read; what follows only leads down, but for a first name of dots, which leads to
a directory that is there as well. So nothing can be missing on the way but places in front of the
copy itself.
-/

namespace MediaSplit

namespace FileTree

open MediaSplit.Path

/-- That all that can be missing on the way to a file is in front of it. -/
structure OnlyDown (t : FileTree) (path : String) : Prop where
  down : t.LeadsDown (t.startOf path.toList) (names (directoryOf path.toList))
  ways : ∀ place ∈ t.parentsOf path, t.entry? place = some .directory ∨
    place <+: t.placeOf path ∧ place ≠ t.placeOf path

variable {t : FileTree} {path : String}

/-- The way to a file that is found is there. -/
theorem onlyDown_of_parents (h : ∀ place ∈ t.parentsOf path, t.entry? place = some .directory) :
    t.OnlyDown path :=
  ⟨⟨_, [], (List.append_nil _).symm, h, nofun⟩, fun place hplace => Or.inl (h place hplace)⟩

private theorem onlyDown_of_names {front back : List String} {last : String}
    (hnames : names path.toList = front ++ back ++ [last])
    (hdirectory : names (directoryOf path.toList) = front ++ back)
    (hfront : ∀ place ∈ passed (t.startOf path.toList) front, t.entry? place = some .directory)
    (hback : ∀ name ∈ back, IsPlain name) (hlast : back = [] ∨ IsPlain last) :
    t.OnlyDown path := by
  refine ⟨⟨front, back, hdirectory, hfront, hback⟩, fun place hplace => ?_⟩
  rw [parentsOf, hdirectory, passed_append, List.mem_append] at hplace
  rcases hplace with hplace | hplace
  · exact Or.inl (hfront place hplace)
  · right
    have hplain : IsPlain last := by
      refine hlast.resolve_left ?_
      rintro rfl
      cases hplace
    obtain ⟨-, hinitial⟩ := between_of_mem_passed hback hplace
    have hend : t.placeOf path = front.foldl follow (t.startOf path.toList) ++ back ++ [last] := by
      rw [placeOf, hnames, List.foldl_append, List.foldl_append, foldl_follow_plain hback]
      exact foldl_follow_plain (List.forall_mem_singleton.mpr hplain) _
    constructor
    · rw [hend]
      exact hinitial.trans (List.prefix_append _ _)
    · intro heq
      have hlength := hinitial.length_le
      rw [heq, hend, List.length_append, List.length_singleton] at hlength
      omega

private theorem getLast?_append_of_ne_nil (first : List Char) {second : List Char}
    (h : second ≠ []) : (first ++ second).getLast? = second.getLast? := by
  rw [List.getLast?_append]
  cases hlast : second.getLast? with
  | none => exact absurd (List.getLast?_eq_none_iff.mp hlast) h
  | some c => rfl

private theorem getLast?_strippedName {suffix name : List Char} (h : '/' ∉ name) :
    (strippedName suffix name).getLast? ≠ some '/' := by
  obtain ⟨before, after, hcopy, hform⟩ := strippedName_eq suffix name
  have hafter : '/' ∉ cssExtension ++ after := by
    have hcss : '/' ∉ cssExtension := by decide
    rcases hform with rfl | ⟨-, -, rfl⟩
    · simp only [List.mem_append, not_or] at h
      simp [hcss, h.2]
    · simp [hcss]
  have hends : strippedName suffix name = (before ++ '.' :: suffix) ++ (cssExtension ++ after) := by
    simp [hcopy]
  have hne : cssExtension ++ after ≠ [] := by simp [cssExtension]
  rw [hends, getLast?_append_of_ne_nil _ hne]
  intro hlast
  exact hafter (List.mem_of_getLast? hlast)

private theorem nameOf_strippedPath (path suffix : String) :
    nameOf (strippedPath path suffix).toList ≠ [] := by
  have hlast := @getLast?_strippedName (cleanSuffixChars suffix.toList) _ (slash_not_mem_nameOf path.toList)
  have hne : strippedName (cleanSuffixChars suffix.toList) (nameOf path.toList) ≠ [] := by
    obtain ⟨before, after, hcopy, -⟩ :=
      strippedName_eq (cleanSuffixChars suffix.toList) (nameOf path.toList)
    rw [hcopy]
    simp
  simp only [strippedPath, String.toList_ofList]
  rw [join, if_neg (head?_strippedName (slash_not_mem_nameOf path.toList))]
  apply nameOf_ne_nil
  · split <;> simp [hne]
  · split
    · rwa [getLast?_append_of_ne_nil _ hne]
    · rwa [← List.singleton_append, ← List.append_assoc, getLast?_append_of_ne_nil _ hne]

/-- All that can be missing on the way to a copy, if its source is found, is in front of it. -/
theorem onlyDown_strippedPath (hrooted : t.IsRooted) (suffix : String)
    (h : ∀ place ∈ t.parentsOf path, t.entry? place = some .directory) :
    t.OnlyDown (strippedPath path suffix) := by
  obtain ⟨first, rest, hnames, hrest, -⟩ := exists_names_strippedName
    (dot_not_mem_cleanSuffixChars suffix.toList) (slash_not_mem_nameOf path.toList)
  have hout := names_strippedPath path suffix
  rw [hnames] at hout
  have hstart := startOf_strippedPath path suffix t
  have hlastName := names_of_nameOf (nameOf_strippedPath path suffix)
  have hsplit := names_eq_append (strippedPath path suffix).toList
  rw [hlastName] at hsplit
  rw [parentsOf] at h
  rcases List.eq_nil_or_concat rest with hnil | ⟨others, last, hothers⟩
  · rw [hnil] at hout
    have hboth := hsplit.symm.trans hout
    obtain ⟨hdirectory, -⟩ := List.append_inj' hboth (by simp)
    refine @onlyDown_of_names t _ (names (directoryOf path.toList)) [] first ?_ ?_ ?_
      (fun name hname => absurd hname List.not_mem_nil) (Or.inl rfl)
    · simpa using hout
    · simpa using hdirectory
    · rwa [hstart]
  · rw [List.concat_eq_append] at hothers
    have hout' : names (strippedPath path suffix).toList =
        names (directoryOf path.toList) ++ first :: others ++ [last] := by
      rw [hout, hothers]
      simp
    have hboth := hsplit.symm.trans hout'
    obtain ⟨hdirectory, -⟩ := List.append_inj' hboth (by simp)
    rw [hothers] at hrest
    have hlast : IsPlain last := hrest last (by simp)
    have hplain : ∀ name ∈ others, IsPlain name := fun name hname => hrest name (by simp [hname])
    by_cases hfirst : IsPlain first
    · refine onlyDown_of_names hout' hdirectory ?_ ?_ (Or.inr hlast)
      · rwa [hstart]
      · exact List.forall_mem_cons.mpr ⟨hfirst, hplain⟩
    · -- dots at the start lead to a directory that is there
      refine @onlyDown_of_names t _ (names (directoryOf path.toList) ++ [first]) others last
        ?_ ?_ ?_ hplain (Or.inr hlast)
      · simpa using hout'
      · simpa using hdirectory
      · rw [hstart, passed_append]
        intro place hplace
        rcases List.mem_append.mp hplace with hplace | hplace
        · exact h place hplace
        · have hhere := foldl_follow_eq_directory
            (TextFile.entry?_startOf hrooted.working path.toList) h
          rw [passed, passed, List.mem_singleton] at hplace
          generalize (names (directoryOf path.toList)).foldl follow (t.startOf path.toList) = here
            at hplace hhere
          rw [hplace, follow]
          split
          · exact hhere
          · split
            · exact hrooted.directory_dropLast hhere
            · rename_i hstays hup
              exact absurd ⟨hstays, hup⟩ hfirst

end FileTree

end MediaSplit
