import MediaSplit.Proofs.Files.Growing
import MediaSplit.Proofs.Files.Spelling

/-!
What a path leads to. A path leads to a file or a directory, and only through directories; in a tree
that has grown it still leads there.
-/

namespace MediaSplit

namespace FileTree

open MediaSplit.Path

variable {t t' : FileTree}

structure LeadsTo (t : FileTree) (path : String) (e : Entry) : Prop where
  noNul : path.toList.contains '\x00' = false
  locates : t.locate path = .ok (t.placeOf path)
  entry : t.entry? (t.placeOf path) = some e
  directory : asksForDirectory path = true → e = .directory

theorem onPath_find_eq_ok_iff {path : String} {place : Location} {e : Entry} :
    onPath path (t.find path) = .ok (place, e) ↔ place = t.placeOf path ∧ t.LeadsTo path e := by
  cases hnul : path.toList.contains '\x00' with
  | true =>
      have hrefused : onPath path (t.find path) = .error .nul := by
        simp only [onPath, hnul, if_true]
      rw [hrefused]
      constructor
      · intro h
        cases h
      · rintro ⟨-, hleads⟩
        rw [hleads.noNul] at hnul
        cases hnul
  | false =>
      rw [onPath_of_clean hnul]
      unfold find
      cases hlocate : t.locate path with
      | error trouble =>
          constructor
          · intro h
            cases h
          · rintro ⟨-, hleads⟩
            rw [hleads.locates] at hlocate
            cases hlocate
      | ok there =>
          obtain rfl := ((locate_eq_ok_iff t path there).mp hlocate).1
          simp only [bind, Except.bind]
          constructor
          · intro h
            cases hentry : t.entry? (t.placeOf path) with
            | none =>
                rw [hentry] at h
                cases h
            | some found =>
                rw [hentry] at h
                cases found with
                | directory =>
                    obtain ⟨rfl, rfl⟩ := Prod.mk.inj (Except.ok.inj h)
                    exact ⟨rfl, hnul, hlocate, hentry, fun _ => rfl⟩
                | file content =>
                    simp only at h
                    split at h
                    · cases h
                    · rename_i hasks
                      obtain ⟨rfl, rfl⟩ := Prod.mk.inj (Except.ok.inj h)
                      exact ⟨rfl, hnul, hlocate, hentry, fun hask => absurd hask hasks⟩
          · rintro ⟨rfl, hleads⟩
            rw [hleads.entry]
            cases e with
            | directory => rfl
            | file content =>
                have hasks : ¬ asksForDirectory path = true := by
                  intro hask
                  cases hleads.directory hask
                simp only [if_neg hasks]
                rfl

theorem exists?_iff {path : String} : t.exists? path = true ↔ ∃ e, t.LeadsTo path e := by
  unfold exists?
  cases hfound : onPath path (t.find path) with
  | error fault =>
      constructor
      · intro h
        cases h
      · rintro ⟨e, hleads⟩
        rw [onPath_find_eq_ok_iff.mpr ⟨rfl, hleads⟩] at hfound
        cases hfound
  | ok found => exact ⟨fun _ => ⟨found.2, (onPath_find_eq_ok_iff.mp hfound).2⟩, fun _ => rfl⟩

theorem isDirectory_iff {path : String} :
    t.isDirectory path = true ↔ t.LeadsTo path .directory := by
  unfold isDirectory
  cases hfound : onPath path (t.find path) with
  | error fault =>
      constructor
      · intro h
        cases h
      · intro hleads
        rw [onPath_find_eq_ok_iff.mpr ⟨rfl, hleads⟩] at hfound
        cases hfound
  | ok found =>
      obtain ⟨place, e⟩ := found
      have hleads := (onPath_find_eq_ok_iff.mp hfound).2
      cases e with
      | directory => exact ⟨fun _ => hleads, fun _ => rfl⟩
      | file content =>
          constructor
          · intro h
            cases h
          · intro hleads'
            have hsame := hleads.entry.symm.trans hleads'.entry
            cases hsame

theorem exists?_of_isDirectory {path : String} (h : t.isDirectory path = true) :
    t.exists? path = true :=
  exists?_iff.mpr ⟨.directory, isDirectory_iff.mp h⟩

theorem exists?_of_read {path : String} {content : List UInt8} (h : t.read path = .ok content) :
    t.exists? path = true := by
  obtain ⟨hclean, hasks, hlocate, hentry⟩ := (read_eq_ok_iff t path content).mp h
  refine exists?_iff.mpr ⟨.file content, hclean, hlocate, hentry, fun hask => ?_⟩
  rw [hasks] at hask
  cases hask

/-- The empty path leads nowhere. -/
theorem exists?_empty (t : FileTree) : t.exists? "" = false := by
  rw [← Bool.not_eq_true, exists?_iff]
  rintro ⟨e, hleads⟩
  cases ((locate_eq_ok_iff t _ _).mp hleads.locates).2.1

theorem isDirectory_empty (t : FileTree) : t.isDirectory "" = false := by
  rw [← Bool.not_eq_true]
  intro hthere
  have hnone := t.exists?_empty
  rw [exists?_of_isDirectory hthere] at hnone
  cases hnone

/-- A path leads on to what it has led to. -/
theorem Grows.leadsTo (h : t.Grows t') {path : String} {e : Entry} (hleads : t.LeadsTo path e) :
    ∃ e', t'.LeadsTo path e' ∧ (e' = .directory ↔ e = .directory) := by
  obtain ⟨e', hentry, hkind⟩ := h.entry? hleads.entry
  rw [← h.changes.placeOf] at hentry
  refine ⟨e', ⟨hleads.noNul, ?_, hentry, fun hask => hkind.mpr (hleads.directory hask)⟩, hkind⟩
  rw [h.changes.locate hleads.locates, h.changes.placeOf]

theorem Grows.exists? (h : t.Grows t') {path : String} (hthere : t.exists? path = true) :
    t'.exists? path = true := by
  obtain ⟨e, hleads⟩ := exists?_iff.mp hthere
  obtain ⟨e', hleads', -⟩ := h.leadsTo hleads
  exact exists?_iff.mpr ⟨e', hleads'⟩

theorem Grows.isDirectory (h : t.Grows t') {path : String} (hthere : t.isDirectory path = true) :
    t'.isDirectory path = true := by
  obtain ⟨e', hleads', hkind⟩ := h.leadsTo (isDirectory_iff.mp hthere)
  rw [hkind.mpr rfl] at hleads'
  exact isDirectory_iff.mpr hleads'

/-- A path below a directory leads on from there. -/
theorem placeOf_ofList_join (t : FileTree) (directory : List Char) {name : List Char}
    (hname : name.head? ≠ some '/') :
    t.placeOf (String.ofList (join directory name)) =
      (names name).foldl follow (t.placeOf (String.ofList directory)) := by
  simp only [placeOf, startOf, String.toList_ofList, names_join hname, List.foldl_append,
    head?_join hname]

/-- On the way to what is there are directories. -/
theorem isDirectory_of_exists?_join {directory name : List Char} (hne : directory ≠ [])
    (hname : name.head? ≠ some '/')
    (h : t.exists? (String.ofList (join directory name)) = true) :
    t.isDirectory (String.ofList directory) = true := by
  obtain ⟨e, hleads⟩ := exists?_iff.mp h
  have hnames : names (join directory name) = names directory ++ names name := names_join hname
  have hplace := t.placeOf_ofList_join directory hname
  have hsub : directory.Sublist (join directory name) := by
    unfold join
    rw [if_neg hname]
    split <;> exact List.sublist_append_left _ _
  obtain ⟨-, -, hshort, hopen⟩ := (locate_eq_ok_iff t _ _).mp hleads.locates
  rw [String.toList_ofList, hnames, isOpen_append] at hopen
  have hstart : t.startOf (join directory name) = t.startOf directory := by
    simp only [startOf, head?_join hname]
  rw [hstart] at hopen
  refine isDirectory_iff.mpr ⟨?_, ?_, ?_, fun _ => rfl⟩
  · have hnoNul := hleads.noNul
    rw [String.toList_ofList] at hnoNul ⊢
    have hclean : '\x00' ∉ join directory name := by simpa using hnoNul
    simpa using fun hmem => hclean (hsub.subset hmem)
  · refine (locate_eq_ok_iff t _ _).mpr ⟨rfl, ?_, ?_, ?_⟩
    · simpa using hne
    · exact Nat.lt_of_le_of_lt (utf8ByteSize_le_of_sublist hsub) hshort
    · rw [String.toList_ofList]
      exact hopen.1
  · by_cases hnone : names name = []
    · -- the slash that is added to the path asks for a directory
      have hentry := hleads.entry
      have hnil : name = [] := by
        cases name with
        | nil => rfl
        | cons c rest => exact absurd hnone (names_ne_nil_of_head?_ne (List.cons_ne_nil _ _) hname)
      have hask : asksForDirectory (String.ofList (join directory name)) = true := by
        unfold asksForDirectory join
        rw [String.toList_ofList, if_neg hname, hnil]
        simp only [Bool.or_eq_true, decide_eq_true_eq]
        split
        · rename_i hends
          rw [List.append_nil]
          exact hends.resolve_left (by simpa using hne)
        · simp
      rw [hplace, hnone, hleads.directory hask] at hentry
      exact hentry
    · obtain ⟨first, rest, hcons⟩ := List.exists_cons_of_ne_nil hnone
      have hway := hopen.2
      rw [hcons] at hway
      have hthere := hway.1
      simpa only [placeOf, String.toList_ofList] using hthere

/-- A path with a slash at its end leads to the directory before the slash. -/
theorem isDirectory_of_exists? {path : List Char} (hname : nameOf path = [])
    (hne : directoryOf path ≠ []) (h : t.exists? (String.ofList path) = true) :
    t.isDirectory (String.ofList (directoryOf path)) = true := by
  obtain ⟨e, hleads⟩ := exists?_iff.mp h
  have hplace : t.placeOf (String.ofList path) = t.placeOf (String.ofList (directoryOf path)) := by
    rw [placeOf_eq, placeOf, String.toList_ofList, String.toList_ofList, hname]
    simp only [startOf, head?_directoryOf]
    rfl
  have hnames : names path = names (directoryOf path) := by
    rw [names_eq_append, hname]
    exact List.append_nil _
  have hask : asksForDirectory (String.ofList path) = true := by
    have hwhole := beforeName_append_nameOf path
    rw [hname, List.append_nil] at hwhole
    rcases beforeName_eq_nil_or path with hnil | ⟨front, hfront⟩
    · rw [directoryOf, hnil] at hne
      exact absurd rfl hne
    · rw [asksForDirectory, String.toList_ofList, ← hwhole, hfront]
      simp
  obtain ⟨-, -, hshort, hopen⟩ := (locate_eq_ok_iff t _ _).mp hleads.locates
  have hsub := sublist_directoryOf path
  refine isDirectory_iff.mpr ⟨?_, ?_, ?_, fun _ => rfl⟩
  · have hnoNul := hleads.noNul
    rw [String.toList_ofList] at hnoNul ⊢
    have hclean : '\x00' ∉ path := by simpa using hnoNul
    simpa using fun hmem => hclean (hsub.subset hmem)
  · refine (locate_eq_ok_iff t _ _).mpr ⟨rfl, by simpa using hne, ?_, ?_⟩
    · exact Nat.lt_of_le_of_lt (utf8ByteSize_le_of_sublist hsub) hshort
    · rw [String.toList_ofList] at hopen ⊢
      rw [← hnames]
      simpa only [startOf, head?_directoryOf] using hopen
  · have hentry := hleads.entry
    rwa [hplace, hleads.directory hask] at hentry

end FileTree

end MediaSplit
