import Mathlib.Data.List.TakeWhile
import MediaSplit.Proofs.Files.Changes

/-!
When a file can be opened for writing. All that counts is that no file stands in the way where the
path passes and no directory where it ends; directories that are missing are made. A file that
comes into being can take this away from a path but nothing can give it back.
-/

namespace MediaSplit

namespace Path

theorem names_of_nameOf {path : List Char} (h : nameOf path ≠ []) :
    names (nameOf path) = [String.ofList (nameOf path)] := by
  rw [names_of_no_slash (slash_not_mem_nameOf path), if_neg (by simpa using h)]

theorem nameOf_ne_nil {path : List Char} (hne : path ≠ []) (hlast : path.getLast? ≠ some '/') :
    nameOf path ≠ [] := by
  intro hnil
  rcases beforeName_eq_nil_or path with hbefore | ⟨front, hbefore⟩
  · have := beforeName_append_nameOf path
    rw [hbefore, hnil] at this
    exact hne this.symm
  · have := beforeName_append_nameOf path
    rw [hbefore, hnil, List.append_nil] at this
    exact hlast (by simp [← this])

private theorem sublist_dropSlashes (path : List Char) : (dropSlashes path).Sublist path := by
  unfold dropSlashes
  split
  · exact List.Sublist.refl path
  · have := (List.dropWhile_sublist (l := path.reverse) (· == '/')).reverse
    rwa [List.reverse_reverse] at this

theorem sublist_directoryOf (path : List Char) : (directoryOf path).Sublist path := by
  refine (sublist_dropSlashes _).trans ?_
  have := (List.dropWhile_sublist (l := path.reverse) (· != '/')).reverse
  rwa [List.reverse_reverse] at this

end Path

namespace FileTree

open MediaSplit.Path

structure Opens (t : FileTree) (path : String) : Prop where
  clean : path.toList.contains '\x00' = false
  nonempty : path.isEmpty = false
  file : asksForDirectory path = false
  short : path.utf8ByteSize < maxPathBytes
  shortNames : ∀ name ∈ names path.toList, name.utf8ByteSize ≤ maxNameBytes
  way : ∀ place ∈ t.parentsOf path, ∀ content, t.entry? place ≠ some (.file content)
  ending : t.entry? (t.placeOf path) ≠ some .directory
  once : t.placeOf path ∉ t.parentsOf path

/-- Changes of a tree can only close a path. -/
theorem Changes.opens {files directories : List Location} {t t' : FileTree}
    (h : Changes files directories t t') {path : String} (hopens : t'.Opens path) :
    t.Opens path where
  clean := hopens.clean
  nonempty := hopens.nonempty
  file := hopens.file
  short := hopens.short
  shortNames := hopens.shortNames
  way place hplace content hfile := by
    obtain ⟨content', hfile'⟩ := h.fileStays place content hfile
    exact hopens.way place (by rwa [h.parentsOf]) content' hfile'
  ending hdir := by
    have hopen := hopens.ending
    rw [h.placeOf] at hopen
    exact hopen (h.directoryStays _ hdir)
  once := by
    have honce := hopens.once
    rwa [h.placeOf, h.parentsOf] at honce

theorem isOpen_append (t : FileTree) (here : Location) (first second : List String) :
    t.IsOpen here (first ++ second) ↔
      t.IsOpen here first ∧ t.IsOpen (first.foldl follow here) second := by
  induction first generalizing here with
  | nil => simp [IsOpen]
  | cons name rest ih => simp only [List.cons_append, IsOpen, List.foldl_cons, ih, and_assoc]

/-- Names can be followed to their end when start and all places passed are directories. -/
theorem isOpen_of_passed {t : FileTree} {here : Location} {names : List String}
    (hhere : t.entry? here = some .directory)
    (hpassed : ∀ place ∈ passed here names, t.entry? place = some .directory)
    (hshort : ∀ name ∈ names, name.utf8ByteSize ≤ maxNameBytes) : t.IsOpen here names := by
  induction names generalizing here with
  | nil => trivial
  | cons name rest ih =>
      refine ⟨hhere, hshort name List.mem_cons_self, ?_⟩
      refine ih ?_ ?_ ?_
      · exact hpassed _ List.mem_cons_self
      · exact fun place hplace => hpassed place (List.mem_cons_of_mem _ hplace)
      · exact fun other hother => hshort other (List.mem_cons_of_mem _ hother)

theorem shortNames_of_isOpen {t : FileTree} {here : Location} {names : List String}
    (hopen : t.IsOpen here names) : ∀ name ∈ names, name.utf8ByteSize ≤ maxNameBytes := by
  induction names generalizing here with
  | nil => simp
  | cons first rest ih =>
      obtain ⟨-, hshort, hrest⟩ := hopen
      intro name hname
      rcases List.mem_cons.mp hname with rfl | hname
      · exact hshort
      · exact ih hrest name hname

theorem passed_of_isOpen {t : FileTree} {here : Location} {names : List String} (name : String)
    (hopen : t.IsOpen here (names ++ [name])) :
    ∀ place ∈ passed here names, t.entry? place = some .directory := by
  induction names generalizing here with
  | nil => simp [passed]
  | cons first rest ih =>
      obtain ⟨-, -, hrest⟩ := hopen
      intro place hplace
      rcases List.mem_cons.mp hplace with rfl | hplace
      · cases rest with
        | nil => exact hrest.1
        | cons second rest => exact hrest.1
      · exact ih hrest place hplace

private theorem ensureDirectory_ok {t : FileTree} {path : String} {place : Location}
    (hclean : path.toList.contains '\x00' = false) (hlocate : t.locate path = .ok place)
    (hentry : ∀ content, t.entry? place ≠ some (.file content)) :
    (t.ensureDirectory path).1 = .ok () ∧
      FileTree.entry? (t.ensureDirectory path).2 place = some .directory := by
  rw [ensureDirectory_eq hclean, hlocate]
  cases hat : t.entry? place with
  | none =>
      have hne : place ≠ [] := by
        rintro rfl
        cases hat
      simp [hat, entry?_put t hne]
  | some e =>
      cases e with
      | file content => exact absurd hat (hentry content)
      | directory => simp [hat]

theorem exists?_eq_true {t : FileTree} {path : String}
    (hclean : path.toList.contains '\x00' = false) (h : t.exists? path = true) :
    ∃ e, t.locate path = .ok (t.placeOf path) ∧ t.entry? (t.placeOf path) = some e := by
  unfold exists? at h
  rw [onPath_of_clean hclean] at h
  cases hlocate : t.locate path with
  | error trouble =>
      simp [find, hlocate, bind, Except.bind, Except.mapError, Except.isOk, Except.toBool] at h
  | ok place =>
      have hplace := ((locate_eq_ok_iff t path place).mp hlocate).1
      subst hplace
      cases hentry : t.entry? (t.placeOf path) with
      | none =>
          simp [find, hlocate, hentry, bind, Except.bind, Except.mapError, Except.isOk,
            Except.toBool] at h
      | some e => exact ⟨e, rfl, rfl⟩

structure Makes (t : FileTree) (path : List Char) : Prop where
  nonempty : path ≠ []
  clean : '\x00' ∉ path
  short : (String.ofList path).utf8ByteSize < maxPathBytes
  shortNames : ∀ name ∈ names path, name.utf8ByteSize ≤ maxNameBytes
  start : t.entry? (t.startOf path) = some .directory
  way : ∀ place ∈ passed (t.startOf path) (names path), ∀ content,
    t.entry? place ≠ some (.file content)

theorem splitPath_sublist (path : List Char) : (splitPath path).1.Sublist path := by
  unfold splitPath
  split
  · exact (sublist_directoryOf _).trans (sublist_directoryOf _)
  · exact sublist_directoryOf _

theorem utf8ByteSize_le_of_sublist {path path' : List Char} (h : path'.Sublist path) :
    (String.ofList path').utf8ByteSize ≤ (String.ofList path).utf8ByteSize := by
  induction h with
  | slnil => exact Nat.le_refl _
  | cons c _ ih =>
      rw [String.ofList_cons, String.utf8ByteSize_append]
      omega
  | cons_cons c _ ih =>
      rw [String.ofList_cons, String.ofList_cons, String.utf8ByteSize_append,
        String.utf8ByteSize_append]
      omega

private theorem Makes.split {t : FileTree} {path : List Char} (h : Makes t path)
    (hne : (splitPath path).1 ≠ []) : Makes t (splitPath path).1 where
  nonempty := hne
  clean hmem := h.clean ((splitPath_sublist path).subset hmem)
  short := Nat.lt_of_le_of_lt (utf8ByteSize_le_of_sublist (splitPath_sublist path)) h.short
  shortNames name hname := by
    refine h.shortNames name ?_
    rw [names_splitPath path]
    exact List.mem_append_left _ hname
  start := by
    rw [startOf_splitPath]
    exact h.start
  way place hplace := by
    refine h.way place ?_
    rw [startOf_splitPath] at hplace
    rw [names_splitPath path, passed_append]
    exact List.mem_append_left _ hplace

private theorem Makes.of_changes {directories : List Location} {t t' : FileTree} {path : List Char}
    (h : Makes t path) (hchanges : Changes [] directories t t') : Makes t' path where
  nonempty := h.nonempty
  clean := h.clean
  short := h.short
  shortNames := h.shortNames
  start := by
    rw [hchanges.startOf]
    exact hchanges.directoryStays _ h.start
  way place hplace content hfile := by
    rw [hchanges.startOf] at hplace
    rcases hchanges.kept place (List.not_mem_nil) with hsame | ⟨-, hdir, -⟩
    · exact h.way place hplace content (hsame ▸ hfile)
    · rw [hdir] at hfile
      cases hfile

theorem foldl_follow_eq_directory {t : FileTree} {here : Location} {names : List String}
    (hhere : t.entry? here = some .directory)
    (hpassed : ∀ place ∈ passed here names, t.entry? place = some .directory) :
    t.entry? (names.foldl follow here) = some .directory := by
  by_cases h : names = []
  · rw [h]
    exact hhere
  · exact hpassed _ (foldl_follow_mem_passed here h)

/-- The name at the end of a path leads one place further at most. -/
theorem names_splitPath_snd (path : List Char) :
    names (splitPath path).2 = [] ∨
      names (splitPath path).2 = [String.ofList (splitPath path).2] := by
  have hname : '/' ∉ (splitPath path).2 := by
    unfold splitPath
    split <;> exact slash_not_mem_nameOf _
  rw [names_of_no_slash hname]
  split
  · exact Or.inl rfl
  · exact Or.inr rfl

private theorem Makes.last {t : FileTree} {path : List Char} (h : Makes t path)
    (hfront : ∀ place ∈ passed (t.startOf path) (names (splitPath path).1),
      t.entry? place = some .directory) :
    (t.ensureDirectory (String.ofList path)).1 = .ok () ∧
      ∀ place ∈ passed (t.startOf path) (names path),
        FileTree.entry? (t.ensureDirectory (String.ofList path)).2 place = some .directory := by
  have hnames := names_splitPath path
  have hmiddle := foldl_follow_eq_directory h.start hfront
  have hopenFront := isOpen_of_passed h.start hfront fun name hname =>
    h.shortNames name (hnames ▸ List.mem_append_left _ hname)
  have hopen : t.IsOpen (t.startOf path) (names path) := by
    rw [hnames, isOpen_append]
    refine ⟨hopenFront, ?_⟩
    rcases names_splitPath_snd path with hnone | hone
    · rw [hnone]
      trivial
    · rw [hone]
      exact ⟨hmiddle, h.shortNames _ (by rw [hnames, hone]; simp), trivial⟩
  have hlocate : t.locate (String.ofList path) = .ok (t.placeOf (String.ofList path)) := by
    rw [locate_eq_ok_iff]
    refine ⟨rfl, by simpa using h.nonempty, h.short, ?_⟩
    simpa only [String.toList_ofList] using hopen
  have hend : t.placeOf (String.ofList path) = (names path).foldl follow (t.startOf path) := by
    simp only [placeOf, String.toList_ofList]
  have hnotFile : ∀ content, t.entry? (t.placeOf (String.ofList path)) ≠ some (.file content) := by
    intro content hfile
    rw [hend] at hfile
    by_cases hnil : names path = []
    · rw [hnil, List.foldl_nil, h.start] at hfile
      cases hfile
    · exact h.way _ (foldl_follow_mem_passed _ hnil) content hfile
  obtain ⟨hok, hmade⟩ := ensureDirectory_ok (by simpa using h.clean) hlocate hnotFile
  refine ⟨hok, fun place hplace => ?_⟩
  rw [hnames, passed_append, List.mem_append] at hplace
  rcases hplace with hplace | hplace
  · exact (changes_ensureDirectory t path).directoryStays _ (hfront place hplace)
  · rcases names_splitPath_snd path with hnone | hone
    · rw [hnone] at hplace
      cases hplace
    · rw [hone, passed, passed, List.mem_singleton] at hplace
      rw [hend, hnames, List.foldl_append, hone] at hmade
      rw [hplace]
      exact hmade

private theorem nameOf_dropSlashes_ne_nil {path : List Char} (h : path.all (· == '/') = false) :
    nameOf (dropSlashes path) ≠ [] := by
  have hne : path.reverse.dropWhile (· == '/') ≠ [] := by
    intro hnil
    rw [List.dropWhile_eq_nil_iff] at hnil
    have : path.all (· == '/') = true :=
      List.all_eq_true.mpr fun c hc => hnil c (List.mem_reverse.mpr hc)
    rw [this] at h
    cases h
  have hhead := List.head_dropWhile_not (p := (· == '/')) (l := path.reverse) hne
  unfold nameOf dropSlashes
  rw [if_neg (by simp [h]), List.reverse_reverse]
  cases hdrop : path.reverse.dropWhile (· == '/') with
  | nil => exact absurd hdrop hne
  | cons c rest =>
      simp only [hdrop, List.head_cons] at hhead
      have hc : (c != '/') = true := by simpa using hhead
      simp [hc]

/-- A path without a name at its end leads nowhere, it has only slashes. -/
theorem names_splitPath_fst_of_snd {path : List Char} (h : (splitPath path).2 = []) :
    names (splitPath path).1 = [] := by
  unfold splitPath at h ⊢
  split
  · rename_i hname
    rw [if_pos hname] at h
    have hslashes : (beforeName path).all (· == '/') = true := by
      cases hall : (beforeName path).all (· == '/') with
      | true => rfl
      | false => exact absurd h (nameOf_dropSlashes_ne_nil hall)
    have hnone : names (directoryOf path) = [] := by
      rw [directoryOf, names_dropSlashes]
      exact names_of_slashes hslashes
    rw [names_eq_append] at hnone
    exact (List.append_eq_nil_iff.mp hnone).1
  · rename_i hname
    rw [if_neg hname] at h
    exact absurd (List.isEmpty_iff.mpr h) hname

/-- Whatever is found at the end of a way, the way is there. -/
private theorem Makes.front_of_exists {t : FileTree} {path : List Char} (h : Makes t path)
    (hexists : t.exists? (String.ofList path) = true) :
    ∀ place ∈ passed (t.startOf path) (names path), t.entry? place = some .directory := by
  obtain ⟨e, hlocate, hentry⟩ := exists?_eq_true (by simpa using h.clean) hexists
  obtain ⟨-, -, -, hopen⟩ := (locate_eq_ok_iff t _ _).mp hlocate
  simp only [String.toList_ofList] at hopen
  have hdot : ".".utf8ByteSize ≤ maxNameBytes := by decide
  refine passed_of_isOpen "." ((isOpen_append t _ _ _).mpr ⟨hopen, ?_, hdot, trivial⟩)
  simp only [placeOf, String.toList_ofList] at hentry
  by_cases hnil : names path = []
  · rw [hnil]
    exact h.start
  · cases e with
    | directory => exact hentry
    | file content => exact absurd hentry (h.way _ (foldl_follow_mem_passed _ hnil) content)

theorem Makes.made {t : FileTree} {path : List Char} (h : Makes t path) :
    (t.makeDirectories path).1 = .ok () ∧
      ∀ place ∈ passed (t.startOf path) (names path),
        FileTree.entry? (t.makeDirectories path).2 place = some .directory := by
  rw [makeDirectories]
  split
  · rename_i hmissing
    obtain ⟨hok, hfront⟩ := (h.split hmissing.1).made
    have hchanges := (changes_makeDirectories t (splitPath path).1).mono (List.Subset.refl _)
      (List.subset_append_left _ [])
    have hlast := (h.of_changes hchanges).last
    rw [hchanges.startOf] at hlast
    rw [startOf_splitPath] at hfront
    cases hrun : t.makeDirectories (splitPath path).1 with
    | mk made t' =>
        simp only [hrun] at hok hfront hlast hchanges ⊢
        subst hok
        simp only
        split
        · rename_i hdot
          refine ⟨rfl, fun place hplace => ?_⟩
          have hstart := hchanges.directoryStays _ h.start
          rw [names_splitPath path, hdot, passed_append, List.mem_append] at hplace
          rcases hplace with hplace | hplace
          · exact hfront place hplace
          · have hhere : names ['.'] = ["."] := by decide
            rw [hhere, passed, passed, List.mem_singleton, follow, if_pos rfl] at hplace
            rw [hplace]
            exact foldl_follow_eq_directory hstart hfront
        · exact hlast hfront
  · rename_i hthere
    apply h.last
    intro place hplace
    by_cases hfirst : (splitPath path).1 = []
    · rw [hfirst] at hplace
      cases hplace
    · by_cases hsecond : (splitPath path).2 = []
      · rw [names_splitPath_fst_of_snd hsecond] at hplace
        cases hplace
      · have hexists : t.exists? (String.ofList (splitPath path).1) = true := by
          cases hthere' : t.exists? (String.ofList (splitPath path).1) with
          | true => rfl
          | false => exact absurd ⟨hfirst, hsecond, hthere'⟩ hthere
        rw [← startOf_splitPath] at hplace
        exact (h.split hfirst).front_of_exists hexists place hplace
termination_by path.length
decreasing_by
  rename_i hmissing
  exact length_splitPath_lt hmissing.2.1

theorem openForWriting_eq_ok {t t' : FileTree} {path : String} {place : Location}
    (h : t.openForWriting path = .ok (place, t')) :
    path.toList.contains '\x00' = false ∧ asksForDirectory path = false ∧
      t.locate path = .ok (t.placeOf path) ∧ t.entry? (t.placeOf path) ≠ some .directory ∧
      place = t.placeOf path ∧ t' = t.put (t.placeOf path) (.file []) := by
  cases hclean : path.toList.contains '\x00' with
  | true =>
      rw [openForWriting_of_nul hclean] at h
      cases h
  | false =>
      rw [openForWriting_eq hclean] at h
      cases hlocate : t.locate path with
      | error trouble =>
          rw [hlocate] at h
          cases h
      | ok located =>
          obtain rfl := ((locate_eq_ok_iff t path located).mp hlocate).1
          simp only [hlocate] at h
          split at h
          · cases h
          · rename_i hasks
            split at h
            · cases h
            · rename_i hdir
              cases h
              exact ⟨rfl, by simpa using hasks, rfl, hdir, rfl, rfl⟩

/-- A path that can be a file's ends in a name. -/
theorem nameOf_ne_nil_of_file {path : String} (hne : path.isEmpty = false)
    (hasks : asksForDirectory path = false) : nameOf path.toList ≠ [] := by
  refine nameOf_ne_nil ?_ (by simpa [asksForDirectory] using hasks)
  intro hnil
  rw [String.toList_eq_nil_iff.mp hnil] at hne
  cases hne

/-- The way to an open file is there. -/
theorem parents_of_locate {t : FileTree} {path : String}
    (hasks : asksForDirectory path = false) (hlocate : t.locate path = .ok (t.placeOf path)) :
    ∀ place ∈ t.parentsOf path, t.entry? place = some .directory := by
  obtain ⟨-, hne, -, hopen⟩ := (locate_eq_ok_iff t _ _).mp hlocate
  rw [names_eq_append, names_of_nameOf (nameOf_ne_nil_of_file hne hasks)] at hopen
  exact passed_of_isOpen _ hopen

theorem opens_of_locate {t : FileTree} {path : String}
    (hclean : path.toList.contains '\x00' = false) (hasks : asksForDirectory path = false)
    (hlocate : t.locate path = .ok (t.placeOf path))
    (hentry : t.entry? (t.placeOf path) ≠ some .directory) : t.Opens path := by
  obtain ⟨-, hne, hshort, hopen⟩ := (locate_eq_ok_iff t _ _).mp hlocate
  have hparents := parents_of_locate hasks hlocate
  refine ⟨hclean, hne, hasks, hshort, ?_, ?_, hentry, ?_⟩
  · exact shortNames_of_isOpen hopen
  · intro place hplace content hfile
    rw [hparents place hplace] at hfile
    cases hfile
  · exact fun hmem => hentry (hparents _ hmem)

end FileTree

namespace TextFile

open FileTree

theorem changes_makeParents (t : FileTree) (path : String) :
    Changes [] (t.parentsOf path) t (makeParents t path).2 := by
  simp only [makeParents]
  split
  · exact Changes.refl _ _ _
  · have h := changes_makeDirectories t (Path.directoryOf path.toList)
    have hstart : t.startOf (Path.directoryOf path.toList) = t.startOf path.toList := by
      simp only [startOf, Path.head?_directoryOf]
    rw [hstart] at h
    exact h

theorem entry?_startOf {t : FileTree}
    (hworking : t.entry? t.workingDirectory = some .directory) (path : List Char) :
    t.entry? (t.startOf path) = some .directory := by
  unfold startOf
  split
  · rfl
  · exact hworking

private theorem makeParents_of_opens {t : FileTree} {path : String}
    (hstart : t.entry? (t.startOf path.toList) = some .directory) (h : t.Opens path) :
    (makeParents t path).1 = .ok () ∧
      ∀ place ∈ t.parentsOf path,
        FileTree.entry? (makeParents t path).2 place = some .directory := by
  simp only [makeParents, parentsOf]
  split
  · rename_i hempty
    rw [List.isEmpty_iff.mp hempty]
    exact ⟨rfl, fun place hplace => absurd hplace List.not_mem_nil⟩
  · rename_i hne
    have hsame : t.startOf (Path.directoryOf path.toList) = t.startOf path.toList := by
      simp only [startOf, Path.head?_directoryOf]
    have hsub := Path.sublist_directoryOf path.toList
    have hmakes : Makes t (Path.directoryOf path.toList) := by
      refine ⟨?_, ?_, ?_, ?_, by rw [hsame]; exact hstart, ?_⟩
      · exact fun hnil => hne (List.isEmpty_iff.mpr hnil)
      · intro hmem
        have := h.clean
        simp [hsub.subset hmem] at this
      · have := utf8ByteSize_le_of_sublist hsub
        rw [String.ofList_toList] at this
        exact Nat.lt_of_le_of_lt this h.short
      · intro name hname
        refine h.shortNames name ?_
        rw [Path.names_eq_append]
        exact List.mem_append_left _ hname
      · rw [hsame]
        exact h.way
    have hmade := hmakes.made
    rwa [hsame] at hmade

/-- A path that opens is opened, once its directories are made. -/
theorem openForWriting_of_opens {t : FileTree} {path : String}
    (hstart : t.entry? (t.startOf path.toList) = some .directory) (h : t.Opens path) :
    (makeParents t path).1 = .ok () ∧
      ∃ opened, (makeParents t path).2.openForWriting path = .ok opened := by
  obtain ⟨hok, hparents⟩ := makeParents_of_opens hstart h
  have hchanges := changes_makeParents t path
  refine ⟨hok, ?_⟩
  generalize (makeParents t path).2 = t₁ at hparents hchanges
  have hname := nameOf_ne_nil_of_file h.nonempty h.file
  have hstart := hchanges.directoryStays _ hstart
  have hfront := isOpen_of_passed hstart hparents fun name hname =>
    h.shortNames name (by rw [Path.names_eq_append]; exact List.mem_append_left _ hname)
  have hopen : t₁.IsOpen (t₁.startOf path.toList) (Path.names path.toList) := by
    rw [hchanges.startOf, Path.names_eq_append, isOpen_append]
    refine ⟨hfront, ?_⟩
    have hlast := h.shortNames (String.ofList (Path.nameOf path.toList)) (by
      rw [Path.names_eq_append, Path.names_of_nameOf hname]
      simp)
    rw [Path.names_of_nameOf hname]
    exact ⟨foldl_follow_eq_directory hstart hparents, hlast, trivial⟩
  have hlocate : t₁.locate path = .ok (t.placeOf path) :=
    (locate_eq_ok_iff _ _ _).mpr ⟨(hchanges.placeOf path).symm, h.nonempty, h.short, hopen⟩
  have hending : t₁.entry? (t.placeOf path) ≠ some .directory := by
    rcases hchanges.kept (t.placeOf path) List.not_mem_nil with hsame | ⟨-, -, hmem⟩
    · rw [hsame]
      exact h.ending
    · exact absurd hmem h.once
  rw [openForWriting_eq h.clean, hlocate]
  simp only [h.file, hending, Bool.false_eq_true, if_false]
  exact ⟨_, rfl⟩

end TextFile

end MediaSplit
