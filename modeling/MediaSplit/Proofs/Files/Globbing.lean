import MediaSplit.Files.Selection
import MediaSplit.Proofs.Files.Opening

/-!
Which values name paths. No name in a tree of files has a null character, so a pattern without one
can be matched against the tree: nothing it is followed to has one either. A value that names paths
is one such pattern, or a row of paths and patterns.
-/

namespace MediaSplit

/-- That no name in a tree has a null character, as no file system lets one have it. -/
def FileTree.HasCleanNames (t : FileTree) : Prop :=
  ∀ entry ∈ t.entries, ∀ name ∈ entry.1, '\x00' ∉ name.toList

namespace Glob

/-- That matching gives paths, and paths without a null character. -/
def Finds (result : Except PathFault (List (List Char))) : Prop :=
  ∃ found, result = .ok found ∧ ∀ path ∈ found, '\x00' ∉ path

theorem mem_of_below? {base place rest : Location} (h : FileTree.below? base place = some rest) :
    ∀ name ∈ rest, name ∈ place := by
  induction base generalizing place with
  | nil =>
      cases h
      exact fun _ hname => hname
  | cons first base ih =>
      cases place with
      | nil => cases h
      | cons first' place =>
          simp only [FileTree.below?] at h
          split at h
          · exact fun name hname => List.mem_cons_of_mem _ (ih h name hname)
          · cases h

/-- Between slashes there is nothing that is in none of the names. -/
theorem not_mem_intercalate {c : Char} (hc : c ≠ '/') {names : List (List Char)}
    (h : ∀ name ∈ names, c ∉ name) : c ∉ ['/'].intercalate names := by
  induction names with
  | nil => simp
  | cons name rest ih =>
      obtain ⟨hname, hrest⟩ := List.forall_mem_cons.mp h
      cases rest with
      | nil => simpa using hname
      | cons next rest =>
          rw [List.intercalate_cons_cons]
          simp [hname, hc, ih hrest]

theorem clean_intercalate {names : List (List Char)} (h : ∀ name ∈ names, '\x00' ∉ name) :
    '\x00' ∉ ['/'].intercalate names :=
  not_mem_intercalate (by decide) h

theorem clean_join {directory name : List Char} (hdirectory : '\x00' ∉ directory)
    (hname : '\x00' ∉ name) : '\x00' ∉ Path.join directory name := by
  unfold Path.join
  split
  · exact hname
  · split
    · simp [hdirectory, hname]
    · simp [hdirectory, hname]

theorem clean_nameOf {path : List Char} (h : '\x00' ∉ path) : '\x00' ∉ Path.nameOf path := by
  intro hmem
  apply h
  rw [← Path.beforeName_append_nameOf path]
  exact List.mem_append_right _ hmem

section Names

variable {t : FileTree}

theorem clean_of_listing (ht : t.HasCleanNames) {place : Location} {entry : String × Entry}
    (h : entry ∈ t.listing place) : '\x00' ∉ entry.1.toList := by
  obtain ⟨⟨whole, e⟩, hwhole, hbelow⟩ := List.mem_filterMap.mp h
  simp only at hbelow
  split at hbelow
  · rename_i name heq
    cases hbelow
    exact ht _ hwhole name (mem_of_below? heq name List.mem_cons_self)
  · cases hbelow

theorem clean_of_descendants (ht : t.HasCleanNames) {place : Location} {entry : Location × Entry}
    (h : entry ∈ t.descendants place) : ∀ name ∈ entry.1, '\x00' ∉ name.toList := by
  obtain ⟨⟨whole, e⟩, hwhole, hbelow⟩ := List.mem_filterMap.mp h
  simp only at hbelow
  split at hbelow
  · rename_i name names heq
    cases hbelow
    intro other hother
    exact ht _ hwhole other (mem_of_below? heq other hother)
  · cases hbelow

theorem exists_placeOf? (t : FileTree) {directory : List Char} (h : '\x00' ∉ directory) :
    ∃ place, placeOf? t directory = .ok place := by
  unfold placeOf?
  rw [if_neg (by simpa using h)]
  split
  · exact ⟨_, rfl⟩
  · exact ⟨_, rfl⟩

theorem finds_matchingNames (ht : t.HasCleanNames) {directory : List Char}
    (h : '\x00' ∉ directory) (part : List Char) (onlyDirectories : Bool) :
    Finds (matchingNames t directory part onlyDirectories) := by
  obtain ⟨place, hplace⟩ := exists_placeOf? t h
  unfold matchingNames
  simp only [hplace, bind, Except.bind]
  cases place with
  | none => exact ⟨[], rfl, by simp⟩
  | some place =>
      refine ⟨_, rfl, fun path hpath => ?_⟩
      obtain ⟨entry, hentry, hkept⟩ := List.mem_filterMap.mp hpath
      have hclean := clean_of_listing ht hentry
      split at hkept
      · cases hkept
      · split at hkept
        · rwa [← Option.some.inj hkept]
        · cases hkept

theorem finds_anythingInside (ht : t.HasCleanNames) {directory : List Char}
    (h : '\x00' ∉ directory) (onlyDirectories : Bool) :
    Finds (anythingInside t directory onlyDirectories) := by
  obtain ⟨place, hplace⟩ := exists_placeOf? t h
  unfold anythingInside
  simp only [hplace, bind, Except.bind]
  cases place with
  | none => exact ⟨[[]], rfl, by simp⟩
  | some place =>
      refine ⟨_, rfl, List.forall_mem_cons.mpr ⟨List.not_mem_nil, fun path hpath => ?_⟩⟩
      obtain ⟨entry, hentry, hkept⟩ := List.mem_filterMap.mp hpath
      have hclean := clean_of_descendants ht hentry
      split at hkept
      · cases hkept
      · split at hkept
        · cases hkept
        · rw [← Option.some.inj hkept]
          apply clean_intercalate
          intro name hname
          obtain ⟨name', hname', rfl⟩ := List.mem_map.mp hname
          exact hclean name' hname'

theorem finds_namesInside (ht : t.HasCleanNames) {directory part : List Char}
    (h : '\x00' ∉ directory) (hpart : '\x00' ∉ part) (onlyDirectories : Bool) :
    Finds (namesInside t directory part onlyDirectories) := by
  unfold namesInside
  split
  · exact finds_anythingInside ht h onlyDirectories
  · split
    · exact finds_matchingNames ht h part onlyDirectories
    · refine ⟨_, rfl, fun path hpath => ?_⟩
      have hsame : path = part := by
        unfold literalName at hpath
        split at hpath <;> split at hpath <;> simp at hpath <;> exact hpath
      rwa [hsame]

/-- Going through directories, with clean names found in each of them. -/
theorem finds_flatten {directories : List (List Char)} {step : List Char →
    Except PathFault (List (List Char))} (h : ∀ directory ∈ directories, Finds (step directory)) :
    ∃ found, directories.mapM step = .ok found ∧ ∀ path ∈ found.flatten, '\x00' ∉ path := by
  induction directories with
  | nil => exact ⟨[], rfl, by simp⟩
  | cons directory rest ih =>
      obtain ⟨hfirst, hrest⟩ := List.forall_mem_cons.mp h
      obtain ⟨names, hnames, hclean⟩ := hfirst
      obtain ⟨found, hfound, hothers⟩ := ih hrest
      refine ⟨names :: found, ?_, ?_⟩
      · simp only [List.mapM_cons, hnames, hfound]
        rfl
      · rw [List.flatten_cons]
        exact List.forall_mem_append.mpr ⟨hclean, hothers⟩

/-- The last part of a pattern, looked for in all directories that the parts before it led to. -/
theorem finds_inAll (ht : t.HasCleanNames) {name : List Char} (hname : '\x00' ∉ name)
    (onlyDirectories : Bool) {directories : List (List Char)}
    (h : ∀ directory ∈ directories, '\x00' ∉ directory) :
    Finds (do
      let found ← directories.mapM fun d => do
        let names ← namesInside t d name onlyDirectories
        .ok (names.map (Path.join d))
      .ok found.flatten) := by
  have hstep : ∀ d ∈ directories, Finds (do
      let names ← namesInside t d name onlyDirectories
      .ok (names.map (Path.join d))) := by
    intro d hd
    obtain ⟨names, hnames, hinside⟩ := finds_namesInside ht (h d hd) hname onlyDirectories
    refine ⟨names.map (Path.join d), ?_, ?_⟩
    · rw [hnames]
      rfl
    · intro path hpath
      obtain ⟨name, hmem, rfl⟩ := List.mem_map.mp hpath
      exact clean_join (h d hd) (hinside name hmem)
  obtain ⟨found, hfound, hclean⟩ := finds_flatten hstep
  refine ⟨found.flatten, ?_, hclean⟩
  rw [hfound]
  rfl

theorem finds_candidates (ht : t.HasCleanNames) {path : List Char} (h : '\x00' ∉ path)
    (onlyDirectories : Bool) : Finds (candidates t onlyDirectories path) := by
  have hdirectory : '\x00' ∉ Path.directoryOf path := fun hmem =>
    h ((Path.sublist_directoryOf path).subset hmem)
  have hname := clean_nameOf h
  rw [candidates]
  simp only
  split
  · refine ⟨_, rfl, fun found hfound => ?_⟩
    have hsame : found = path := by
      split at hfound <;> split at hfound <;> simp at hfound <;> exact hfound
    rwa [hsame]
  · split
    · exact finds_namesInside ht List.not_mem_nil hname onlyDirectories
    · split
      · rename_i hshorter
        obtain ⟨directories, hfound, hclean⟩ := finds_candidates ht hdirectory true
        rw [hfound]
        exact finds_inAll ht hname onlyDirectories hclean
      · exact finds_inAll ht hname onlyDirectories (by simpa using hdirectory)
termination_by path.length
decreasing_by
  rename_i hshorter
  exact hshorter.1

theorem exists_expand (ht : t.HasCleanNames) {pattern : String} (h : '\x00' ∉ pattern.toList) :
    ∃ paths, expand t pattern = .ok paths := by
  obtain ⟨found, hfound, -⟩ := finds_candidates ht h false
  unfold expand
  simp only [hfound, bind, Except.bind]
  exact ⟨_, rfl⟩

end Names

end Glob

/-- That a value names paths: nothing, a pattern, or a row of paths and patterns, where no text has a
null character. -/
inductive Value.NamesPaths : Value → Prop where
  | nothing : NamesPaths .null
  | pattern {text : String} (clean : '\x00' ∉ text.toList) : NamesPaths (.text text)
  | row {v : Value} {items : List Value} (among : v.items? = some items)
      (clean : ∀ item ∈ items, ∃ text, item = .text text ∧ '\x00' ∉ text.toList) : NamesPaths v

/-- The characters of a text are a row, too. -/
theorem Value.NamesPaths.clean {text : String} (h : (Value.text text).NamesPaths) :
    '\x00' ∉ text.toList := by
  cases h with
  | pattern clean => exact clean
  | row among clean =>
      intro hmem
      cases among
      obtain ⟨text', heq, hclean⟩ := clean _ (List.mem_map.mpr ⟨'\x00', hmem, rfl⟩)
      cases heq
      exact hclean (by simp)

namespace Selection

variable {t : FileTree}

theorem exists_expandItem (ht : t.HasCleanNames) (onlyExisting : Bool) {text : String}
    (h : '\x00' ∉ text.toList) : ∃ paths, expandItem t onlyExisting (.text text) = .ok paths := by
  obtain ⟨paths, hpaths⟩ := Glob.exists_expand ht h
  simp only [expandItem, expandPattern]
  split
  · exact ⟨paths, by rw [hpaths]⟩
  · exact ⟨_, rfl⟩

theorem exists_expandItems (ht : t.HasCleanNames) (onlyExisting : Bool) {items : List Value}
    (h : ∀ item ∈ items, ∃ text, item = .text text ∧ '\x00' ∉ text.toList)
    (paths : List String) : ∃ paths', expandItems t onlyExisting paths items = .ok paths' := by
  induction items generalizing paths with
  | nil => exact ⟨paths, rfl⟩
  | cons item rest ih =>
      obtain ⟨⟨text, rfl, hclean⟩, hrest⟩ := List.forall_mem_cons.mp h
      obtain ⟨more, hmore⟩ := exists_expandItem ht onlyExisting hclean
      obtain ⟨paths', hpaths'⟩ := ih hrest (addNew paths more)
      refine ⟨paths', ?_⟩
      simp only [expandItems, hmore, bind, Except.bind]
      exact hpaths'

theorem exists_expand (ht : t.HasCleanNames) (onlyExisting : Bool) {v : Value} (h : v.NamesPaths) :
    ∃ paths, expand t onlyExisting v = .ok paths := by
  unfold expand
  split
  · exact ⟨[], rfl⟩
  · obtain ⟨paths, hpaths⟩ := Glob.exists_expand ht h.clean
    exact ⟨paths, by rw [expandPattern, hpaths]⟩
  · rename_i hnull htext
    cases h with
    | nothing => exact absurd rfl hnull
    | pattern clean => exact absurd rfl (htext _)
    | row among clean =>
        rw [among]
        exact exists_expandItems ht onlyExisting clean []

theorem exists_judgeAll (ht : t.HasCleanNames) {source ignore : Value} (hsource : source.NamesPaths)
    (hignore : ignore.NamesPaths) (dest suffix : String) :
    ∃ judged, judgeAll t source ignore dest suffix = .ok judged := by
  obtain ⟨paths, hpaths⟩ := exists_expand ht false hsource
  obtain ⟨ignored, hignored⟩ := exists_expand ht true hignore
  unfold judgeAll
  simp only [hpaths, hignored, bind, Except.bind]
  exact ⟨_, rfl⟩

end Selection

end MediaSplit
