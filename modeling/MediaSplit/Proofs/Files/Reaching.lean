import MediaSplit.Proofs.Files.Matching

/-!
By how many ways a pattern comes to an entry. Each part of a pattern leads down from the directories
that the parts before it have led to, a double star by any number of names and every other part by
the same number of names everywhere. So a pattern comes to an entry in one way only, unless it has
two double stars or goes up behind a part that leads to several directories.
-/

namespace MediaSplit

namespace Path

/-- What is no slash in a path is in one of its names. -/
theorem exists_name_of_mem {path : List Char} {c : Char} (hc : c ≠ '/') (h : c ∈ path) :
    ∃ name ∈ names path, c ∈ name.toList := by
  by_contra hnone
  have hparts : ∀ part ∈ parts path, c ∉ part := by
    intro part hpart hmem
    refine hnone ⟨String.ofList part, List.mem_map_of_mem (List.mem_filter.mpr ⟨hpart, ?_⟩), ?_⟩
    · simpa using List.ne_nil_of_mem hmem
    · rwa [String.toList_ofList]
  have hwhole : ['/'].intercalate (parts path) = path := List.intercalate_splitOn '/'
  rw [← hwhole] at h
  exact Glob.not_mem_intercalate hc hparts h

/-- A part of a path is its only name. -/
theorem mem_names_iff {part : List Char} {name : String} (h : '/' ∉ part) (hne : name ≠ "") :
    name ∈ names part ↔ part = name.toList := by
  have hsame : name = String.ofList part ↔ part = name.toList := by
    rw [← String.toList_inj, String.toList_ofList, eq_comm]
  rw [names_of_no_slash h, ← hsame]
  split
  · rename_i hempty
    simpa [List.isEmpty_iff.mp hempty] using hne
  · exact List.mem_singleton

theorem head?_ne_of_not_mem {part : List Char} (h : '/' ∉ part) : part.head? ≠ some '/' :=
  fun hhead => h (List.mem_of_mem_head? hhead)

theorem mem_of_mem_name {path : List Char} {name : String} {c : Char} (hname : name ∈ names path)
    (h : c ∈ name.toList) : c ∈ path := by
  obtain ⟨part, hpart, rfl⟩ := List.mem_map.mp hname
  rw [String.toList_ofList] at h
  exact mem_of_mem_parts (List.mem_of_mem_filter hpart) h

end Path

/-- A path is a pattern if one of its names is. -/
theorem Pattern.isMagic_iff {path : List Char} :
    isMagic path = true ↔ ∃ name ∈ Path.names path, isMagic name.toList = true := by
  simp only [isMagic, List.any_eq_true]
  constructor
  · rintro ⟨c, hc, hmagic⟩
    have hslash : c ≠ '/' := by
      rintro rfl
      cases hmagic
    obtain ⟨name, hname, hmem⟩ := Path.exists_name_of_mem hslash hc
    exact ⟨name, hname, c, hmem, hmagic⟩
  · rintro ⟨name, hname, c, hmem, hmagic⟩
    exact ⟨c, Path.mem_of_mem_name hname hmem, hmagic⟩

namespace Glob

open FileTree MediaSplit.Path

variable {t : FileTree} {directory part found path : List Char} {onlyDirectories : Bool}
  {directories : List (List Char)}

/-- Where a path that is matched leads. The empty one leads to the working directory. -/
def reach (t : FileTree) (path : List Char) : Location :=
  t.placeOf (String.ofList path)

/-- A path below a directory leads on from there. -/
theorem reach_join (t : FileTree) (directory : List Char) (h : found.head? ≠ some '/') :
    reach t (join directory found) = (names found).foldl FileTree.follow (reach t directory) :=
  t.placeOf_ofList_join directory h

/-- The number of names by which a part of a pattern leads down, if it is no double star. -/
def depthOf (part : List Char) : Nat :=
  ((names part).filter (· ≠ ".")).length

theorem depthOf_of_isMagic (hpart : '/' ∉ part) (hmagic : Pattern.isMagic part = true) :
    depthOf part = 1 := by
  have hne : part ≠ [] := by
    rintro rfl
    cases hmagic
  have hdot : String.ofList part ≠ "." := by
    intro heq
    have hchars : part = ['.'] := by simpa using congrArg String.toList heq
    rw [hchars] at hmagic
    cases hmagic
  rw [depthOf, names_of_no_slash hpart, if_neg (by simpa using hne)]
  simp [hdot]

/-- An entry that is matched is the one that is come to, by way of the names that lead to it. -/
theorem reach_of_picked (hnames : t.HasNames) {kind : Location × Bool} (hkind : kind ∈ t.kinds)
    (h : picked (t.placeOf (listed directory)) part onlyDirectories kind = some found) :
    reach t (join directory found) = kind.1 ∧
      ∃ way, way ≠ [] ∧ kind.1 = reach t directory ++ way := by
  obtain ⟨way, hne, hway, hplace, rfl⟩ := exists_way_of_picked hnames hkind h
  rw [placeOf_listed] at hplace
  rw [reach, placeOf_join t directory hway]
  exact ⟨hplace.symm, way, hne, hplace⟩

theorem length_of_picked {place : Location} {kind : Location × Bool} (hpart : part ≠ anyDepth)
    (h : picked place part onlyDirectories kind = some found) :
    kind.1.length = place.length + 1 := by
  rw [picked, if_neg hpart] at h
  unfold matched at h
  split at h
  · rename_i name hbelow
    rw [eq_append_of_below? hbelow, List.length_append, List.length_singleton]
  · cases h

/-- The names of one part of a pattern lead down. -/
theorem foldl_follow_names (hpart : '/' ∉ part) (hup : part ≠ ['.', '.']) (here : Location) :
    (names part).foldl FileTree.follow here = here ++ (names part).filter (· ≠ ".") := by
  rw [names_of_no_slash hpart]
  split
  · exact (List.append_nil here).symm
  · have hup' : String.ofList part ≠ ".." := fun heq =>
      hup (by simpa using congrArg String.toList heq)
    by_cases hstay : String.ofList part = "." <;> simp [FileTree.follow, hstay, hup']

/-- A part leads down from a directory, and as far from each if it is no double star. -/
theorem reach_of_mem_inside (hnames : t.HasNames) (hpart : '/' ∉ part) (hup : part ≠ ['.', '.'])
    (h : found ∈ inside t directory part onlyDirectories) :
    ∃ way, reach t (join directory found) = reach t directory ++ way ∧
      (part ≠ anyDepth → way.length = depthOf part) := by
  unfold inside at h
  split at h
  · rename_i hmagic
    rcases List.mem_append.mp h with hself | hbelow
    · split at hself
      · rename_i hdeep
        obtain rfl := List.mem_singleton.mp hself
        refine ⟨[], ?_, fun hnot => absurd hdeep hnot⟩
        rw [reach_join t directory (by simp), List.append_nil]
        rfl
      · cases hself
    · split at hbelow
      · obtain ⟨kind, hkind, hpicked⟩ := List.mem_filterMap.mp hbelow
        obtain ⟨hreach, way, -, hway⟩ := reach_of_picked hnames hkind hpicked
        refine ⟨way, hreach.trans hway, fun hnot => ?_⟩
        have hlength := length_of_picked hnot hpicked
        rw [placeOf_listed, hway, List.length_append, reach] at hlength
        rw [depthOf_of_isMagic hpart hmagic]
        omega
      · cases hbelow
  · obtain rfl := eq_of_mem_literalName h
    refine ⟨(names found).filter (· ≠ "."), ?_, fun _ => rfl⟩
    rw [reach_join t directory (head?_ne_of_not_mem hpart), foldl_follow_names hpart hup]

/-- That the paths that are matched lead to different places. -/
def AreDistinct (t : FileTree) (found : List (List Char)) : Prop :=
  found.Pairwise fun path other => reach t path ≠ reach t other

/-- That the paths that are matched lead equally deep. -/
def AreLevel (t : FileTree) (found : List (List Char)) : Prop :=
  ∃ depth, ∀ path ∈ found, (reach t path).length = depth

theorem areDistinct_singleton (path : List Char) : AreDistinct t [path] :=
  List.pairwise_singleton _ path

theorem areLevel_singleton (path : List Char) : AreLevel t [path] :=
  ⟨_, List.forall_mem_singleton.mpr rfl⟩

/-- Inside one directory each entry is matched once. -/
theorem areDistinct_inside (hnames : t.HasNames) (hnodup : (Table.keys t.entries).Nodup)
    (directory part : List Char) (onlyDirectories : Bool) :
    AreDistinct t ((inside t directory part onlyDirectories).map (join directory)) := by
  rw [AreDistinct, List.pairwise_map]
  unfold inside
  split
  · rw [List.pairwise_append]
    refine ⟨?_, ?_, ?_⟩
    · split
      · exact List.pairwise_singleton _ _
      · exact List.Pairwise.nil
    · split
      · have hkinds : t.kinds.Pairwise fun kind other => kind.1 ≠ other.1 := by
          rw [kinds, List.pairwise_map]
          exact List.pairwise_map.mp hnodup
        rw [List.pairwise_filterMap]
        refine hkinds.imp_of_mem fun hkind hother hne found hfound found' hfound' heq => hne ?_
        rw [← (reach_of_picked hnames hkind hfound).1, heq,
          (reach_of_picked hnames hother hfound').1]
      · exact List.Pairwise.nil
    · intro found hself found' hbelow heq
      split at hself
      · obtain rfl := List.mem_singleton.mp hself
        split at hbelow
        · obtain ⟨kind, hkind, hpicked⟩ := List.mem_filterMap.mp hbelow
          obtain ⟨hreach, way, hne, hway⟩ := reach_of_picked hnames hkind hpicked
          rw [hreach, hway, reach_join t directory (by simp)] at heq
          exact hne (List.append_right_eq_self.mp heq.symm)
        · cases hbelow
      · cases hself
  · unfold literalName
    split <;> split <;> simp

/-- A part of a pattern keeps ways apart: behind directories that are different it leads to
different places, a double star if the directories are equally deep. -/
theorem areDistinct_insideAll (hnames : t.HasNames) (hnodup : (Table.keys t.entries).Nodup)
    (hpart : '/' ∉ part) (hup : part ≠ ['.', '.']) (h : AreDistinct t directories)
    (hlevel : part = anyDepth → AreLevel t directories) :
    AreDistinct t (insideAll t directories part onlyDirectories) := by
  rw [AreDistinct, insideAll, List.pairwise_flatMap]
  refine ⟨fun directory _ => areDistinct_inside hnames hnodup directory part _, ?_⟩
  refine h.imp_of_mem fun {first second} hfirst hsecond hne path hpath other hother heq => hne ?_
  obtain ⟨found, hfound, rfl⟩ := List.mem_map.mp hpath
  obtain ⟨found', hfound', rfl⟩ := List.mem_map.mp hother
  obtain ⟨way, hway, hdepth⟩ := reach_of_mem_inside hnames hpart hup hfound
  obtain ⟨way', hway', hdepth'⟩ := reach_of_mem_inside hnames hpart hup hfound'
  rw [hway, hway'] at heq
  by_cases hdeep : part = anyDepth
  · obtain ⟨depth, hall⟩ := hlevel hdeep
    exact List.append_inj_left heq ((hall first hfirst).trans (hall second hsecond).symm)
  · exact List.append_inj_left' heq ((hdepth hdeep).trans (hdepth' hdeep).symm)

theorem areLevel_insideAll (hnames : t.HasNames) (hpart : '/' ∉ part) (hup : part ≠ ['.', '.'])
    (hnot : part ≠ anyDepth) (h : AreLevel t directories) :
    AreLevel t (insideAll t directories part onlyDirectories) := by
  obtain ⟨depth, hall⟩ := h
  refine ⟨depth + depthOf part, fun path hpath => ?_⟩
  obtain ⟨directory, hdirectory, hmem⟩ := List.mem_flatMap.mp hpath
  obtain ⟨found, hfound, rfl⟩ := List.mem_map.mp hmem
  obtain ⟨way, hway, hdepth⟩ := reach_of_mem_inside hnames hpart hup hfound
  rw [hway, List.length_append, hall directory hdirectory, hdepth hnot]

/-- That the names of a pattern come to an entry in one way only: of the double stars there is one
at most, and the first name that can stand for several is not followed by one that leads up. -/
structure IsStraight (names : List String) : Prop where
  deep : names.count "**" ≤ 1
  down : ".." ∉ names.dropWhile fun name => !Pattern.isMagic name.toList

instance (names : List String) : Decidable (IsStraight names) :=
  decidable_of_iff (names.count "**" ≤ 1 ∧
      ".." ∉ names.dropWhile fun name => !Pattern.isMagic name.toList)
    ⟨fun h => ⟨h.1, h.2⟩, fun h => ⟨h.deep, h.down⟩⟩

namespace IsStraight

variable {first last : List String}

theorem front (h : IsStraight (first ++ last)) : IsStraight first where
  deep := by
    have hcount := h.deep
    rw [List.count_append] at hcount
    omega
  down := by
    have hdown := h.down
    rw [List.dropWhile_append] at hdown
    split at hdown
    · rename_i hnone
      rw [List.isEmpty_iff.mp hnone]
      exact List.not_mem_nil
    · exact fun hmem => hdown (List.mem_append_left _ hmem)

theorem not_mem_first (h : IsStraight (first ++ last)) (hlast : "**" ∈ last) : "**" ∉ first := by
  intro hfirst
  have hcount := h.deep
  rw [List.count_append] at hcount
  have hone := List.count_pos_iff.mpr hfirst
  have hother := List.count_pos_iff.mpr hlast
  omega

theorem not_mem_last (h : IsStraight (first ++ last))
    (hmagic : ∃ name ∈ first, Pattern.isMagic name.toList = true) : ".." ∉ last := by
  intro hlast
  have hdown := h.down
  rw [List.dropWhile_append] at hdown
  split at hdown
  · rename_i hnone
    obtain ⟨name, hname, hmagic⟩ := hmagic
    have hall := List.dropWhile_eq_nil_iff.mp (List.isEmpty_iff.mp hnone) name hname
    rw [hmagic] at hall
    cases hall
  · exact hdown (List.mem_append_right _ hlast)

end IsStraight

/-- What a straight pattern matches leads to different places; they are equally deep without a
double star. The induction is on the directories that the parts of the pattern lead to. -/
theorem areDistinct_candidates (hnames : t.HasNames) (hnodup : (Table.keys t.entries).Nodup)
    {path : List Char} {onlyDirectories : Bool} {found : List (List Char)}
    (h : candidates t onlyDirectories path = .ok found) (hstraight : IsStraight (names path)) :
    AreDistinct t found ∧ ("**" ∉ names path → AreLevel t found) := by
  cases hmagic : Pattern.isMagic path with
  | false =>
      rcases eq_of_candidates hmagic h with rfl | rfl
      · exact ⟨List.Pairwise.nil, fun _ => ⟨0, List.forall_mem_nil _⟩⟩
      · exact ⟨areDistinct_singleton path, fun _ => areLevel_singleton path⟩
  | true =>
      obtain ⟨directories, rfl, -, hdirectories⟩ := exists_directories hmagic h
      have hsplit := names_eq_append path
      rw [hsplit] at hstraight ⊢
      obtain ⟨hdistinct, hlevel⟩ : AreDistinct t directories ∧
          ("**" ∉ names (directoryOf path) → AreLevel t directories) := by
        rcases hdirectories with rfl | ⟨hshorter, hfound⟩
        · exact ⟨areDistinct_singleton _, fun _ => areLevel_singleton _⟩
        · exact areDistinct_candidates hnames hnodup hfound hstraight.front
      have hname : '/' ∉ nameOf path := slash_not_mem_nameOf path
      have hdeep : "**" ∈ names (nameOf path) ↔ nameOf path = anyDepth :=
        mem_names_iff hname (by decide)
      have hup : nameOf path ≠ ['.', '.'] := by
        intro hdots
        have hlast : ".." ∈ names (nameOf path) := (mem_names_iff hname (by decide)).mpr hdots
        have hplain : ¬ Pattern.isMagic (nameOf path) = true := by
          rw [hdots]
          decide
        rw [Pattern.isMagic_iff, hsplit] at hmagic
        obtain ⟨name, hmem, hmagic⟩ := hmagic
        rcases List.mem_append.mp hmem with hfirst | hmem
        · exact hstraight.not_mem_last ⟨name, hfirst, hmagic⟩ hlast
        · exact hplain (Pattern.isMagic_iff.mpr ⟨name, hmem, hmagic⟩)
      constructor
      · exact areDistinct_insideAll hnames hnodup hname hup hdistinct fun hlast =>
          hlevel (hstraight.not_mem_first (hdeep.mpr hlast))
      · intro hnot
        rw [List.mem_append, not_or] at hnot
        exact areLevel_insideAll hnames hname hup (hdeep.not.mp hnot.2) (hlevel hnot.1)
termination_by path.length

/-- What a pattern gives is what it matches in another order, without the working directory if the
pattern starts with a double star. -/
theorem exists_candidates {pattern : String} {paths : List String}
    (h : expand t pattern = .ok paths) :
    ∃ found, candidates t false pattern.toList = .ok found ∧
      paths.Perm ((withoutHere pattern.toList found).map String.ofList) := by
  unfold expand at h
  cases hfound : candidates t false pattern.toList with
  | error fault =>
      rw [hfound] at h
      cases h
  | ok found =>
      rw [hfound] at h
      obtain rfl := Except.ok.inj h
      exact ⟨found, rfl, List.mergeSort_perm _ _⟩

/-- What is matched in ascending order is given in the order in which it is matched. -/
theorem expand_of_pairwise {pattern : String} {paths : List String}
    (h : (candidates t false pattern.toList).toOption.map
      (fun found => (withoutHere pattern.toList found).map String.ofList) = some paths)
    (hsorted : paths.Pairwise fun path other => decide (path ≤ other) = true) :
    expand t pattern = .ok paths := by
  unfold expand
  cases hfound : candidates t false pattern.toList with
  | error fault =>
      rw [hfound] at h
      cases h
  | ok found =>
      rw [hfound] at h
      have hpaths : (withoutHere pattern.toList found).map String.ofList = paths :=
        Option.some.inj h
      rw [← List.mergeSort_of_pairwise hsorted, ← hpaths]
      rfl

theorem withoutHere_sublist (pattern : List Char) (found : List (List Char)) :
    (withoutHere pattern found).Sublist found := by
  unfold withoutHere
  split
  · exact List.drop_sublist 1 found
  · exact List.Sublist.refl found

/-- A straight pattern gives no file twice. -/
theorem pairwise_expand (hnames : t.HasNames) (hnodup : (Table.keys t.entries).Nodup)
    {pattern : String} {paths : List String} (h : expand t pattern = .ok paths)
    (hstraight : IsStraight (names pattern.toList)) :
    paths.Pairwise fun path other => t.placeOf path ≠ t.placeOf other := by
  obtain ⟨found, hfound, hperm⟩ := exists_candidates h
  obtain ⟨hdistinct, -⟩ := areDistinct_candidates hnames hnodup hfound hstraight
  rw [hperm.pairwise_iff fun hne => hne.symm, List.pairwise_map]
  exact hdistinct.sublist (withoutHere_sublist _ found)

end Glob

end MediaSplit
