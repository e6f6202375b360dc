import MediaSplit.Proofs.Files.Globbing
import MediaSplit.Proofs.Files.Leading

/-!
What one part of a pattern matches inside a directory. It picks entries of the tree by their places
and kinds, and what it gives of an entry are the names from the directory to it; so joined to the
directory it leads to that entry.
-/

namespace MediaSplit

namespace Glob

open FileTree MediaSplit.Path

variable {t t' : FileTree}

def listed (directory : List Char) : String :=
  if directory.isEmpty then "." else String.ofList directory

theorem placeOf?_eq (t : FileTree) (directory : List Char) :
    placeOf? t directory =
      if directory.contains '\x00' then .error .nul
      else if t.isDirectory (listed directory) then .ok (some (t.placeOf (listed directory)))
      else .ok none := by
  unfold placeOf?
  split
  · rfl
  · rename_i hclean
    have hnoNul : (listed directory).toList.contains '\x00' = false := by
      unfold listed
      split
      · rfl
      · rw [String.toList_ofList]
        simpa using hclean
    have hlisted : (if directory.isEmpty then "." else String.ofList directory) =
        listed directory := rfl
    rw [hlisted]
    have honPath := onPath_of_clean hnoNul (t.find (listed directory))
    cases hfind : t.find (listed directory) with
    | error trouble =>
        rw [hfind] at honPath
        rw [FileTree.isDirectory, hfind, honPath]
        rfl
    | ok found =>
        obtain ⟨place, e⟩ := found
        rw [hfind] at honPath
        have hplace : onPath (listed directory) (t.find (listed directory)) = .ok (place, e) := by
          rw [hfind, honPath]
          rfl
        obtain ⟨rfl, -⟩ := onPath_find_eq_ok_iff.mp hplace
        rw [FileTree.isDirectory, hplace]
        cases e <;> rfl

/-- The name by which an entry right inside a directory matches a part of a pattern. -/
def matched (place : Location) (part : List Char) (onlyDirectories : Bool)
    (kind : Location × Bool) : Option (List Char) :=
  match below? place kind.1 with
  | some [name] =>
      if (onlyDirectories && !kind.2) || (isHidden name.toList && !isHidden part) then none
      else if Pattern.matchesName (Pattern.parse part) name.toList then some name.toList
      else none
  | _ => none

/-- The names by which an entry anywhere inside a directory can be reached. -/
def reached (place : Location) (onlyDirectories : Bool) (kind : Location × Bool) :
    Option (List Char) :=
  match below? place kind.1 with
  | some (name :: names) =>
      if onlyDirectories && !kind.2 then none
      else if (name :: names).any fun name => isHidden name.toList then none
      else some (['/'].intercalate ((name :: names).map String.toList))
  | _ => none

def picked (place : Location) (part : List Char) (onlyDirectories : Bool) :
    Location × Bool → Option (List Char) :=
  if part = anyDepth then reached place onlyDirectories else matched place part onlyDirectories

def inside (t : FileTree) (directory part : List Char) (onlyDirectories : Bool) :
    List (List Char) :=
  if Pattern.isMagic part then
    (if part = anyDepth then [[]] else []) ++
      if t.isDirectory (listed directory) then
        t.kinds.filterMap (picked (t.placeOf (listed directory)) part onlyDirectories)
      else []
  else literalName t directory part

theorem filterMap_listing (t : FileTree) (place : Location) (part : List Char)
    (onlyDirectories : Bool) :
    ((t.listing place).filterMap fun entry =>
      if (onlyDirectories && entry.2 != .directory) ||
        (isHidden entry.1.toList && !isHidden part) then none
      else if Pattern.matchesName (Pattern.parse part) entry.1.toList then some entry.1.toList
      else none) = t.kinds.filterMap (matched place part onlyDirectories) := by
  unfold listing kinds
  rw [List.filterMap_filterMap, List.filterMap_map]
  apply List.filterMap_congr
  intro entry _
  unfold matched
  obtain ⟨whole, e⟩ := entry
  simp only [Function.comp_apply]
  cases hbelow : below? place whole with
  | none => rfl
  | some rest =>
      cases rest with
      | nil => rfl
      | cons name more =>
          cases more with
          | nil => cases e <;> rfl
          | cons next more => rfl

theorem filterMap_descendants (t : FileTree) (place : Location) (onlyDirectories : Bool) :
    ((t.descendants place).filterMap fun entry =>
      if onlyDirectories && entry.2 != .directory then none
      else if entry.1.any fun name => isHidden name.toList then none
      else some (['/'].intercalate (entry.1.map String.toList))) =
      t.kinds.filterMap (reached place onlyDirectories) := by
  unfold descendants kinds
  rw [List.filterMap_filterMap, List.filterMap_map]
  apply List.filterMap_congr
  intro entry _
  unfold reached
  obtain ⟨whole, e⟩ := entry
  simp only [Function.comp_apply]
  cases hbelow : below? place whole with
  | none => rfl
  | some rest =>
      cases rest with
      | nil => rfl
      | cons name more => cases e <;> rfl

/-- A part of a pattern is matched inside a directory, unless the path of that has a null
character. -/
theorem namesInside_eq (t : FileTree) (directory part : List Char) (onlyDirectories : Bool) :
    namesInside t directory part onlyDirectories =
      if directory.contains '\x00' && Pattern.isMagic part then .error .nul
      else .ok (inside t directory part onlyDirectories) := by
  have hmagic : Pattern.isMagic anyDepth = true := rfl
  unfold namesInside inside picked
  split
  · rename_i hpart
    rw [hpart, hmagic, Bool.and_true]
    unfold anythingInside
    rw [placeOf?_eq]
    split
    · rfl
    · split
      · simp only [bind, Except.bind, if_true]
        rw [filterMap_descendants]
        rfl
      · rfl
  · rename_i hpart
    split
    · rename_i hmagic
      rw [hmagic, Bool.and_true]
      unfold matchingNames
      rw [placeOf?_eq]
      split
      · rfl
      · split
        · simp only [bind, Except.bind, List.nil_append]
          rw [filterMap_listing]
        · rfl
    · rename_i hliteral
      have hnone : (directory.contains '\x00' && Pattern.isMagic part) = false := by
        simp [hliteral]
      rw [hnone]
      rfl

theorem eq_append_of_below? {base place rest : Location} (h : below? base place = some rest) :
    place = base ++ rest := by
  induction base generalizing place with
  | nil => exact Option.some.inj h
  | cons name base ih =>
      cases place with
      | nil => cases h
      | cons name' place =>
          simp only [below?] at h
          split at h
          · rename_i heq
            rw [heq, ih h, List.cons_append]
          · cases h

/-- What is matched of an entry are the names from the directory to it. -/
theorem exists_of_picked {place : Location} {part : List Char} {onlyDirectories : Bool}
    {kind : Location × Bool} {found : List Char}
    (h : picked place part onlyDirectories kind = some found) :
    ∃ way, way ≠ [] ∧ kind.1 = place ++ way ∧
      found = ['/'].intercalate (way.map String.toList) := by
  unfold picked at h
  split at h
  · unfold reached at h
    split at h
    · rename_i name names hbelow
      refine ⟨name :: names, List.cons_ne_nil _ _, eq_append_of_below? hbelow, ?_⟩
      split at h
      · cases h
      · split at h
        · cases h
        · exact (Option.some.inj h).symm
    · cases h
  · unfold matched at h
    split at h
    · rename_i name hbelow
      refine ⟨[name], List.cons_ne_nil _ _, eq_append_of_below? hbelow, ?_⟩
      split at h
      · cases h
      · split at h
        · rw [← Option.some.inj h]
          simp
        · cases h
    · cases h

/-- The names from the directory to it are names that can be. -/
theorem exists_way_of_picked (hnames : t.HasNames) {place : Location} {part : List Char}
    {onlyDirectories : Bool} {kind : Location × Bool} {found : List Char} (hkind : kind ∈ t.kinds)
    (h : picked place part onlyDirectories kind = some found) :
    ∃ way, way ≠ [] ∧ (∀ name ∈ way, IsName name) ∧ kind.1 = place ++ way ∧
      found = ['/'].intercalate (way.map String.toList) := by
  obtain ⟨way, hne, hplace, hfound⟩ := exists_of_picked h
  refine ⟨way, hne, fun name hname => ?_, hplace, hfound⟩
  obtain ⟨entry, hentry, rfl⟩ := List.mem_map.mp hkind
  refine hnames entry hentry name ?_
  rw [hplace]
  exact List.mem_append_right _ hname

theorem eq_of_mem_literalName {directory name found : List Char}
    (h : found ∈ literalName t directory name) : found = name := by
  unfold literalName at h
  split at h <;> split at h <;> simp at h <;> exact h

section Ways

variable {way : List String}

theorem names_intercalate (h : ∀ name ∈ way, IsName name) :
    names (['/'].intercalate (way.map String.toList)) = way := by
  induction way with
  | nil => rfl
  | cons name rest ih =>
      obtain ⟨hname, hrest⟩ := List.forall_mem_cons.mp h
      have hfirst : names name.toList = [name] := by
        rw [names_of_no_slash hname.noSlash, if_neg (by simpa using hname.nonempty),
          String.ofList_toList]
      cases rest with
      | nil => simpa using hfirst
      | cons next rest =>
          rw [List.map_cons, List.map_cons, List.intercalate_cons_cons, ← List.map_cons,
            List.append_assoc, List.singleton_append, names_append_slash, hfirst, ih hrest,
            List.singleton_append]

theorem head?_intercalate (h : ∀ name ∈ way, IsName name) :
    (['/'].intercalate (way.map String.toList)).head? ≠ some '/' := by
  cases way with
  | nil => simp
  | cons name rest =>
      have hname := h name List.mem_cons_self
      obtain ⟨c, cs, hchars⟩ := List.exists_cons_of_ne_nil
        (l := name.toList) (by simpa using hname.nonempty)
      have hc : c ≠ '/' := by
        rintro rfl
        apply hname.noSlash
        rw [hchars]
        exact List.mem_cons_self
      cases rest with
      | nil => simpa [hchars] using hc
      | cons next rest =>
          rw [List.map_cons, List.map_cons, List.intercalate_cons_cons, hchars]
          simpa using hc

theorem intercalate_ne_nil (h : ∀ name ∈ way, IsName name) (hne : way ≠ []) :
    ['/'].intercalate (way.map String.toList) ≠ [] := by
  intro hnil
  have hnames := names_intercalate h
  rw [hnil] at hnames
  exact hne hnames.symm

theorem placeOf_listed (t : FileTree) (directory : List Char) :
    t.placeOf (listed directory) = t.placeOf (String.ofList directory) := by
  unfold listed
  split
  · rename_i hempty
    rw [List.isEmpty_iff.mp hempty]
    rfl
  · rfl

/-- Names below a directory lead to the place below it. -/
theorem placeOf_join (t : FileTree) (directory : List Char) (h : ∀ name ∈ way, IsName name) :
    t.placeOf (String.ofList (join directory (['/'].intercalate (way.map String.toList)))) =
      t.placeOf (String.ofList directory) ++ way := by
  have hplain : ∀ name ∈ way, IsPlain name := fun name hname => (h name hname).plain
  rw [t.placeOf_ofList_join directory (head?_intercalate h), names_intercalate h,
    foldl_follow_plain hplain]

end Ways

/-- Whether a path was there before. The empty path stands for the working directory. -/
def isOld (t : FileTree) (path : List Char) : Bool :=
  path.isEmpty || t.exists? (String.ofList path)

theorem join_ne_nil {directory name : List Char} (h : directory ≠ [] ∨ name ≠ [])
    (hname : name.head? ≠ some '/') : join directory name ≠ [] := by
  unfold join
  rw [if_neg hname]
  split
  · rcases h with h | h <;> simp [h]
  · simp

theorem isDirectory_of_isOld_join {directory name : List Char} (hne : directory ≠ [])
    (hname : name.head? ≠ some '/') (h : isOld t (join directory name) = true) :
    t.isDirectory (String.ofList directory) = true := by
  rcases Bool.or_eq_true_iff.mp h with hempty | hthere
  · exact absurd (List.isEmpty_iff.mp hempty) (join_ne_nil (.inl hne) hname)
  · exact isDirectory_of_exists?_join hne hname hthere

/-- What is matched of a new entry is a new path. -/
theorem isOld_of_picked {directory part found : List Char} {onlyDirectories : Bool}
    {kind : Location × Bool} (hnew : t.entry? kind.1 = none)
    (hnames : ∀ name ∈ kind.1, IsName name)
    (h : picked (t.placeOf (listed directory)) part onlyDirectories kind = some found) :
    isOld t (join directory found) = false := by
  obtain ⟨way, hne, hplace, rfl⟩ := exists_of_picked h
  rw [hplace] at hnames hnew
  have hway : ∀ name ∈ way, IsName name := fun name hname =>
    hnames name (List.mem_append_right _ hname)
  rw [← Bool.not_eq_true]
  intro hold
  rcases Bool.or_eq_true_iff.mp hold with hempty | hthere
  · exact join_ne_nil (.inr (intercalate_ne_nil hway hne)) (head?_intercalate hway)
      (List.isEmpty_iff.mp hempty)
  · obtain ⟨e, hleads⟩ := exists?_iff.mp hthere
    have hentry := hleads.entry
    rw [placeOf_join t directory hway, ← placeOf_listed, hnew] at hentry
    cases hentry

/-- No path starts with a slash that is matched inside a directory. -/
theorem head?_of_mem_inside (hnames : t.HasNames) {directory part found : List Char}
    {onlyDirectories : Bool} (hpart : '/' ∉ part)
    (h : found ∈ inside t directory part onlyDirectories) : found.head? ≠ some '/' := by
  unfold inside at h
  split at h
  · rcases List.mem_append.mp h with hself | hinside
    · split at hself
      · rw [List.mem_singleton.mp hself]
        simp
      · cases hself
    · split at hinside
      · obtain ⟨kind, hkind, hpicked⟩ := List.mem_filterMap.mp hinside
        obtain ⟨way, -, hway, -, rfl⟩ := exists_way_of_picked hnames hkind hpicked
        exact head?_intercalate hway
      · cases hinside
  · rw [eq_of_mem_literalName h]
    exact fun hhead => hpart (List.mem_of_mem_head? hhead)

theorem clean_of_mem_inside (hnames : t.HasNames) {directory part found : List Char}
    {onlyDirectories : Bool} (hdirectory : Pattern.isMagic part = true → '\x00' ∉ directory)
    (h : found ∈ inside t directory part onlyDirectories) : '\x00' ∉ join directory found := by
  unfold inside at h
  split at h
  · rename_i hmagic
    apply clean_join (hdirectory hmagic)
    rcases List.mem_append.mp h with hself | hinside
    · split at hself
      · rw [List.mem_singleton.mp hself]
        exact List.not_mem_nil
      · cases hself
    · split at hinside
      · obtain ⟨kind, hkind, hpicked⟩ := List.mem_filterMap.mp hinside
        obtain ⟨way, -, hway, -, rfl⟩ := exists_way_of_picked hnames hkind hpicked
        apply clean_intercalate
        intro chars hchars
        obtain ⟨name, hname, rfl⟩ := List.mem_map.mp hchars
        exact (hway name hname).noNul
      · cases hinside
  · unfold literalName at h
    split at h
    · rename_i hempty
      split at h
      · rename_i hthere
        have hnoNul := (isDirectory_iff.mp hthere).noNul
        rw [List.mem_singleton.mp h, List.isEmpty_iff.mp hempty]
        apply clean_join _ List.not_mem_nil
        simpa using hnoNul
      · cases h
    · split at h
      · rename_i hthere
        obtain ⟨e, hleads⟩ := exists?_iff.mp hthere
        have hnoNul := hleads.noNul
        rw [List.mem_singleton.mp h]
        simpa using hnoNul
      · cases h

/-- The working directory can be listed. -/
theorem isDirectory_here (hrooted : t.IsRooted) : t.isDirectory "." = true := by
  have hplace : t.placeOf "." = t.workingDirectory := rfl
  refine isDirectory_iff.mpr ⟨rfl, ?_, ?_, fun _ => rfl⟩
  · exact (locate_eq_ok_iff t "." _).mpr ⟨rfl, rfl, by decide, hrooted.working, by decide, trivial⟩
  · rw [hplace, hrooted.working]

end Glob

end MediaSplit
