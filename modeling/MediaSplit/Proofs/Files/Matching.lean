import MediaSplit.Proofs.Files.Inside
import MediaSplit.Proofs.Options.Rereading
import MediaSplit.Proofs.Results

/-!
What patterns match when a tree has grown. Each pattern matches what it has matched before, and of
the paths that were there before it matches no others, nor in another order. So what is asked for on
a tree that has grown is new as a whole: a path that did not lead anywhere.
-/

namespace MediaSplit

/-- That a list has gained members that are not old: the old ones are those of the other list, and
in the same order. -/
structure Gains {α : Type} (old : α → Bool) (found found' : List α) : Prop where
  subset : found ⊆ found'
  filter_eq : found'.filter old = found.filter old

namespace Gains

variable {α β : Type} {old : α → Bool} {found found' : List α}

theorem refl (old : α → Bool) (found : List α) : Gains old found found :=
  ⟨fun _ h => h, rfl⟩

theorem append_new {more : List α} (hnew : ∀ a ∈ more, old a = false) :
    Gains old found (found ++ more) where
  subset := List.subset_append_left _ _
  filter_eq := by
    have hnone : more.filter old = [] := by
      rw [List.filter_eq_nil_iff]
      intro a ha
      simp [hnew a ha]
    rw [List.filter_append, hnone, List.append_nil]

theorem of_new {more : List α} (hnew : ∀ a ∈ more, old a = false) : Gains old [] more :=
  append_new hnew

theorem append_left (first : List α) (h : Gains old found found') :
    Gains old (first ++ found) (first ++ found') where
  subset := List.append_subset.mpr
    ⟨List.subset_append_left _ _, fun _ ha => List.mem_append_right _ (h.subset ha)⟩
  filter_eq := by rw [List.filter_append, List.filter_append, h.filter_eq]

/-- One member that was not there may be gained. -/
theorem ite {a : α} {here here' : Bool} (hkept : here = true → here' = true)
    (hnew : here = false → here' = true → old a = false) :
    Gains old (if here then [a] else []) (if here' then [a] else []) := by
  cases here with
  | true =>
      rw [hkept rfl]
      exact refl _ _
  | false =>
      cases here' with
      | true => exact of_new (List.forall_mem_singleton.mpr (hnew rfl rfl))
      | false => exact refl _ _

theorem map {old' : β → Bool} {f : α → β} (hf : ∀ a, old' (f a) = old a)
    (h : Gains old found found') : Gains old' (found.map f) (found'.map f) where
  subset := List.map_subset f h.subset
  filter_eq := by
    have hcomp : old' ∘ f = old := funext hf
    rw [List.filter_map, List.filter_map, hcomp, h.filter_eq]

/-- Where old members have only gained new ones, and new members bring nothing old. -/
theorem flatMap {old' : β → Bool} {f f' : α → List β} (h : Gains old found found')
    (hf : ∀ a ∈ found, Gains old' (f a) (f' a))
    (hnew : ∀ a, old a = false → ∀ b ∈ f' a, old' b = false) :
    Gains old' (found.flatMap f) (found'.flatMap f') where
  subset b hb := by
    obtain ⟨a, ha, hba⟩ := List.mem_flatMap.mp hb
    exact List.mem_flatMap.mpr ⟨a, h.subset ha, (hf a ha).subset hba⟩
  filter_eq := by
    have honlyOld : ∀ (g : α → List β) (members : List α),
        (∀ a ∈ members, old a = false → ∀ b ∈ g a, old' b = false) →
        (members.flatMap g).filter old' =
          (members.filter old).flatMap fun a => (g a).filter old' := by
      intro g members hnone
      induction members with
      | nil => rfl
      | cons a rest ih =>
          obtain ⟨ha, hrest⟩ := List.forall_mem_cons.mp hnone
          rw [List.flatMap_cons, List.filter_append, ih hrest]
          cases hold : old a with
          | true => rw [List.filter_cons_of_pos hold, List.flatMap_cons]
          | false =>
              have hempty : (g a).filter old' = [] := by
                rw [List.filter_eq_nil_iff]
                intro b hb
                simp [ha hold b hb]
              rw [List.filter_cons_of_neg (by simp [hold]), hempty, List.nil_append]
    have hwas : ∀ a ∈ found, old a = false → ∀ b ∈ f a, old' b = false :=
      fun a ha hold b hb => hnew a hold b ((hf a ha).subset hb)
    rw [honlyOld f found hwas, honlyOld f' found' fun a _ => hnew a, h.filter_eq]
    apply List.flatMap_congr
    intro a ha
    exact (hf a (List.mem_of_mem_filter ha)).filter_eq

/-- Sorting keeps what is gained apart from what is old. -/
theorem mergeSort {le : α → α → Bool}
    (htrans : ∀ a b c, le a b = true → le b c = true → le a c = true)
    (htotal : ∀ a b, (le a b || le b a) = true)
    (hantisymm : ∀ a b, le a b = true → le b a = true → a = b) (h : Gains old found found') :
    Gains old (found.mergeSort le) (found'.mergeSort le) where
  subset a ha := List.mem_mergeSort.mpr (h.subset (List.mem_mergeSort.mp ha))
  filter_eq := by
    have hsorted : ∀ members : List α,
        (members.mergeSort le).filter old = (members.filter old).mergeSort le := by
      intro members
      refine List.Perm.eq_of_pairwise (fun a b _ _ => hantisymm a b) ?_ ?_ ?_
      · exact (List.pairwise_mergeSort htrans htotal members).filter old
      · exact List.pairwise_mergeSort htrans htotal _
      · exact ((List.mergeSort_perm members le).filter old).trans (List.mergeSort_perm _ le).symm
    rw [hsorted, hsorted, h.filter_eq]

end Gains

namespace Glob

open FileTree MediaSplit.Path

variable {t t' : FileTree}

/-- In a directory that was not there before, all is new. -/
theorem isOld_of_mem_inside (hnames : t'.HasNames) {directory part path : List Char}
    {onlyDirectories : Bool} (hpart : '/' ∉ part) (hne : directory ≠ [])
    (hnew : t.isDirectory (String.ofList directory) = false)
    (h : path ∈ (inside t' directory part onlyDirectories).map (join directory)) :
    isOld t path = false := by
  obtain ⟨found, hfound, rfl⟩ := List.mem_map.mp h
  rw [← Bool.not_eq_true]
  intro hold
  rw [isDirectory_of_isOld_join hne (head?_of_mem_inside hnames hpart hfound) hold] at hnew
  cases hnew

/-- A directory has only gained new entries. -/
theorem gains_inside (hgrows : t.Grows t') (hnames : t.HasNames) (hrooted : t.IsRooted)
    (directory : List Char) {part : List Char} (hpart : '/' ∉ part) (onlyDirectories : Bool) :
    Gains (isOld t) ((inside t directory part onlyDirectories).map (join directory))
      ((inside t' directory part onlyDirectories).map (join directory)) := by
  have hnames' := hgrows.hasNames hnames
  have hlater (path : List Char) :=
    @isOld_of_mem_inside t t' hnames' directory part path onlyDirectories hpart
  have hlisted : directory ≠ [] → listed directory = String.ofList directory := fun hne =>
    if_neg (by simpa using hne)
  unfold inside at hlater ⊢
  cases hmagic : Pattern.isMagic part with
  | true =>
      simp only [hmagic, if_true, List.map_append] at hlater ⊢
      apply Gains.append_left
      cases hthere : t.isDirectory (listed directory) with
      | true =>
          obtain ⟨more, hkinds, hmore⟩ := hgrows.kinds
          rw [if_pos rfl, if_pos (hgrows.isDirectory hthere), hgrows.changes.placeOf, hkinds,
            List.filterMap_append, List.map_append]
          apply Gains.append_new
          intro path hpath
          obtain ⟨found, hfound, rfl⟩ := List.mem_map.mp hpath
          obtain ⟨kind, hkind, hpicked⟩ := List.mem_filterMap.mp hfound
          exact isOld_of_picked (hmore kind hkind).1 (hmore kind hkind).2 hpicked
      | false =>
          have hne : directory ≠ [] := by
            rintro rfl
            have hhere : t.isDirectory (listed []) = true := isDirectory_here hrooted
            rw [hhere] at hthere
            cases hthere
          rw [if_neg (by simp), List.map_nil]
          apply Gains.of_new
          intro path hpath
          rw [hlisted hne] at hthere
          exact hlater path hne hthere (List.mem_append_right _ hpath)
  | false =>
      simp only [hmagic, Bool.false_eq_true, if_false] at hlater ⊢
      unfold literalName at hlater ⊢
      split
      · rename_i hempty
        simp only [hempty, if_true] at hlater
        rw [apply_ite (List.map (join directory)), apply_ite (List.map (join directory))]
        apply Gains.ite hgrows.isDirectory
        intro hnot hthere
        have hne : directory ≠ [] := by
          rintro rfl
          cases hthere.symm.trans t'.isDirectory_empty
        exact hlater _ hne hnot (by simp [hthere])
      · rw [apply_ite (List.map (join directory)), apply_ite (List.map (join directory))]
        apply Gains.ite hgrows.exists?
        intro hnot hthere
        rw [isOld, hnot, Bool.or_false, ← Bool.not_eq_true]
        intro hempty
        rw [List.isEmpty_iff.mp hempty] at hthere
        cases hthere.symm.trans t'.exists?_empty

/-- What the last part of a pattern matches in the directories that the parts before it led to. -/
def insideAll (t : FileTree) (directories : List (List Char)) (part : List Char)
    (onlyDirectories : Bool) : List (List Char) :=
  directories.flatMap fun directory =>
    (inside t directory part onlyDirectories).map (join directory)

/-- That some directory is in the way of a part of a pattern: a null character in its path. -/
def isBlocked (directories : List (List Char)) (part : List Char) : Bool :=
  Pattern.isMagic part && directories.any (·.contains '\x00')

theorem namesInside_all (t : FileTree) (directories : List (List Char)) (part : List Char)
    (onlyDirectories : Bool) :
    (do
      let found ← directories.mapM fun d => do
        let names ← namesInside t d part onlyDirectories
        .ok (names.map (join d))
      .ok found.flatten : Except PathFault (List (List Char))) =
      if isBlocked directories part then .error .nul
      else .ok (insideAll t directories part onlyDirectories) := by
  have hmapM : (directories.mapM fun d => do
      let names ← namesInside t d part onlyDirectories
      .ok (names.map (join d)) : Except PathFault (List (List (List Char)))) =
      if isBlocked directories part then .error .nul
      else .ok (directories.map fun d => (inside t d part onlyDirectories).map (join d)) := by
    induction directories with
    | nil => cases hmagic : Pattern.isMagic part <;> simp [isBlocked, hmagic, pure, Except.pure]
    | cons directory rest ih =>
        rw [List.mapM_cons, ih, namesInside_eq]
        unfold isBlocked
        rw [List.any_cons]
        cases Pattern.isMagic part <;> cases directory.contains '\x00' <;>
          cases rest.any (·.contains '\x00') <;> rfl
  rw [hmapM]
  split
  · rfl
  · simp only [bind, Except.bind, insideAll, List.flatMap_def]

/-- The directories that the parts of a pattern before its last one lead to. -/
def leading (t : FileTree) (path : List Char) : Except PathFault (List (List Char)) :=
  if (directoryOf path).length < path.length ∧ Pattern.isMagic (directoryOf path) = true then
    candidates t true (directoryOf path)
  else .ok [directoryOf path]

theorem candidates_of_magic (t : FileTree) (onlyDirectories : Bool) {path : List Char}
    (hmagic : Pattern.isMagic path = true) :
    candidates t onlyDirectories path =
      if (directoryOf path).isEmpty then .ok (inside t [] (nameOf path) onlyDirectories)
      else leading t path >>= fun directories =>
        if isBlocked directories (nameOf path) then .error .nul
        else .ok (insideAll t directories (nameOf path) onlyDirectories) := by
  rw [candidates]
  simp only [hmagic, Bool.not_true, Bool.false_eq_true, if_false]
  split
  · rw [namesInside_eq]
    rfl
  · unfold leading
    split
    · rename_i hshorter
      cases candidates t true (directoryOf path) with
      | error fault => rfl
      | ok directories => exact namesInside_all t directories (nameOf path) onlyDirectories
    · exact namesInside_all t _ (nameOf path) onlyDirectories

theorem map_join_nil (found : List (List Char)) : found.map (join []) = found := by
  have hid : join [] = id := by
    funext path
    unfold join
    split <;> rfl
  rw [hid, List.map_id]

/-- A path that is no pattern matches itself at most. -/
theorem eq_of_candidates {path : List Char} {found : List (List Char)} {onlyDirectories : Bool}
    (hplain : Pattern.isMagic path = false) (h : candidates t onlyDirectories path = .ok found) :
    found = [] ∨ found = [path] := by
  rw [candidates] at h
  simp only [hplain, Bool.not_false, if_true] at h
  rw [← Except.ok.inj h]
  split <;> split <;> simp

/-- The last part of a pattern is matched behind one directory, or behind all that the parts before
it have led to, and none of them is in its way. -/
theorem exists_directories {path : List Char} {found : List (List Char)} {onlyDirectories : Bool}
    (hmagic : Pattern.isMagic path = true) (h : candidates t onlyDirectories path = .ok found) :
    ∃ directories, found = insideAll t directories (nameOf path) onlyDirectories ∧
      isBlocked directories (nameOf path) = false ∧
      (directories = [directoryOf path] ∨ (directoryOf path).length < path.length ∧
        candidates t true (directoryOf path) = .ok directories) := by
  rw [candidates_of_magic t onlyDirectories hmagic] at h
  split at h
  · rename_i hempty
    obtain rfl := Except.ok.inj h
    refine ⟨[[]], ?_, by simp [isBlocked], .inl (by rw [List.isEmpty_iff.mp hempty])⟩
    rw [insideAll, List.flatMap_singleton, map_join_nil]
  · obtain ⟨directories, hleading, hfound⟩ := bind_eq_ok.mp h
    split at hfound
    · cases hfound
    · rename_i hopen
      obtain rfl := Except.ok.inj hfound
      refine ⟨directories, rfl, by simpa using hopen, ?_⟩
      unfold leading at hleading
      split at hleading
      · rename_i hshorter
        exact .inr ⟨hshorter.1, hleading⟩
      · exact .inl (Except.ok.inj hleading).symm

/-- What a pattern matches has no null character. -/
theorem clean_of_candidates (hnames : t.HasNames) {path : List Char} {found : List (List Char)}
    {onlyDirectories : Bool} (hmagic : Pattern.isMagic path = true)
    (h : candidates t onlyDirectories path = .ok found) : ∀ other ∈ found, '\x00' ∉ other := by
  intro other hother
  obtain ⟨directories, rfl, hopen, -⟩ := exists_directories hmagic h
  obtain ⟨directory, hdirectory, hmem⟩ := List.mem_flatMap.mp hother
  obtain ⟨name, hname, rfl⟩ := List.mem_map.mp hmem
  refine clean_of_mem_inside hnames (fun hpart hnul => ?_) hname
  have hblocked : isBlocked directories (nameOf path) = true := by
    rw [isBlocked, hpart, Bool.true_and, List.any_eq_true]
    exact ⟨directory, hdirectory, by simpa using hnul⟩
  rw [hopen] at hblocked
  cases hblocked

/-- The last part of a pattern gains only new paths when the directories are gained by growing. -/
theorem gains_insideAll (hgrows : t.Grows t') (hnames : t.HasNames) (hrooted : t.IsRooted)
    {directories directories' : List (List Char)} (h : Gains (isOld t) directories directories')
    {part : List Char} (hpart : '/' ∉ part) (onlyDirectories : Bool) :
    Gains (isOld t) (insideAll t directories part onlyDirectories)
      (insideAll t' directories' part onlyDirectories) := by
  apply h.flatMap
  · exact fun directory _ => gains_inside hgrows hnames hrooted directory hpart onlyDirectories
  · intro directory hnew path hpath
    obtain ⟨hne, hnot⟩ := Bool.or_eq_false_iff.mp hnew
    refine isOld_of_mem_inside (hgrows.hasNames hnames) hpart (by simpa using hne) ?_ hpath
    rw [← Bool.not_eq_true]
    intro hthere
    rw [exists?_of_isDirectory hthere] at hnot
    cases hnot

/-- A plain path may have come to lead somewhere. -/
theorem gains_plain (hgrows : t.Grows t') (path : List Char) :
    Gains (isOld t)
      (if (nameOf path).isEmpty then
        if t.isDirectory (String.ofList (directoryOf path)) then [path] else []
      else if t.exists? (String.ofList path) then [path] else [])
      (if (nameOf path).isEmpty then
        if t'.isDirectory (String.ofList (directoryOf path)) then [path] else []
      else if t'.exists? (String.ofList path) then [path] else []) := by
  split
  · rename_i hnil
    apply Gains.ite hgrows.isDirectory
    intro hnot hthere
    have hne : directoryOf path ≠ [] := by
      intro hnil
      rw [hnil] at hthere
      cases hthere.symm.trans t'.isDirectory_empty
    rw [isOld, ← Bool.not_eq_true, Bool.or_eq_true]
    rintro (hnone | hold)
    · rw [List.isEmpty_iff.mp hnone] at hne
      exact hne rfl
    · rw [isDirectory_of_exists? (List.isEmpty_iff.mp hnil) hne hold] at hnot
      cases hnot
  · rename_i hnonempty
    apply Gains.ite hgrows.exists?
    intro hnot _
    rw [isOld, hnot, Bool.or_false, ← Bool.not_eq_true]
    intro hnone
    rw [List.isEmpty_iff.mp hnone] at hnonempty
    exact hnonempty rfl

/-- A pattern has gained only new paths, and can be matched if it could be matched before. -/
theorem gains_candidates (hgrows : t.Grows t') (hnames : t.HasNames) (hrooted : t.IsRooted)
    {path : List Char} {onlyDirectories : Bool} {found : List (List Char)}
    (h : candidates t onlyDirectories path = .ok found) :
    ∃ found', candidates t' onlyDirectories path = .ok found' ∧ Gains (isOld t) found found' := by
  have hname : '/' ∉ nameOf path := slash_not_mem_nameOf path
  cases hmagic : Pattern.isMagic path with
  | false =>
      rw [candidates] at h ⊢
      simp only [hmagic, Bool.not_false, if_true] at h ⊢
      obtain rfl := Except.ok.inj h
      exact ⟨_, rfl, gains_plain hgrows path⟩
  | true =>
      rw [candidates_of_magic t onlyDirectories hmagic] at h
      rw [candidates_of_magic t' onlyDirectories hmagic]
      split at h
      · rename_i hnil
        obtain rfl := Except.ok.inj h
        have hgains := gains_inside hgrows hnames hrooted [] hname onlyDirectories
        rw [map_join_nil, map_join_nil] at hgains
        exact ⟨_, if_pos hnil, hgains⟩
      · rename_i hnonempty
        rw [if_neg hnonempty]
        obtain ⟨directories, hleading, hfound⟩ := bind_eq_ok.mp h
        split at hfound
        · cases hfound
        · rename_i hopen
          obtain rfl := Except.ok.inj hfound
          obtain ⟨directories', hleading', hgained, hclean⟩ :
              ∃ directories', leading t' path = .ok directories' ∧
                Gains (isOld t) directories directories' ∧
                ¬ isBlocked directories' (nameOf path) = true := by
            unfold leading at hleading ⊢
            split at hleading
            · rename_i hshorter
              obtain ⟨directories', hfound', hgained⟩ :=
                gains_candidates hgrows hnames hrooted hleading
              refine ⟨directories', ?_, hgained, ?_⟩
              · rw [if_pos hshorter, hfound']
              · -- a directory that is new has a name that can be
                rw [isBlocked, Bool.and_eq_true, List.any_eq_true, not_and]
                rintro - ⟨directory, hdirectory, hnul⟩
                exact clean_of_candidates (hgrows.hasNames hnames) hshorter.2 hfound' directory
                  hdirectory (by simpa using hnul)
            · rename_i hlast
              obtain rfl := Except.ok.inj hleading
              exact ⟨_, if_neg hlast, .refl _ _, hopen⟩
          refine ⟨insideAll t' directories' (nameOf path) onlyDirectories, ?_,
            gains_insideAll hgrows hnames hrooted hgained hname onlyDirectories⟩
          rw [hleading']
          exact if_neg hclean
termination_by path.length
decreasing_by
  rename_i hshorter
  exact hshorter.1

section EmptyPath

/-! The empty path, which stands for the working directory, can only come first. -/

variable {onlyDirectories : Bool}

theorem nil_not_mem_tail_inside (hnames : t.HasNames) (directory part : List Char) :
    [] ∉ (inside t directory part onlyDirectories).tail := by
  unfold inside
  split
  · have hnone : [] ∉ (if t.isDirectory (listed directory) then
        t.kinds.filterMap (picked (t.placeOf (listed directory)) part onlyDirectories)
      else []) := by
      split
      · intro hmem
        obtain ⟨kind, hkind, hpicked⟩ := List.mem_filterMap.mp hmem
        obtain ⟨way, hne, hway, -, hnil⟩ := exists_way_of_picked hnames hkind hpicked
        exact intercalate_ne_nil hway hne hnil.symm
      · exact List.not_mem_nil
    split
    · exact hnone
    · exact fun hmem => hnone (List.mem_of_mem_tail hmem)
  · unfold literalName
    split <;> split <;> exact List.not_mem_nil

theorem nil_not_mem_tail_insideAll (hnames : t.HasNames) {directories : List (List Char)}
    {part : List Char} (hpart : '/' ∉ part) (h : [] ∉ directories.tail) :
    [] ∉ (insideAll t directories part onlyDirectories).tail := by
  cases directories with
  | nil => exact List.not_mem_nil
  | cons directory rest =>
      have hrest : [] ∉ insideAll t rest part onlyDirectories := by
        intro hmem
        obtain ⟨other, hother, hfound⟩ := List.mem_flatMap.mp hmem
        obtain ⟨name, hname, hnil⟩ := List.mem_map.mp hfound
        refine join_ne_nil (.inl ?_) (head?_of_mem_inside hnames hpart hname) hnil
        rintro rfl
        exact h hother
      have hcons : insideAll t (directory :: rest) part onlyDirectories =
          (inside t directory part onlyDirectories).map (join directory) ++
            insideAll t rest part onlyDirectories := List.flatMap_cons
      have htail := @nil_not_mem_tail_inside t onlyDirectories hnames directory part
      have hhead : ∀ name ∈ inside t directory part onlyDirectories, name.head? ≠ some '/' :=
        fun name => head?_of_mem_inside hnames hpart
      rw [hcons]
      generalize inside t directory part onlyDirectories = names at htail hhead
      cases names with
      | nil => exact fun hmem => hrest (List.mem_of_mem_tail hmem)
      | cons first others =>
          rw [List.map_cons, List.cons_append, List.tail_cons, List.mem_append, not_or]
          refine ⟨fun hmem => ?_, hrest⟩
          obtain ⟨name, hname, hnil⟩ := List.mem_map.mp hmem
          refine join_ne_nil (.inr ?_) ?_ hnil
          · rintro rfl
            exact htail hname
          · exact hhead name (List.mem_cons_of_mem first hname)

theorem nil_not_mem_tail_candidates (hnames : t.HasNames) {path : List Char}
    {onlyDirectories : Bool} {found : List (List Char)}
    (h : candidates t onlyDirectories path = .ok found) :
    [] ∉ found.tail := by
  cases hmagic : Pattern.isMagic path with
  | false =>
      rcases eq_of_candidates hmagic h with rfl | rfl
      · exact List.not_mem_nil
      · exact List.not_mem_nil
  | true =>
      obtain ⟨directories, rfl, -, hdirectories⟩ := exists_directories hmagic h
      apply nil_not_mem_tail_insideAll hnames (slash_not_mem_nameOf path)
      rcases hdirectories with rfl | ⟨hshorter, hfound⟩
      · exact List.not_mem_nil
      · exact nil_not_mem_tail_candidates hnames hfound
termination_by path.length

/-- What a pattern matches, but for the working directory if the pattern starts with a double
star. -/
def withoutHere (pattern : List Char) (found : List (List Char)) : List (List Char) :=
  if anyDepth.isPrefixOf pattern && found.head? = some [] then found.drop 1 else found

theorem withoutHere_cases (pattern : List Char) (found : List (List Char)) :
    withoutHere pattern found = found ∨ found = [] :: withoutHere pattern found := by
  unfold withoutHere
  split
  · rename_i hdrops
    cases found with
    | nil => exact .inl rfl
    | cons first rest =>
        simp only [List.head?_cons, Option.some.injEq, Bool.and_eq_true,
          decide_eq_true_eq] at hdrops
        right
        rw [hdrops.2, List.drop_one, List.tail_cons]
  · exact .inl rfl

theorem mem_withoutHere {pattern path : List Char} {found : List (List Char)} (hne : path ≠ []) :
    path ∈ withoutHere pattern found ↔ path ∈ found := by
  rcases withoutHere_cases pattern found with hsame | hdropped
  · rw [hsame]
  · generalize withoutHere pattern found = kept at hdropped ⊢
    rw [hdropped, List.mem_cons]
    exact (or_iff_right hne).symm

theorem filter_withoutHere {old : List Char → Bool} (hnil : old [] = false) (pattern : List Char)
    (found : List (List Char)) : (withoutHere pattern found).filter old = found.filter old := by
  rcases withoutHere_cases pattern found with hsame | hdropped
  · rw [hsame]
  · generalize withoutHere pattern found = kept at hdropped ⊢
    rw [hdropped, List.filter_cons_of_neg (by simp [hnil])]

theorem gains_withoutHere {pattern : List Char} {found found' : List (List Char)}
    (hfirst : [] ∉ found.tail) (h : Gains (isOld t) found found') :
    Gains (fun path => t.exists? (String.ofList path)) (withoutHere pattern found)
      (withoutHere pattern found') where
  subset path hpath := by
    by_cases hne : path = []
    · -- the empty path is there only when it is kept for both
      subst hne
      have hmem : [] ∈ found ∧ ¬ anyDepth.isPrefixOf pattern = true := by
        unfold withoutHere at hpath
        split at hpath
        · rw [List.drop_one] at hpath
          exact absurd hpath hfirst
        · rename_i hkept
          refine ⟨hpath, fun hdeep => hkept ?_⟩
          cases found with
          | nil => cases hpath
          | cons first rest =>
              rcases List.mem_cons.mp hpath with heq | hrest
              · simp [hdeep, ← heq]
              · exact absurd hrest hfirst
      rw [withoutHere, if_neg (by simp [hmem.2])]
      exact h.subset hmem.1
    · rw [mem_withoutHere hne] at hpath ⊢
      exact h.subset hpath
  filter_eq := by
    have hnil : t.exists? (String.ofList []) = false := by
      rw [← Bool.not_eq_true]
      intro hthere
      obtain ⟨e, hleads⟩ := exists?_iff.mp hthere
      have hne := ((locate_eq_ok_iff t _ _).mp hleads.locates).2.1
      cases hne
    have honlyOld : ∀ paths : List (List Char),
        paths.filter (fun path => t.exists? (String.ofList path)) =
          (paths.filter (isOld t)).filter fun path => t.exists? (String.ofList path) := by
      intro paths
      rw [List.filter_filter]
      apply List.filter_congr
      intro path _
      cases hthere : t.exists? (String.ofList path) <;> simp [isOld, hthere]
    rw [filter_withoutHere hnil, filter_withoutHere hnil, honlyOld, honlyOld found, h.filter_eq]

end EmptyPath

/-- A pattern has gained only paths that did not lead anywhere. -/
theorem gains_expand (hgrows : t.Grows t') (hnames : t.HasNames) (hrooted : t.IsRooted)
    {pattern : String} {paths : List String} (h : expand t pattern = .ok paths) :
    ∃ paths', expand t' pattern = .ok paths' ∧ Gains t.exists? paths paths' := by
  unfold expand at h ⊢
  cases hfound : candidates t false pattern.toList with
  | error fault =>
      rw [hfound] at h
      cases h
  | ok found =>
      obtain ⟨found', hfound', hgained⟩ := gains_candidates hgrows hnames hrooted hfound
      rw [hfound] at h
      rw [hfound']
      obtain rfl := Except.ok.inj h
      refine ⟨_, rfl, Gains.mergeSort ?_ ?_ ?_ (Gains.map ?_
        (gains_withoutHere (nil_not_mem_tail_candidates hnames hfound) hgained))⟩
      · intro a b c hab hbc
        simp only [decide_eq_true_eq] at *
        exact le_trans hab hbc
      · intro a b
        simp only [Bool.or_eq_true, decide_eq_true_eq]
        exact le_total a b
      · intro a b hab hba
        simp only [decide_eq_true_eq] at *
        exact le_antisymm hab hba
      · exact fun _ => rfl

end Glob

namespace Selection

variable {t t' : FileTree}

theorem gains_addNew {old : String → Bool} {paths paths' more more' : List String}
    (hpaths : Gains old paths paths') (hmore : Gains old more more') :
    Gains old (addNew paths more) (addNew paths' more') where
  subset path hpath := by
    rw [mem_addNew] at hpath ⊢
    exact hpath.imp (fun h => hpaths.subset h) fun h => hmore.subset h
  filter_eq := by rw [filter_addNew, filter_addNew, hpaths.filter_eq, hmore.filter_eq]

theorem gains_expandPattern (hgrows : t.Grows t') (hnames : t.HasNames) (hrooted : t.IsRooted)
    {pattern : String} {paths : List String} (h : expandPattern t pattern = .ok paths) :
    ∃ paths', expandPattern t' pattern = .ok paths' ∧ Gains t.exists? paths paths' := by
  unfold expandPattern at h ⊢
  cases hfound : Glob.expand t pattern with
  | error fault =>
      rw [hfound] at h
      cases h
  | ok found =>
      obtain ⟨found', hfound', hgained⟩ := Glob.gains_expand hgrows hnames hrooted hfound
      rw [hfound] at h
      obtain rfl := Except.ok.inj h
      exact ⟨found', by rw [hfound'], hgained⟩

/-- A plain path has gained nothing, but that it may be there now. -/
theorem gains_expandItem (hgrows : t.Grows t') (hnames : t.HasNames) (hrooted : t.IsRooted)
    {onlyExisting : Bool} {v : Value} {paths : List String}
    (h : expandItem t onlyExisting v = .ok paths) :
    ∃ paths', expandItem t' onlyExisting v = .ok paths' ∧ Gains t.exists? paths paths' := by
  cases v with
  | text path =>
      simp only [expandItem] at h ⊢
      by_cases hmagic : Pattern.isMagic path.toList = true
      · rw [if_pos hmagic] at h ⊢
        exact gains_expandPattern hgrows hnames hrooted h
      · rw [if_neg hmagic] at h ⊢
        obtain rfl := Except.ok.inj h
        refine ⟨_, rfl, ?_⟩
        cases onlyExisting with
        | false => exact .refl _ _
        | true =>
            have hkept : ∀ here : Bool, (if true && !here then [] else [path]) =
                if here then [path] else [] := by
              intro here
              cases here <;> rfl
            rw [hkept, hkept]
            exact Gains.ite hgrows.exists? fun hnot _ => hnot
  | _ => cases h

theorem gains_expandItems (hgrows : t.Grows t') (hnames : t.HasNames) (hrooted : t.IsRooted)
    {onlyExisting : Bool} {items : List Value} {before before' paths : List String}
    (hbefore : Gains t.exists? before before')
    (h : expandItems t onlyExisting before items = .ok paths) :
    ∃ paths', expandItems t' onlyExisting before' items = .ok paths' ∧
      Gains t.exists? paths paths' := by
  induction items generalizing before before' with
  | nil =>
      obtain rfl := Except.ok.inj h
      exact ⟨before', rfl, hbefore⟩
  | cons v vs ih =>
      simp only [expandItems, bind_eq_ok] at h ⊢
      obtain ⟨more, hmore, hrest⟩ := h
      obtain ⟨more', hmore', hgained⟩ := gains_expandItem hgrows hnames hrooted hmore
      obtain ⟨paths', hrest', hpaths'⟩ := ih (gains_addNew hbefore hgained) hrest
      exact ⟨paths', ⟨more', hmore', hrest'⟩, hpaths'⟩

/-- Whatever value asks for paths, it has gained only paths that did not lead anywhere. -/
theorem gains_expand (hgrows : t.Grows t') (hnames : t.HasNames) (hrooted : t.IsRooted)
    {onlyExisting : Bool} {v : Value} {paths : List String}
    (h : expand t onlyExisting v = .ok paths) :
    ∃ paths', expand t' onlyExisting v = .ok paths' ∧ Gains t.exists? paths paths' := by
  unfold expand at h ⊢
  split at h
  · obtain rfl := Except.ok.inj h
    exact ⟨[], rfl, .refl _ _⟩
  · exact gains_expandPattern hgrows hnames hrooted h
  · split at h
    · exact gains_expandItems hgrows hnames hrooted (.refl _ _) h
    · cases h

end Selection

end MediaSplit
