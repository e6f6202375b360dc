import MediaSplit.Proofs.Files.Reaching

/-!
Whether a file is a source twice. A single pattern gives no file twice if it comes to each in one
way only. A list of paths and patterns gives no path twice, and no file either if all of them are
spelled alike: by names that lead down from one directory.
-/

namespace MediaSplit

namespace Path

def joinAll (directory : List Char) (way : List String) : List Char :=
  way.foldl (fun path name => join path name.toList) directory

variable {directory name : List Char} {way : List String}

theorem joinAll_append (directory : List Char) (first last : List String) :
    joinAll directory (first ++ last) = joinAll (joinAll directory first) last :=
  List.foldl_append

/-- A directory with the slash that asks for it, if there is to be one. -/
theorem join_nil_cases (directory : List Char) :
    join directory [] = directory ∧ (directory = [] ∨ ∃ front, directory = front ++ ['/']) ∨
      join directory [] = directory ++ ['/'] ∧ ∃ front c, directory = front ++ [c] ∧ c ≠ '/' := by
  rcases List.eq_nil_or_concat' directory with rfl | ⟨front, c, rfl⟩
  · exact .inl ⟨rfl, .inl rfl⟩
  · by_cases hc : c = '/'
    · subst hc
      exact .inl ⟨by simp [join], .inr ⟨front, rfl⟩⟩
    · exact .inr ⟨by simp [join, hc], front, c, rfl, hc⟩

theorem join_eq_append (h : name.head? ≠ some '/') :
    join directory name = join directory [] ++ name := by
  have hnil : ([] : List Char).head? ≠ some '/' := nofun
  unfold join
  rw [if_neg h, if_neg hnil]
  split <;> simp

/-- The slash makes no difference to what follows. -/
theorem join_join_nil (h : name.head? ≠ some '/') :
    join (join directory []) name = join directory name := by
  rw [join_eq_append h, @join_eq_append directory name h]
  congr 1
  rcases join_nil_cases directory with ⟨hsame, -⟩ | ⟨hslash, front, c, -, -⟩
  · rw [hsame, hsame]
  · rw [hslash]
    simp [join]

theorem nameOf_join_nil (directory : List Char) : nameOf (join directory []) = [] := by
  rcases join_nil_cases directory with ⟨hsame, rfl | ⟨front, rfl⟩⟩ | ⟨hslash, -⟩
  · rfl
  · rw [hsame]
    exact nameOf_append_slash front []
  · rw [hslash]
    exact nameOf_append_slash directory []

theorem dropSlashes_of_last {front : List Char} {c : Char} (hc : c ≠ '/') :
    dropSlashes (front ++ [c]) = front ++ [c] := by
  simp [dropSlashes, hc]

theorem dropSlashes_join_nil (h : dropSlashes directory = directory) :
    dropSlashes (join directory []) = directory := by
  rcases join_nil_cases directory with ⟨hsame, -⟩ | ⟨hslash, front, c, rfl, hc⟩
  · rw [hsame, h]
  · rw [hslash]
    simp [dropSlashes, hc]

theorem nameOf_join (hname : '/' ∉ name) : nameOf (join directory name) = name := by
  rw [join_eq_append (head?_ne_of_not_mem hname), nameOf_append hname, nameOf_join_nil,
    List.nil_append]

theorem directoryOf_join (hname : '/' ∉ name) (h : dropSlashes directory = directory) :
    directoryOf (join directory name) = directory := by
  have hwhole := beforeName_append_nameOf (join directory [])
  rw [nameOf_join_nil, List.append_nil] at hwhole
  rw [join_eq_append (head?_ne_of_not_mem hname), directoryOf_append hname, directoryOf, hwhole,
    dropSlashes_join_nil h]

end Path

namespace FileTree

open MediaSplit.Path

variable {t : FileTree} {directory : List Char} {way : List String}

theorem IsName.exists_last {name : String} (h : IsName name) :
    ∃ front c, name.toList = front ++ [c] ∧ c ≠ '/' := by
  obtain ⟨front, c, hlast⟩ :=
    (List.eq_nil_or_concat' name.toList).resolve_left (by simpa using h.nonempty)
  refine ⟨front, c, hlast, ?_⟩
  rintro rfl
  exact h.noSlash (by simp [hlast])

/-- A path that ends in a name has no slash at its end. -/
theorem IsName.exists_last_join {name : String} (h : IsName name) (directory : List Char) :
    ∃ front c, join directory name.toList = front ++ [c] ∧ c ≠ '/' := by
  obtain ⟨front, c, hlast, hc⟩ := h.exists_last
  refine ⟨join directory [] ++ front, c, ?_, hc⟩
  rw [join_eq_append (head?_ne_of_not_mem h.noSlash), hlast, List.append_assoc]

theorem dropSlashes_joinAll (hdirectory : dropSlashes directory = directory)
    (h : ∀ name ∈ way, IsName name) :
    dropSlashes (joinAll directory way) = joinAll directory way := by
  rcases List.eq_nil_or_concat' way with rfl | ⟨first, name, rfl⟩
  · exact hdirectory
  · have hname : IsName name := h name (by simp)
    obtain ⟨front, c, hlast, hc⟩ := hname.exists_last_join (joinAll directory first)
    have hjoin : joinAll (joinAll directory first) [name] = front ++ [c] := hlast
    rw [joinAll_append, hjoin, dropSlashes_of_last hc]

/-- Names between slashes are joined one by one. -/
theorem join_intercalate (h : ∀ name ∈ way, IsName name) (hne : way ≠ []) :
    join directory (['/'].intercalate (way.map String.toList)) = joinAll directory way := by
  induction way generalizing directory with
  | nil => exact absurd rfl hne
  | cons name rest ih =>
      obtain ⟨hname, hrest⟩ := List.forall_mem_cons.mp h
      cases rest with
      | nil => simp [joinAll]
      | cons next rest =>
          have hjoin : joinAll directory (name :: next :: rest) =
              joinAll (join directory name.toList) (next :: rest) := rfl
          have hhead := Glob.head?_intercalate h
          have hhead' := Glob.head?_intercalate hrest
          obtain ⟨front, c, hlast, hc⟩ := hname.exists_last_join directory
          have hslash : join (front ++ [c]) [] = front ++ [c] ++ ['/'] := by simp [join, hc]
          rw [hjoin, ← ih hrest (List.cons_ne_nil _ _), join_eq_append hhead, join_eq_append hhead',
            hlast, hslash, ← hlast, join_eq_append (head?_ne_of_not_mem hname.noSlash)]
          simp

theorem placeOf_joinAll (t : FileTree) (directory : List Char) (h : ∀ name ∈ way, IsName name) :
    t.placeOf (String.ofList (joinAll directory way)) =
      t.placeOf (String.ofList directory) ++ way := by
  by_cases hne : way = []
  · rw [hne, List.append_nil]
    rfl
  · rw [← join_intercalate h hne, Glob.placeOf_join t directory h]

end FileTree

namespace Glob

open FileTree MediaSplit.Path

variable {t : FileTree} {directory : List Char} {onlyDirectories : Bool} {way : List String}

/-- Behind a directory a part of a pattern matches names that lead down, or nothing if it is a
double star. -/
theorem exists_way_of_mem_inside (hnames : t.HasNames) {name : String} (hname : IsName name)
    {found : List Char} (h : found ∈ inside t directory name.toList onlyDirectories) :
    name = "**" ∧ found = [] ∨ ∃ way, (∀ name ∈ way, IsName name) ∧
      ∀ before, join before found = joinAll before way := by
  unfold inside at h
  split at h
  · rcases List.mem_append.mp h with hself | hbelow
    · split at hself
      · rename_i hdeep
        exact .inl ⟨String.toList_inj.mp hdeep, List.mem_singleton.mp hself⟩
      · cases hself
    · split at hbelow
      · obtain ⟨kind, hkind, hpicked⟩ := List.mem_filterMap.mp hbelow
        obtain ⟨way, hne, hway, -, rfl⟩ := exists_way_of_picked hnames hkind hpicked
        exact .inr ⟨way, hway, fun _ => join_intercalate hway hne⟩
      · cases hbelow
  · obtain rfl := eq_of_mem_literalName h
    exact .inr ⟨[name], List.forall_mem_singleton.mpr hname, fun _ => rfl⟩

/-- That a directory is written so that names can be added to it: no pattern, and without a slash at
its end unless there is nothing else. -/
structure IsBase (directory : List Char) : Prop where
  plain : Pattern.isMagic directory = false
  ending : dropSlashes directory = directory

/-- A pattern of names that lead down from a directory matches paths that are spelled in the same
way; only what a double star at its end matches can end in a slash. -/
theorem exists_way_of_candidates (hnames : t.HasNames) (hbase : IsBase directory)
    (hway : ∀ name ∈ way, IsName name) {found : List (List Char)}
    (h : candidates t onlyDirectories (joinAll directory way) = .ok found) :
    ∀ path ∈ found, ∃ way', (∀ name ∈ way', IsName name) ∧
      (path = joinAll directory way' ∨
        way.getLast? = some "**" ∧ path = join (joinAll directory way') []) := by
  induction way using List.reverseRecOn generalizing found onlyDirectories with
  | nil =>
      intro path hpath
      refine ⟨[], List.forall_mem_nil _, .inl ?_⟩
      rcases eq_of_candidates hbase.plain h with rfl | rfl
      · cases hpath
      · exact List.mem_singleton.mp hpath
  | append_singleton front name ih =>
      obtain ⟨hfront, hname⟩ := List.forall_mem_append.mp hway
      replace hname := List.forall_mem_singleton.mp hname
      intro path hpath
      cases hmagic : Pattern.isMagic (joinAll directory (front ++ [name])) with
      | false =>
          refine ⟨front ++ [name], hway, .inl ?_⟩
          rcases eq_of_candidates hmagic h with rfl | rfl
          · cases hpath
          · exact List.mem_singleton.mp hpath
      | true =>
          have hpattern : joinAll directory (front ++ [name]) =
              join (joinAll directory front) name.toList := joinAll_append directory front [name]
          obtain ⟨directories, rfl, -, hdirectories⟩ := exists_directories hmagic h
          rw [hpattern, directoryOf_join hname.noSlash (dropSlashes_joinAll hbase.ending hfront)]
            at hdirectories
          rw [hpattern, nameOf_join hname.noSlash] at hpath
          obtain ⟨before, hbefore, hmem⟩ := List.mem_flatMap.mp hpath
          obtain ⟨found, hfound, rfl⟩ := List.mem_map.mp hmem
          obtain ⟨way', hway', hspelled⟩ : ∃ way', (∀ name ∈ way', IsName name) ∧
              (before = joinAll directory way' ∨ before = join (joinAll directory way') []) := by
            rcases hdirectories with rfl | ⟨-, hfound⟩
            · exact ⟨front, hfront, .inl (List.mem_singleton.mp hbefore)⟩
            · obtain ⟨way', hway', hspelled⟩ := ih hfront hfound before hbefore
              exact ⟨way', hway', hspelled.imp_right And.right⟩
          -- with or without a slash at its end, the directory is joined to what follows in one way
          have hjoin : ∀ {name : List Char}, name.head? ≠ some '/' →
              join before name = join (joinAll directory way') name := by
            intro name hhead
            rcases hspelled with rfl | rfl
            · rfl
            · exact join_join_nil hhead
          rw [hjoin (head?_of_mem_inside hnames hname.noSlash hfound)]
          rcases exists_way_of_mem_inside hnames hname hfound with ⟨rfl, rfl⟩ | ⟨more, hmore, hall⟩
          · exact ⟨way', hway', .inr ⟨by simp, rfl⟩⟩
          · refine ⟨way' ++ more, List.forall_mem_append.mpr ⟨hway', hmore⟩, .inl ?_⟩
            rw [hall, joinAll_append]

end Glob

namespace Selection

open FileTree MediaSplit.Path

variable {t : FileTree} {directory : List Char} {onlyExisting : Bool}

/-- That a value asks for paths by names that lead down from a directory, patterns of names among
them but no double star at the end. -/
def IsBelow (directory : List Char) (v : Value) : Prop :=
  ∃ way, (∀ name ∈ way, IsName name) ∧ way.getLast? ≠ some "**" ∧
    v = .text (String.ofList (joinAll directory way))

theorem mem_expandItems {items : List Value} {paths found : List String} {path : String}
    (h : expandItems t onlyExisting paths items = .ok found) :
    path ∈ found ↔ path ∈ paths ∨
      ∃ v ∈ items, ∃ more, expandItem t onlyExisting v = .ok more ∧ path ∈ more := by
  induction items generalizing paths with
  | nil =>
      obtain rfl := Except.ok.inj h
      simp
  | cons v items ih =>
      rw [expandItems] at h
      cases hmore : expandItem t onlyExisting v with
      | error fault => simp [hmore, bind, Except.bind] at h
      | ok more =>
          simp only [hmore, bind, Except.bind] at h
          rw [ih h, mem_addNew, or_assoc, List.exists_mem_cons_iff, hmore]
          simp

theorem expandPattern_eq_ok_iff {pattern : String} {paths : List String} :
    expandPattern t pattern = .ok paths ↔ Glob.expand t pattern = .ok paths := by
  unfold expandPattern
  cases Glob.expand t pattern <;> simp

/-- What is asked for by names that lead down is spelled by names that lead down. -/
theorem exists_way_of_expandItem (hnames : t.HasNames) (hbase : Glob.IsBase directory)
    {v : Value} (hv : IsBelow directory v) {paths : List String}
    (h : expandItem t onlyExisting v = .ok paths) :
    ∀ path ∈ paths, ∃ way, (∀ name ∈ way, IsName name) ∧
      path = String.ofList (joinAll directory way) := by
  obtain ⟨way, hway, hlast, rfl⟩ := hv
  intro path hpath
  rw [expandItem, String.toList_ofList] at h
  split at h
  · obtain ⟨found, hfound, hperm⟩ := Glob.exists_candidates (expandPattern_eq_ok_iff.mp h)
    rw [String.toList_ofList] at hfound
    obtain ⟨chars, hchars, rfl⟩ := List.mem_map.mp (hperm.mem_iff.mp hpath)
    obtain ⟨way', hway', hspelled | ⟨hdeep, -⟩⟩ :=
      Glob.exists_way_of_candidates hnames hbase hway hfound chars
        ((Glob.withoutHere_sublist _ found).subset hchars)
    · exact ⟨way', hway', congrArg String.ofList hspelled⟩
    · exact absurd hdeep hlast
  · obtain rfl := Except.ok.inj h
    refine ⟨way, hway, ?_⟩
    split at hpath
    · cases hpath
    · exact List.mem_singleton.mp hpath

theorem exists_paths_of_sourceFiles {source ignore : Value} {dest suffix : String}
    {files : List String} (h : sourceFiles t source ignore dest suffix = .ok files) :
    ∃ paths, expand t false source = .ok paths ∧ files.Sublist paths := by
  obtain ⟨judged, hjudged, rfl⟩ := exists_judged_of_sourceFiles h
  obtain ⟨paths, ignored, hpaths, -, hkept⟩ := kept_eq_filter hjudged
  refine ⟨paths, hpaths, ?_⟩
  rw [hkept]
  exact List.filter_sublist

theorem samePath_of_placeOf_ne {path other : String} (h : t.placeOf path ≠ t.placeOf other) :
    samePath t path other = false := by
  rw [← Bool.not_eq_true, samePath_iff]
  exact fun hsame => h hsame.1

/-- No file is a source twice if it is asked for by a single pattern that comes to each file in one
way only. A list names no path twice; and no file either where each of its items leads down from the
same directory, spelled in the same way. -/
theorem apart_of_sourceFiles (hnames : t.HasNames) (hnodup : (Table.keys t.entries).Nodup)
    {source ignore : Value} {dest suffix : String} {files : List String}
    (h : sourceFiles t source ignore dest suffix = .ok files) :
    (∀ pattern, source = .text pattern → Glob.IsStraight (names pattern.toList) →
      files.Pairwise fun path other => samePath t path other = false) ∧
    ((∀ pattern, source ≠ .text pattern) → files.Nodup ∧
      ∀ items directory, source.items? = some items → Glob.IsBase directory →
        (∀ item ∈ items, IsBelow directory item) →
        files.Pairwise fun path other => samePath t path other = false) := by
  obtain ⟨paths, hpaths, hfiles⟩ := exists_paths_of_sourceFiles h
  constructor
  · rintro pattern rfl hstraight
    have hexpand : Glob.expand t pattern = .ok paths := expandPattern_eq_ok_iff.mp hpaths
    have hapart := Glob.pairwise_expand hnames hnodup hexpand hstraight
    exact (hapart.imp samePath_of_placeOf_ne).sublist hfiles
  · intro hlist
    have hunique : paths.Nodup := nodup_expand hlist hpaths
    refine ⟨hunique.sublist hfiles, fun items directory hitems hbase hbelow => ?_⟩
    have hspelled : ∀ path ∈ paths, ∃ way, (∀ name ∈ way, IsName name) ∧
        path = String.ofList (joinAll directory way) := by
      have hexpand : expandItems t false [] items = .ok paths := by
        cases source with
        | text pattern => exact absurd rfl (hlist pattern)
        | null => cases hitems
        | _ => simpa [expand, hitems] using hpaths
      intro path hpath
      obtain hold | ⟨v, hv, more, hmore, hmem⟩ := (mem_expandItems hexpand).mp hpath
      · cases hold
      · exact exists_way_of_expandItem hnames hbase (hbelow v hv) hmore path hmem
    have hapart : paths.Pairwise fun path other => t.placeOf path ≠ t.placeOf other := by
      refine hunique.imp_of_mem fun hpath hother hne heq => hne ?_
      obtain ⟨way, hway, rfl⟩ := hspelled _ hpath
      obtain ⟨way', hway', rfl⟩ := hspelled _ hother
      -- the names that lead down are those of the place
      rw [placeOf_joinAll t directory hway, placeOf_joinAll t directory hway',
        List.append_cancel_left_eq] at heq
      rw [heq]
    exact (hapart.imp samePath_of_placeOf_ne).sublist hfiles

def twoSheets : FileTree :=
  ⟨[(["d"], .directory), (["d", "a.css"], .file []), (["d", "b.css"], .file [])], []⟩

theorem hasNames_twoSheets : twoSheets.HasNames := by
  decide

theorem nodup_twoSheets : (Table.keys twoSheets.entries).Nodup := by
  decide

/-- A pattern that reaches into a directory, and a list whose pattern matches what it names, too. -/
theorem apart_of_sourceFiles_overlapping :
    let items : List Value := [.text "d/b.css", .text "d/*.css"]
    twoSheets.HasNames ∧ (Table.keys twoSheets.entries).Nodup ∧
      Glob.IsStraight (names "**/*.css".toList) ∧ (∀ item ∈ items, IsBelow ['d'] item) ∧
      (∃ files, sourceFiles twoSheets (.text "**/*.css") .null "o.css" "zz" = .ok files ∧
        files = ["d/a.css", "d/b.css"] ∧
        files.Pairwise fun path other => samePath twoSheets path other = false) ∧
      ∃ files, sourceFiles twoSheets (.list items) .null "o.css" "zz" = .ok files ∧
        files = ["d/b.css", "d/a.css"] ∧
        files.Pairwise fun path other => samePath twoSheets path other = false := by
  intro items
  have hstraight : Glob.IsStraight (names "**/*.css".toList) := by
    decide +kernel
  have hbelow : ∀ item ∈ items, IsBelow ['d'] item := by
    simp only [items, List.forall_mem_cons]
    refine ⟨⟨["b.css"], ?_, ?_, rfl⟩, ⟨["*.css"], ?_, ?_, rfl⟩, List.forall_mem_nil _⟩
    all_goals
      decide
  have hsingle : sourceFiles twoSheets (.text "**/*.css") .null "o.css" "zz" =
      .ok ["d/a.css", "d/b.css"] := by
    have hexpand : Glob.expand twoSheets "**/*.css" = .ok ["d/a.css", "d/b.css"] := by
      apply Glob.expand_of_pairwise
      · rw [Glob.candidates, Glob.candidates]
        decide +kernel
      · decide +kernel
    simp only [sourceFiles, judgeAll, expand, expandPattern, hexpand]
    rfl
  have hlisted : sourceFiles twoSheets (.list items) .null "o.css" "zz" =
      .ok ["d/b.css", "d/a.css"] := by
    have hexpand : Glob.expand twoSheets "d/*.css" = .ok ["d/a.css", "d/b.css"] := by
      apply Glob.expand_of_pairwise
      · rw [Glob.candidates]
        decide +kernel
      · decide +kernel
    have hmagic : Pattern.isMagic "d/*.css".toList = true := by
      decide
    simp only [sourceFiles, judgeAll, expand, items, Value.items?, expandItems, expandItem,
      expandPattern, hexpand, hmagic, if_true]
    rfl
  obtain ⟨hpattern, -⟩ := apart_of_sourceFiles hasNames_twoSheets nodup_twoSheets hsingle
  obtain ⟨-, hlist⟩ := apart_of_sourceFiles hasNames_twoSheets nodup_twoSheets hlisted
  refine ⟨hasNames_twoSheets, nodup_twoSheets, hstraight, hbelow,
    ⟨_, hsingle, rfl, hpattern _ rfl hstraight⟩, ⟨_, hlisted, rfl, ?_⟩⟩
  have hnotText : ∀ pattern, Value.list items ≠ .text pattern := by
    simp
  exact (hlist hnotText).2 items ['d'] rfl ⟨rfl, rfl⟩ hbelow

/-- A pattern with two double stars gives a file as often as there are ways to it, and a list gives
it once for each spelling. -/
theorem selected_twice :
    twoSheets.HasNames ∧ (Table.keys twoSheets.entries).Nodup ∧
      (∃ files, sourceFiles twoSheets (.text "**/**/a.css") .null "o.css" "zz" = .ok files ∧
        ¬ files.Pairwise fun path other => samePath twoSheets path other = false) ∧
      ∃ files, sourceFiles twoSheets (.list [.text "d/a.css", .text "./d/a.css"]) .null "o.css"
          "zz" = .ok files ∧
        ¬ files.Pairwise fun path other => samePath twoSheets path other = false := by
  have hsingle : sourceFiles twoSheets (.text "**/**/a.css") .null "o.css" "zz" =
      .ok ["d/a.css", "d/a.css"] := by
    have hexpand : Glob.expand twoSheets "**/**/a.css" = .ok ["d/a.css", "d/a.css"] := by
      apply Glob.expand_of_pairwise
      · rw [Glob.candidates, Glob.candidates, Glob.candidates]
        decide +kernel
      · decide +kernel
    simp only [sourceFiles, judgeAll, expand, expandPattern, hexpand]
    rfl
  have hlisted : sourceFiles twoSheets (.list [.text "d/a.css", .text "./d/a.css"]) .null "o.css"
      "zz" = .ok ["d/a.css", "./d/a.css"] := rfl
  refine ⟨hasNames_twoSheets, nodup_twoSheets, ⟨_, hsingle, ?_⟩, ⟨_, hlisted, ?_⟩⟩
  · decide +kernel
  · decide +kernel

end Selection

end MediaSplit
