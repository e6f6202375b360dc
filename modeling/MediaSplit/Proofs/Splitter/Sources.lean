import MediaSplit.Encoding.HostNames
import MediaSplit.Proofs.Files.Rooted
import MediaSplit.Proofs.Splitter.Collisions
import MediaSplit.Proofs.Splitter.Outputs

/-!
What a run leaves of its sources. Nothing in a run looks whether an output is a source: that none
is follows from how sources are chosen and copies are named. A source does not have the suffix in
its name, while the place of a copy ends in a name that has it; and a source is not the combined
file, as far as the two are spelled alike.
-/

namespace MediaSplit

namespace FileTree

open MediaSplit.Path

/-- The place of a file that can be read ends in the name that its path ends in. -/
theorem IsRooted.getLast?_placeOf {t : FileTree} (h : t.IsRooted) {path : String}
    {content : List UInt8} (hread : t.read path = .ok content) :
    (t.placeOf path).getLast? = some (String.ofList (nameOf path.toList)) := by
  obtain ⟨-, hasks, hlocate, hentry⟩ := (read_eq_ok_iff t path content).mp hread
  obtain ⟨-, hne, -, hopen⟩ := (locate_eq_ok_iff t path _).mp hlocate
  have hname := nameOf_ne_nil_of_file hne hasks
  rw [placeOf_eq, names_of_nameOf hname, List.foldl_cons, List.foldl_nil] at hentry ⊢
  rw [names_eq_append, isOpen_append, names_of_nameOf hname] at hopen
  obtain ⟨-, hmiddle, -⟩ := hopen
  generalize (names (directoryOf path.toList)).foldl follow (t.startOf path.toList) = middle
    at hentry hmiddle ⊢
  -- Names that say to stay or to go up lead to a directory, and that is no file to read.
  unfold follow at hentry ⊢
  split
  · rename_i hdot
    rw [if_pos hdot, hmiddle] at hentry
    cases hentry
  · rename_i hdot
    rw [if_neg hdot] at hentry
    split
    · rename_i hdots
      rw [if_pos hdots, h.directory_dropLast hmiddle] at hentry
      cases hentry
    · exact List.getLast?_concat

end FileTree

namespace Splitter

open FileTree

variable {s : Splitter}

/-- However a run ends, it has changed nothing but its outputs and the directories on the way to
them. -/
theorem changes_of_run [Codecs] (s : Splitter) (w₀ : World) :
    Changes (s.outputPaths.map w₀.tree.placeOf) (s.outputPaths.flatMap w₀.tree.parentsOf)
      w₀.tree (s.run.perform w₀).2.tree := by
  have hran := s.run_cases w₀
  generalize s.run.perform w₀ = ran at hran
  cases hran with
  | untouched tree =>
      simp only [tree]
      exact Changes.refl _ _ _
  | @unwritten _ w _ sheetOf _ failed =>
      have hrewritten : TextFile.Rewritten (s.orders sheetOf) s.configuration.encoding w₀.tree
          w.tree :=
        (rewritten_dest failed).mono (List.cons_subset_cons _ (List.nil_subset _))
      exact changes_orders hrewritten
  | @further _ _ w _ _ sheetOf _ succeeded copies tree =>
      have hrewritten : TextFile.Rewritten (s.orders sheetOf) s.configuration.encoding w₀.tree
          w.tree := by
        rw [tree]
        cases copies with
        | stopped rewritten => exact (rewritten_dest succeeded).trans rewritten
        | done rewritten => exact (rewritten_dest succeeded).trans rewritten
      exact changes_orders hrewritten

/-- A source that no output leads to can be read as before. -/
theorem read_of_run [Codecs] {w₀ : World} {path : String} {content : List UInt8}
    (hread : w₀.tree.read path = .ok content)
    (happart : ∀ output ∈ s.outputPaths, w₀.tree.placeOf output ≠ w₀.tree.placeOf path) :
    (s.run.perform w₀).2.tree.read path = .ok content := by
  apply (s.changes_of_run w₀).read hread
  intro hmem
  obtain ⟨output, houtput, heq⟩ := List.mem_map.mp hmem
  exact happart output houtput heq

/-- Without one of its sources a run does not write. -/
theorem tree_of_run_of_unread [Codecs] {w₀ : World} {path : String}
    (hpath : path ∈ s.configuration.files) (hcache : w₀.cache.get? path = none)
    (hunread : ∀ content, w₀.tree.read path ≠ .ok content) :
    (s.run.perform w₀).2.tree = w₀.tree := by
  have hknown : ∀ {c : Cache} {sheetOf : String → Stylesheet}, ¬ s.Knows w₀ c sheetOf := by
    intro c sheetOf hknows
    rcases hknows.source path hpath with ⟨serial, hcached⟩ | hload
    · rw [hcache] at hcached
      cases hcached
    · obtain ⟨bytes, -, -, hread, -⟩ := Cache.load_eq_ok hload
      exact hunread bytes hread
  have hran := s.run_cases w₀
  generalize s.run.perform w₀ = ran at hran
  cases hran with
  | untouched tree => exact tree
  | unwritten knows => exact absurd knows hknown
  | further knows => exact absurd knows hknown

/-- The place of a source is not that of a copy: the one ends in a name without the suffix, the
other in a name with it. -/
theorem placeOf_strippedPath_ne {t : FileTree} {c : Configuration} (hresolved : c.IsResolved t)
    (hsuffix : '/' ∉ c.strippedSuffix.toList) (hrooted : t.IsRooted) {path : String}
    (hpath : path ∈ c.files) {content : List UInt8} (hread : t.read path = .ok content)
    (other : String) : t.placeOf (strippedPath other c.strippedSuffix) ≠ t.placeOf path := by
  intro hplace
  have hhead : c.strippedSuffix.toList.head? ≠ some '/' :=
    fun hhead => hsuffix (List.mem_of_mem_head? hhead)
  obtain ⟨name, hlast, hinfix⟩ :=
    getLast?_placeOf_strippedPath t other hresolved.dotless hhead
  rw [hplace, hrooted.getLast?_placeOf hread] at hlast
  obtain rfl := Option.some.inj hlast
  rw [Path.nameOf_of_no_slash hsuffix, String.toList_ofList] at hinfix
  exact hresolved.notCopy path hpath ((List.prefix_append _ _).isInfix.trans hinfix)

/-- A run of a configuration that options gave, and that is not to overwrite the sources, leaves
each of them as it was, however it ends, as long as source and combined file start alike. -/
theorem sources_kept_of_resolve [Codecs] (w₀ : World) (options : Value) (c : Configuration)
    (hrooted : w₀.tree.IsRooted) (hresolve : Configuration.resolve w₀.tree options = .ok c)
    (hcopies : c.inPlace = false) (hsuffix : '/' ∉ c.strippedSuffix.toList)
    (listener : Event → Option String) (workers : Option Int) (schedule : Phase → List Nat) :
    let after := ((Splitter.mk c listener workers schedule).run.perform w₀).2.tree
    ∀ path ∈ c.files,
      ((Path.slashes path.toList).length = 2 ↔ (Path.slashes c.dest.toList).length = 2) →
      (∀ content, w₀.tree.read path = .ok content → after.read path = .ok content) ∧
        (w₀.cache.get? path = none → after.read path = w₀.tree.read path) := by
  intro after path hpath hstart
  have hresolved := Configuration.isResolved_of_resolve hresolve
  have hdest : w₀.tree.placeOf c.dest ≠ w₀.tree.placeOf path := by
    intro hplace
    have hsame := (samePath_iff w₀.tree path c.dest).mpr ⟨hplace.symm, hstart⟩
    rw [hresolved.notDest path hpath] at hsame
    cases hsame
  have hkept : ∀ content, w₀.tree.read path = .ok content → after.read path = .ok content := by
    intro content hread
    apply read_of_run hread
    intro output houtput
    rcases List.mem_cons.mp houtput with rfl | hcopy
    · exact hdest
    · obtain ⟨other, -, rfl⟩ := List.mem_map.mp hcopy
      simp only [outputPath, hcopies]
      exact placeOf_strippedPath_ne hresolved hsuffix hrooted hpath hread other
  refine ⟨hkept, fun hcache => ?_⟩
  cases hread : w₀.tree.read path with
  | ok content => exact hkept content hread
  | error fault =>
      -- Otherwise the run stops before it writes, so the source cannot turn up in its place.
      have htree : after = w₀.tree := by
        apply tree_of_run_of_unread hpath hcache
        rw [hread]
        intro _ heq
        cases heq
      rw [htree, hread]

theorem sources_kept_of_resolve_rooted :
    let t := treeOf [["a.css"]]
    ∃ c, t.IsRooted ∧ Configuration.resolve t (optionsFor ["a.css"] "/out.css" "x") = .ok c ∧
      c.inPlace = false ∧ '/' ∉ c.strippedSuffix.toList ∧ c.files = ["a.css"] ∧
      ((Path.slashes "a.css".toList).length = 2 ↔ (Path.slashes c.dest.toList).length = 2) ∧
      ((splitterFor c).run.perform (World.fresh t c.encoding)).2.tree.read "a.css" =
        t.read "a.css" := by
  intro t
  have hrooted : t.IsRooted := IsRooted.of_entries rfl (by decide)
  obtain ⟨c, hc, hvalues⟩ := @exists_of_toOption_map _ _ _
    (Configuration.resolve t (optionsFor ["a.css"] "/out.css" "x"))
    (fun c => (c.files, c.inPlace, c.strippedSuffix, c.dest))
    (["a.css"], false, "x", "/out.css") (by decide +kernel)
  simp only [Prod.mk.injEq] at hvalues
  obtain ⟨hfiles, hcopies, hsuffix, hdest⟩ := hvalues
  have hslash : '/' ∉ c.strippedSuffix.toList := by
    rw [hsuffix]
    decide
  have hstart : (Path.slashes "a.css".toList).length = 2 ↔
      (Path.slashes c.dest.toList).length = 2 := by
    rw [hdest]
    decide
  obtain ⟨-, hkept⟩ := sources_kept_of_resolve (World.fresh t c.encoding) _ c hrooted hc hcopies
    hslash _ _ _ "a.css" (by simp [hfiles]) hstart
  exact ⟨c, hrooted, hc, hcopies, hslash, hfiles, hstart, hkept rfl⟩

/-- A path with two slashes at its start is told from the same path with one, though both lead to
one file: it is kept as a source, and the combined file takes its place. -/
theorem source_lost_behind_two_slashes :
    ¬ ∀ (t : FileTree) (options : Value) (c : Configuration), t.IsRooted →
      Configuration.resolve t options = .ok c → c.inPlace = false →
      '/' ∉ c.strippedSuffix.toList → ∀ path ∈ c.files,
        ((splitterFor c).run.perform (World.fresh t c.encoding)).2.tree.read path =
          t.read path := by
  intro h
  have hrooted : (treeOf [["a.css"]]).IsRooted :=
    IsRooted.of_entries rfl (by decide)
  obtain ⟨c, hc, hvalues⟩ := @exists_of_toOption_map _ _ _
    (Configuration.resolve (treeOf [["a.css"]]) (optionsFor ["//a.css"] "/a.css" "x"))
    (fun c => (c.files, c.inPlace, c.strippedSuffix,
      ((splitterFor c).run.perform (World.fresh (treeOf [["a.css"]]) c.encoding)).2.tree.read
        "//a.css"))
    (["//a.css"], false, "x", .ok []) (by decide +kernel)
  simp only [Prod.mk.injEq] at hvalues
  obtain ⟨hfiles, hcopies, hsuffix, hread⟩ := hvalues
  have hkept := h _ _ c hrooted hc hcopies (by rw [hsuffix]; decide) "//a.css" (by simp [hfiles])
  rw [hread] at hkept
  revert hkept
  decide +kernel

end Splitter

end MediaSplit
