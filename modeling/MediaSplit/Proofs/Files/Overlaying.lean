import MediaSplit.Proofs.Files.Touching
import MediaSplit.Proofs.Files.Widening

/-!
Attempts to write that leave each other alone. What an attempt does to a tree can be laid over
another tree: it does the same there, with the same outcome, if the other tree has at most
directories more on the way to the file and none where the file is. So several attempts whose files
are apart, none of them on the way to another, end alike in every order, and leave the same files.
-/

namespace MediaSplit

namespace FileTree

open MediaSplit.Path

/-- That a tree is another one with some entries laid over it. -/
structure Overlaid (effect : Location → Option Entry) (t t' : FileTree) : Prop where
  workingDirectory : t'.workingDirectory = t.workingDirectory
  entry : ∀ place, t'.entry? place = (effect place).or (t.entry? place)

/-- What an attempt to write to a path can do to a tree: make missing directories on the way, and
put a file at the end. -/
def IsEffect (t : FileTree) (path : String) (effect : Location → Option Entry) : Prop :=
  ∀ place e, effect place = some e →
    e = .directory ∧ t.entry? place = none ∧ place ∈ t.parentsOf path ∨
    place = t.placeOf path ∧ ∃ content, e = .file content

/-- The directories that are added to a tree, as entries laid over it. -/
def directoriesAt (made : List Location) (place : Location) : Option Entry :=
  if place ∈ made then some .directory else none

theorem Added.overlaid {made : List Location} {t t' : FileTree} (h : Added made t t') :
    Overlaid (directoriesAt made) t t' := by
  refine ⟨h.workingDirectory, fun place => ?_⟩
  rw [h.entry, directoriesAt]
  split <;> simp

/-- A file that is put over what an attempt has done so far. -/
def withFile (place : Location) (content : List UInt8) (effect : Location → Option Entry)
    (other : Location) : Option Entry :=
  if other = place then some (.file content) else effect other

/-- Making the directories that are missing on the way is part of an attempt. -/
theorem Added.isEffect {made : List Location} {t t' : FileTree} {path : String}
    (h : Added made t t') (hmissing : ∀ place ∈ made, t.entry? place = none)
    (hchanges : Changes [] (t.parentsOf path) t t') : t.IsEffect path (directoriesAt made) := by
  intro place e heffect
  unfold directoriesAt at heffect
  split at heffect
  · rename_i hmem
    have hnone := hmissing place hmem
    refine Or.inl ⟨(Option.some.inj heffect).symm, hnone, ?_⟩
    rcases hchanges.kept place List.not_mem_nil with hsame | ⟨-, -, hparent⟩
    · rw [h.entry, if_pos hmem, hnone] at hsame
      cases hsame
    · exact hparent
  · cases heffect

theorem IsEffect.withFile {t : FileTree} {path : String} {effect : Location → Option Entry}
    (h : t.IsEffect path effect) (content : List UInt8) :
    t.IsEffect path (withFile (t.placeOf path) content effect) := by
  intro place e heffect
  unfold FileTree.withFile at heffect
  split at heffect
  · rename_i hplace
    exact Or.inr ⟨hplace, content, (Option.some.inj heffect).symm⟩
  · exact h place e heffect

theorem Overlaid.put {effect : Location → Option Entry} {t t' : FileTree}
    (h : Overlaid effect t t') {place : Location} (hplace : place ≠ []) (content : List UInt8) :
    Overlaid (withFile place content effect) t (t'.put place (.file content)) := by
  refine ⟨h.workingDirectory, fun other => ?_⟩
  rw [entry?_put t' hplace, withFile]
  split
  · rfl
  · exact h.entry other

theorem withFile_withFile (place : Location) (first second : List UInt8)
    (effect : Location → Option Entry) :
    withFile place second (withFile place first effect) = withFile place second effect := by
  funext other
  unfold withFile
  split <;> rfl

end FileTree

namespace TextFile

open FileTree MediaSplit.Path

variable {t t' : FileTree} {path : String}

private theorem startOf_directoryOf (t : FileTree) (path : String) :
    t.startOf (directoryOf path.toList) = t.startOf path.toList := by
  simp only [FileTree.startOf, head?_directoryOf]

/-- The directories on the way to a file are made alike. -/
theorem makeParents_alike (h : Widened (t.parentsOf path) t t') (hrooted : t.IsRooted)
    (hdown : t.LeadsDown (t.startOf path.toList) (names (directoryOf path.toList))) :
    (makeParents t' path).1 = (makeParents t path).1 ∧
      AddedAlike t (makeParents t path).2 t' (makeParents t' path).2 := by
  simp only [makeParents]
  split
  · exact ⟨rfl, .refl t t'⟩
  · rw [parentsOf, ← startOf_directoryOf] at h
    rw [← startOf_directoryOf] at hdown
    exact makeDirectories_alike h hrooted hdown

theorem present_of_makeParents (hworking : t.entry? t.workingDirectory = some .directory)
    (h : (makeParents t path).1 = .ok ()) :
    ∀ place ∈ t.parentsOf path, FileTree.entry? (makeParents t path).2 place ≠ none := by
  simp only [makeParents] at h ⊢
  split
  · rename_i hempty
    rw [parentsOf, List.isEmpty_iff.mp hempty]
    exact fun place hplace => absurd hplace List.not_mem_nil
  · rename_i hempty
    rw [if_neg hempty] at h
    have hpresent := present_of_makeDirectories hworking (by rw [h]; rfl)
    rwa [startOf_directoryOf] at hpresent

/-- The way to a file leads alike once its directories are there. -/
private theorem locate_alike (h : Widened (t.parentsOf path) t t')
    (hpresent : ∀ place ∈ t.parentsOf path, t.entry? place ≠ none) :
    t'.locate path = t.locate path := by
  have hname : (names (nameOf path.toList)).length ≤ 1 := by
    rw [names_of_no_slash (slash_not_mem_nameOf _)]
    split <;> simp
  refine locate_congr h.workingDirectory (names_eq_append _) hname fun place hplace => ?_
  rcases List.mem_cons.mp hplace with rfl | hplace
  · obtain ⟨hstart, hstart'⟩ := h.entry?_startOf path.toList
    rw [hstart, hstart']
  · exact h.same hplace (hpresent place hplace)

private def openAndFill [Codecs] (t : FileTree) (encoding path text : String) :
    Except Fault Unit × FileTree :=
  match t.openForWriting path with
  | .error fault => (.error (.path fault), t)
  | .ok (place, opened) => fill opened place encoding text

/-- That an attempt leaves a tree alone, or puts a file over what is there. -/
private def PutsFile (place : Location) (content : Option (List UInt8)) (t u : FileTree) : Prop :=
  match content with
  | none => u = t
  | some bytes => ∀ effect t₀, Overlaid effect t₀ t → Overlaid (withFile place bytes effect) t₀ u

private theorem putsFile_fill [Codecs] {place : Location} (hplace : place ≠ []) (t : FileTree)
    (encoding text : String) :
    PutsFile place (some (match written encoding text with
      | .error _ => []
      | .ok bytes => bytes)) t (fill (t.put place (.file [])) place encoding text).2 := by
  intro effect t₀ hover
  have hopened := hover.put hplace []
  unfold fill
  cases written encoding text with
  | error fault => exact hopened
  | ok bytes =>
      have hfilled := hopened.put hplace bytes
      rwa [withFile_withFile] at hfilled

private theorem openAndFill_alike [Codecs] (h : Widened (t.parentsOf path) t t')
    (hpresent : ∀ place ∈ t.parentsOf path, t.entry? place ≠ none)
    (hending : t'.entry? (t.placeOf path) = some .directory ↔
      t.entry? (t.placeOf path) = some .directory) (encoding text : String) :
    (openAndFill t' encoding path text).1 = (openAndFill t encoding path text).1 ∧
      ∃ content, PutsFile (t.placeOf path) content t (openAndFill t encoding path text).2 ∧
        PutsFile (t.placeOf path) content t' (openAndFill t' encoding path text).2 := by
  unfold openAndFill
  cases hclean : path.toList.contains '\x00' with
  | true =>
      rw [openForWriting_of_nul hclean, openForWriting_of_nul hclean]
      exact ⟨rfl, none, rfl, rfl⟩
  | false =>
      rw [openForWriting_eq hclean, openForWriting_eq hclean, locate_alike h hpresent]
      cases hlocate : t.locate path with
      | error trouble => exact ⟨rfl, none, rfl, rfl⟩
      | ok place =>
          obtain rfl := ((locate_eq_ok_iff t path place).mp hlocate).1
          by_cases hasks : asksForDirectory path = true
          · simp only [hasks, if_true]
            exact ⟨trivial, none, rfl, rfl⟩
          · by_cases hdir : t.entry? (t.placeOf path) = some .directory
            · simp only [hasks, hending.mpr hdir, hdir, if_true, Bool.false_eq_true, if_false]
              exact ⟨trivial, none, rfl, rfl⟩
            · simp only [hasks, hdir, mt hending.mp hdir, Bool.false_eq_true, if_false]
              have hplace := ne_nil_of_entry?_ne_directory hdir
              refine ⟨?_, _, putsFile_fill hplace t encoding text,
                putsFile_fill hplace t' encoding text⟩
              unfold fill
              cases written encoding text <;> rfl

/-- An attempt to write does alike on a tree that others have written to, if they have made at most
directories on its way and none where its file is. -/
theorem write_alike [Codecs] (h : Widened (t.parentsOf path) t t') (hrooted : t.IsRooted)
    (hdown : t.LeadsDown (t.startOf path.toList) (names (directoryOf path.toList)))
    (hending : t'.entry? (t.placeOf path) = some .directory ↔
      t.entry? (t.placeOf path) = some .directory) (encoding text : String) :
    (write t' encoding path text).1 = (write t encoding path text).1 ∧
      ∃ effect, t.IsEffect path effect ∧ Overlaid effect t (write t encoding path text).2 ∧
        Overlaid effect t' (write t' encoding path text).2 := by
  obtain ⟨hmade, hadded⟩ := makeParents_alike h hrooted hdown
  have hchanges := changes_makeParents t path
  have hpresent := @present_of_makeParents t path h.working
  have hwidened := h.addedAlike hadded
  obtain ⟨made, hmissing, hfirst, hsecond⟩ := hadded
  have hdirectories := hfirst.isEffect hmissing hchanges
  unfold write
  cases hrun : makeParents t path with
  | mk outcome u =>
      cases hrun' : makeParents t' path with
      | mk outcome' u' =>
          simp only [hrun, hrun'] at hmade hchanges hpresent hwidened hfirst hsecond
          subst hmade
          have hover := hfirst.overlaid
          have hover' := hsecond.overlaid
          cases outcome' with
          | error fault => exact ⟨rfl, _, hdirectories, hover, hover'⟩
          | ok _ =>
              simp only
              cases checkName encoding with
              | error fault => exact ⟨rfl, _, hdirectories, hover, hover'⟩
              | ok _ =>
                  change (openAndFill u' encoding path text).1 =
                      (openAndFill u encoding path text).1 ∧ ∃ effect, t.IsEffect path effect ∧
                    Overlaid effect t (openAndFill u encoding path text).2 ∧
                    Overlaid effect t' (openAndFill u' encoding path text).2
                  have hparents := hchanges.parentsOf path
                  have hplace := hchanges.placeOf path
                  have hending' : FileTree.entry? u' (t.placeOf path) = some .directory ↔
                      FileTree.entry? u (t.placeOf path) = some .directory := by
                    rw [hfirst.entry, hsecond.entry]
                    split
                    · rfl
                    · exact hending
                  rw [← hparents] at hwidened
                  have hpresent' := hpresent rfl
                  rw [← hparents] at hpresent'
                  rw [← hplace] at hending'
                  obtain ⟨hsame, content, hput, hput'⟩ :=
                    openAndFill_alike hwidened hpresent' hending' encoding text
                  rw [hplace] at hput hput'
                  refine ⟨hsame, ?_⟩
                  cases content with
                  | none =>
                      rw [PutsFile] at hput hput'
                      rw [hput, hput']
                      exact ⟨_, hdirectories, hover, hover'⟩
                  | some bytes => exact ⟨_, hdirectories.withFile bytes, hput _ _ hover, hput' _ _ hover'⟩

/-- What an attempt to write leaves of a tree, given the path and the text. -/
def after [Codecs] (t : FileTree) (encoding : String) (order : String × String) : FileTree :=
  (write t encoding order.1 order.2).2

/-- That attempts to write are apart on a tree: their ways only lead down where something is
missing, and no file is on the way to another or in the place of another. -/
structure AreApart (t : FileTree) (orders : List (String × String)) : Prop where
  rooted : t.IsRooted
  down : ∀ order ∈ orders, t.LeadsDown (t.startOf order.1.toList)
    (names (directoryOf order.1.toList))
  ways : ∀ order ∈ orders, ∀ place ∈ t.parentsOf order.1, t.entry? place = some .directory ∨
    place <+: t.placeOf order.1 ∧ place ≠ t.placeOf order.1
  places : ∀ order ∈ orders, ∀ other ∈ orders, order ≠ other →
    ¬ t.placeOf order.1 <+: t.placeOf other.1

/-- That a tree is one that some attempts have written to, each place as it was or as one of the
attempts leaves it. -/
structure Mixed [Codecs] (t : FileTree) (encoding : String) (orders : List (String × String))
    (t' : FileTree) : Prop where
  workingDirectory : t'.workingDirectory = t.workingDirectory
  entry : ∀ place, t'.entry? place = t.entry? place ∨ ∃ order ∈ orders,
    FileTree.entry? (after t encoding order) place ≠ t.entry? place ∧
      t'.entry? place = FileTree.entry? (after t encoding order) place

/-- That a tree has all that an attempt to write changes. -/
def Shows [Codecs] (t : FileTree) (encoding : String) (order : String × String) (t' : FileTree) :
    Prop :=
  ∀ place, FileTree.entry? (after t encoding order) place ≠ t.entry? place →
    t'.entry? place = FileTree.entry? (after t encoding order) place

namespace AreApart

variable {encoding : String} {orders : List (String × String)} {order other : String × String}

private theorem alike_refl [Codecs] (h : AreApart t orders) (horder : order ∈ orders) :
    ∃ effect, t.IsEffect order.1 effect ∧ Overlaid effect t (after t encoding order) := by
  have hwidened : Widened (t.parentsOf order.1) t t :=
    ⟨rfl, h.rooted.working, h.rooted.working, fun _ _ => Or.inl rfl⟩
  obtain ⟨-, effect, heffect, hover, -⟩ :=
    write_alike hwidened h.rooted (h.down order horder) Iff.rfl encoding order.2
  exact ⟨effect, heffect, hover⟩

/-- An attempt puts a file at its place or makes a directory in front of it. -/
theorem changed [Codecs] (h : AreApart t orders) (horder : order ∈ orders) {place : Location}
    (hchanged : FileTree.entry? (after t encoding order) place ≠ t.entry? place) :
    (place = t.placeOf order.1 ∧ t.entry? place ≠ some .directory ∧
        ∃ content, FileTree.entry? (after t encoding order) place = some (.file content)) ∨
      t.entry? place = none ∧
        FileTree.entry? (after t encoding order) place = some .directory ∧
        place <+: t.placeOf order.1 ∧ place ≠ t.placeOf order.1 := by
  obtain ⟨effect, heffect, hover⟩ := @alike_refl t encoding orders order _ h horder
  have hentry := hover.entry place
  cases hput : effect place with
  | none =>
      rw [hput, Option.none_or] at hentry
      exact absurd hentry hchanged
  | some e =>
      rw [hput, Option.some_or] at hentry
      rcases heffect place e hput with ⟨rfl, hnone, hparent⟩ | ⟨hplace, content, rfl⟩
      · refine Or.inr ⟨hnone, hentry, ?_⟩
        refine (h.ways order horder place hparent).resolve_left fun hdir => ?_
        rw [hnone] at hdir
        cases hdir
      · refine Or.inl ⟨hplace, fun hdir => ?_, content, hentry⟩
        have hstays := (changes_write t encoding order.1 order.2).directoryStays place hdir
        rw [after, hstays] at hentry
        cases hentry

private theorem eq_of_prefix (h : AreApart t orders) (horder : order ∈ orders)
    (hother : other ∈ orders) (hinitial : t.placeOf order.1 <+: t.placeOf other.1) :
    order = other := by
  by_contra hne
  exact h.places order horder other hother hne hinitial

/-- The way to a file has at most directories more after other attempts. -/
theorem widened [Codecs] (h : AreApart t orders) (horder : order ∈ orders)
    (hmixed : Mixed t encoding orders t') :
    Widened (t.parentsOf order.1) t t' := by
  have hkept : ∀ place, (t.entry? place = some .directory ∨
      place <+: t.placeOf order.1 ∧ place ≠ t.placeOf order.1) →
      t'.entry? place = t.entry? place ∨
        t.entry? place = none ∧ t'.entry? place = some .directory := by
    intro place hway
    rcases hmixed.entry place with hsame | ⟨other, hother, hchanged, hentry⟩
    · exact Or.inl hsame
    · rcases h.changed hother hchanged with ⟨hplace, hnotDir, -⟩ | ⟨hnone, hdir, -⟩
      · obtain ⟨hinitial, hne⟩ := hway.resolve_left hnotDir
        rw [hplace] at hinitial hne
        rw [h.eq_of_prefix hother horder hinitial] at hne
        exact absurd rfl hne
      · exact Or.inr ⟨hnone, hentry.trans hdir⟩
  refine ⟨hmixed.workingDirectory, h.rooted.working, ?_, ?_⟩
  · rcases hkept _ (Or.inl h.rooted.working) with hsame | ⟨-, hdir⟩
    · rw [hsame, h.rooted.working]
    · exact hdir
  · intro place hplace
    exact hkept place (h.ways order horder place hplace)

/-- No attempt makes a directory at the place of a file. -/
theorem ending [Codecs] (h : AreApart t orders) (horder : order ∈ orders)
    (hmixed : Mixed t encoding orders t') :
    t'.entry? (t.placeOf order.1) = some .directory ↔
      t.entry? (t.placeOf order.1) = some .directory := by
  rcases hmixed.entry (t.placeOf order.1) with hsame | ⟨other, hother, hchanged, hentry⟩
  · rw [hsame]
  · rcases h.changed hother hchanged with ⟨-, hnotDir, content, hfile⟩ | ⟨-, -, hinitial, hne⟩
    · rw [hentry, hfile]
      exact ⟨nofun, fun hdir => absurd hdir hnotDir⟩
    · rw [h.eq_of_prefix horder hother hinitial] at hne
      exact absurd rfl hne

/-- One more attempt among those that are apart: it ends as it would have ended first, what it
changes is there afterwards, and what others have changed stays. -/
theorem write [Codecs] (h : AreApart t orders) (horder : order ∈ orders)
    (hmixed : Mixed t encoding orders t') :
    (TextFile.write t' encoding order.1 order.2).1 = (TextFile.write t encoding order.1 order.2).1 ∧
      Mixed t encoding orders (after t' encoding order) ∧
      Shows t encoding order (after t' encoding order) ∧
      ∀ other ∈ orders, Shows t encoding other t' →
        Shows t encoding other (after t' encoding order) := by
  obtain ⟨hsame, effect, heffect, hover, hover'⟩ := write_alike (h.widened horder hmixed) h.rooted
    (h.down order horder) (h.ending horder hmixed) encoding order.2
  have hshown : Shows t encoding order (after t' encoding order) := by
    intro place hchanged
    have hentry := hover.entry place
    have hentry' := hover'.entry place
    cases hput : effect place with
    | none =>
        rw [hput, Option.none_or] at hentry
        exact absurd hentry hchanged
    | some e =>
        rw [hput, Option.some_or] at hentry hentry'
        exact hentry'.trans hentry.symm
  refine ⟨hsame, ⟨hover'.workingDirectory.trans hmixed.workingDirectory, fun place => ?_⟩, hshown,
    fun other hother hshows place hchanged => ?_⟩
  · have hentry := hover.entry place
    have hentry' := hover'.entry place
    cases hput : effect place with
    | none =>
        rw [hput, Option.none_or] at hentry'
        rw [after, hentry']
        exact hmixed.entry place
    | some e =>
        rw [hput, Option.some_or] at hentry hentry'
        by_cases hchanged : FileTree.entry? (after t encoding order) place = t.entry? place
        · refine Or.inl ?_
          rw [← hchanged, after, after, hentry, hentry']
        · exact Or.inr ⟨order, horder, hchanged, hshown place hchanged⟩
  · by_cases heq : order = other
    · rw [← heq] at hchanged ⊢
      exact hshown place hchanged
    have hentry' := hover'.entry place
    have hbefore := hshows place hchanged
    cases hput : effect place with
    | none =>
        rw [hput, Option.none_or] at hentry'
        exact hentry'.trans hbefore
    | some e =>
        rw [hput, Option.some_or] at hentry'
        rcases h.changed hother hchanged with ⟨hplace, hnotDir, -⟩ | ⟨hnone, hdir, hinitial, hne⟩
        · exfalso
          rcases heffect place e hput with ⟨-, -, hparent⟩ | ⟨hplace', -⟩
          · obtain ⟨hinitial, -⟩ := (h.ways order horder place hparent).resolve_left hnotDir
            rw [hplace] at hinitial
            exact heq (h.eq_of_prefix hother horder hinitial).symm
          · rw [hplace'] at hplace
            exact heq (h.eq_of_prefix horder hother (hplace ▸ List.prefix_rfl))
        · rcases heffect place e hput with ⟨rfl, -⟩ | ⟨hplace', -⟩
          · exact hentry'.trans hdir.symm
          · rw [hplace'] at hinitial
            exact absurd (h.eq_of_prefix horder hother hinitial) heq

end AreApart

/-- Attempts that were all made leave the same entries, whatever their order was. -/
theorem Mixed.entry_eq [Codecs] {encoding : String} {orders : List (String × String)}
    {t'' : FileTree} (h : Mixed t encoding orders t') (h' : Mixed t encoding orders t'')
    (hshows : ∀ order ∈ orders, Shows t encoding order t')
    (hshows' : ∀ order ∈ orders, Shows t encoding order t'') (place : Location) :
    t'.entry? place = t''.entry? place := by
  by_cases hchanged : ∃ order ∈ orders,
      FileTree.entry? (after t encoding order) place ≠ t.entry? place
  · obtain ⟨order, horder, hchanged⟩ := hchanged
    rw [hshows order horder place hchanged, hshows' order horder place hchanged]
  · have hsame : ∀ {u : FileTree}, Mixed t encoding orders u →
        u.entry? place = t.entry? place := by
      intro u hmixed
      refine (hmixed.entry place).resolve_right ?_
      rintro ⟨order, horder, hother, -⟩
      exact hchanged ⟨order, horder, hother⟩
    rw [hsame h, hsame h']

end TextFile

end MediaSplit
