import MediaSplit.Files.Selection
import MediaSplit.Proofs.Files.CopyNames

/-!
Spellings of a place. Selection compares paths in a normal form, and the tree follows them name by
name; both see the same places, except that selection tells a path with two slashes at its start
from all others. Source and copy agree in their first slashes, and the copy has a place of its own
unless both the directories and the names of the copies are the same.
-/

namespace MediaSplit

namespace Path

def slashes (path : List Char) : List Char :=
  path.takeWhile (· == '/')

theorem startsWithTwoSlashes_eq (path : List Char) :
    startsWithTwoSlashes path = decide ((slashes path).length = 2) := by
  have hbeq : ∀ c : Char, ('/' == c) = (c == '/') := fun c => BEq.comm
  unfold startsWithTwoSlashes slashes
  match path with
  | [] => rfl
  | [a] => cases ha : a == '/' <;> simp [ha]
  | [a, b] =>
      cases ha : a == '/' <;> cases hb : b == '/' <;>
        simp [List.isPrefixOf, hbeq, ha, hb]
  | a :: b :: c :: rest =>
      cases ha : a == '/' <;> cases hb : b == '/' <;> cases hc : c == '/' <;>
        simp [List.isPrefixOf, hbeq, ha, hb, hc]

theorem slashes_of_head?_ne {path : List Char} (h : path.head? ≠ some '/') : slashes path = [] := by
  cases path with
  | nil => rfl
  | cons c rest =>
      have hc : c ≠ '/' := by simpa using h
      simp [slashes, hc]

/-- What follows after the slashes at the start of a path adds none to them. -/
theorem slashes_append {first second : List Char} (h : second.head? ≠ some '/') :
    slashes (first ++ second) = slashes first := by
  induction first with
  | nil => exact slashes_of_head?_ne h
  | cons c rest ih =>
      unfold slashes at ih ⊢
      rw [List.cons_append, List.takeWhile_cons, List.takeWhile_cons, ih]

/-- Nor does anything that follows when they are not all there is. -/
theorem slashes_append_of_exists {first second : List Char} (h : ∃ c ∈ first, c ≠ '/') :
    slashes (first ++ second) = slashes first := by
  induction first with
  | nil =>
      obtain ⟨c, hc, -⟩ := h
      cases hc
  | cons d rest ih =>
      unfold slashes at ih ⊢
      rw [List.cons_append, List.takeWhile_cons, List.takeWhile_cons]
      split
      · rename_i hd
        obtain ⟨c, hc, hne⟩ := h
        rcases List.mem_cons.mp hc with rfl | hc
        · exact absurd (beq_iff_eq.mp hd) hne
        · rw [ih ⟨c, hc, hne⟩]
      · rfl

theorem slashes_dropSlashes (path : List Char) : slashes (dropSlashes path) = slashes path := by
  by_cases hall : path.all (· == '/') = true
  · rw [dropSlashes, if_pos hall]
  · obtain ⟨tail, hpath, htail⟩ := dropSlashes_append path
    conv => rhs; rw [hpath]
    refine (slashes_append_of_exists ?_).symm
    -- without such a character there would be slashes only
    by_contra hnone
    refine hall (List.all_eq_true.mpr fun c hc => beq_iff_eq.mpr ?_)
    rw [hpath] at hc
    rcases List.mem_append.mp hc with hc | hc
    · exact not_not.mp fun hne => hnone ⟨c, hc, hne⟩
    · exact htail c hc

theorem slashes_directoryOf (path : List Char) : slashes (directoryOf path) = slashes path := by
  rw [directoryOf, slashes_dropSlashes]
  conv => rhs; rw [← beforeName_append_nameOf path]
  refine (slashes_append fun hhead => ?_).symm
  exact slash_not_mem_nameOf path (List.mem_of_mem_head? hhead)

theorem slashes_join {directory path : List Char} (h : path.head? ≠ some '/') :
    slashes (join directory path) = slashes directory := by
  unfold join
  rw [if_neg h]
  split
  · exact slashes_append h
  · rename_i hends
    simp only [Bool.or_eq_true, List.isEmpty_iff, decide_eq_true_eq, not_or] at hends
    obtain ⟨front, c, hdirectory⟩ := List.eq_nil_or_concat directory |>.resolve_left hends.1
    refine slashes_append_of_exists ⟨c, ?_, ?_⟩
    · rw [hdirectory]
      simp
    · rintro rfl
      exact hends.2 (by simp [hdirectory])

end Path

namespace FileTree

open MediaSplit.Path

/-- A copy starts with the slashes of its source. -/
theorem slashes_strippedPath (path suffix : String) :
    slashes (strippedPath path suffix).toList = slashes path.toList := by
  simp only [strippedPath, String.toList_ofList]
  rw [slashes_join (head?_strippedName (slash_not_mem_nameOf _)), slashes_directoryOf]

/-- Selection and the tree follow the parts of a path to the same place. -/
private theorem map_foldl_follow (parts : List (List Char)) (here : Location) :
    (((parts.filter fun part => !part.isEmpty).map String.ofList).foldl follow here).map
        String.toList =
      (parts.filter fun part => !part.isEmpty && part != ['.']).foldl Path.follow
        (here.map String.toList) := by
  induction parts generalizing here with
  | nil => rfl
  | cons part rest ih =>
      have hdot : String.ofList part = "." ↔ part = ['.'] := by
        rw [← String.toList_inj]
        simp
      have hdots : String.ofList part = ".." ↔ part = ['.', '.'] := by
        rw [← String.toList_inj]
        simp
      by_cases hempty : part = []
      · simpa [hempty] using ih here
      · by_cases hstay : part = ['.']
        · subst hstay
          simpa [follow] using ih here
        · have hkept : (!part.isEmpty && part != ['.']) = true := by simp [hempty, hstay]
          have hkept' : (!part.isEmpty) = true := by simp [hempty]
          rw [List.filter_cons_of_pos (by exact hkept'), List.filter_cons_of_pos (by exact hkept),
            List.map_cons, List.foldl_cons, List.foldl_cons, ih]
          congr 1
          unfold follow Path.follow
          by_cases hup : part = ['.', '.']
          · rw [if_neg (hstay ∘ hdot.mp), if_pos (hdots.mpr hup), if_pos hup, List.map_dropLast]
          · rw [if_neg (hstay ∘ hdot.mp), if_neg (hup ∘ hdots.mp), if_neg hup]
            simp

theorem names_place (t : FileTree) (path : String) :
    (Selection.place t path).names = (t.placeOf path).map String.toList := by
  unfold Selection.place Path.absolute placeOf startOf names steps
  rw [map_foldl_follow]
  split <;> rfl

theorem twoSlashes_place (t : FileTree) (path : String) :
    (Selection.place t path).twoSlashes = decide ((slashes path.toList).length = 2) := by
  unfold Selection.place Path.absolute
  split
  · exact startsWithTwoSlashes_eq _
  · rename_i hhead
    simp [slashes_of_head?_ne hhead]

/-- Two paths are the same to selection when they lead to one place and start alike. -/
theorem samePath_iff (t : FileTree) (path other : String) :
    Selection.samePath t path other = true ↔ t.placeOf path = t.placeOf other ∧
      ((slashes path.toList).length = 2 ↔ (slashes other.toList).length = 2) := by
  have hplaces : (t.placeOf path).map String.toList = (t.placeOf other).map String.toList ↔
      t.placeOf path = t.placeOf other :=
    List.map_inj_right fun _ _ => String.toList_inj.mp
  have hext : ∀ a b : Absolute, a = b ↔ a.names = b.names ∧ a.twoSlashes = b.twoSlashes := by
    rintro ⟨slashes, names⟩ ⟨slashes', names'⟩
    simp [and_comm]
  unfold Selection.samePath
  rw [decide_eq_true_eq, hext, names_place, names_place, twoSlashes_place, twoSlashes_place, hplaces,
    decide_eq_decide]

/-- That one path is another with the extension added, where the other has none in its name. -/
def IsExtended (t : FileTree) (path other : String) : Prop :=
  Text.occursIn cssExtension (nameOf path.toList) = false ∧
    t.placeOf (path ++ ".css") = t.placeOf other

instance (t : FileTree) (path other : String) : Decidable (t.IsExtended path other) :=
  inferInstanceAs (Decidable (_ ∧ _))

variable {suffix : String}

/-- The place of a path, from that of its directory. -/
theorem placeOf_eq (t : FileTree) (path : String) :
    t.placeOf path = (names (nameOf path.toList)).foldl follow
      ((names (directoryOf path.toList)).foldl follow (t.startOf path.toList)) := by
  rw [placeOf, names_eq_append, List.foldl_append]

/-- A copy is in the directory of its source or below it, if the suffix does not start with a
slash. -/
theorem placeOf_strippedPath (t : FileTree) (path : String) (hdot : '.' ∉ suffix.toList)
    (hhead : suffix.toList.head? ≠ some '/') :
    t.placeOf (strippedPath path suffix) =
      (names (directoryOf path.toList)).foldl follow (t.startOf path.toList) ++
        names (strippedName suffix.toList (nameOf path.toList)) := by
  rw [placeOf, names_strippedPath, startOf_strippedPath, cleanSuffixChars_of_no_dot hdot,
    List.foldl_append]
  apply foldl_follow_plain
  obtain ⟨first, rest, hnames, hrest, hfirst, -⟩ :=
    exists_names_strippedName hdot (slash_not_mem_nameOf path.toList)
  rw [hnames]
  exact List.forall_mem_cons.mpr ⟨hfirst hhead, hrest⟩

/-- The name at the end of the place of a copy has the end of the suffix in it. -/
theorem getLast?_placeOf_strippedPath (t : FileTree) (path : String) (hdot : '.' ∉ suffix.toList)
    (hhead : suffix.toList.head? ≠ some '/') :
    ∃ name, (t.placeOf (strippedPath path suffix)).getLast? = some name ∧
      nameOf suffix.toList ++ cssExtension <:+: name.toList := by
  obtain ⟨first, rest, hnames, -, -, name, hlast, hinfix⟩ :=
    exists_names_strippedName hdot (slash_not_mem_nameOf path.toList)
  refine ⟨name, ?_, hinfix⟩
  rw [placeOf_strippedPath t path hdot hhead, hnames, List.getLast?_append, hlast, Option.some_or]

/-- Two sources whose copies have one place have one place themselves, or differ by the extension
only. -/
theorem sources_of_copies (t : FileTree) {path other : String} (hdot : '.' ∉ suffix.toList)
    (hhead : suffix.toList.head? ≠ some '/') (hpath : ¬ suffix.toList <:+: nameOf path.toList)
    (hother : ¬ suffix.toList <:+: nameOf other.toList)
    (h : t.placeOf (strippedPath path suffix) = t.placeOf (strippedPath other suffix)) :
    t.placeOf path = t.placeOf other ∨ t.IsExtended path other ∨ t.IsExtended other path := by
  rw [placeOf_strippedPath t path hdot hhead, placeOf_strippedPath t other hdot hhead] at h
  obtain ⟨hlength, htold⟩ := @strippedName_of_names suffix.toList _ _
    (slash_not_mem_nameOf path.toList) (slash_not_mem_nameOf other.toList)
  obtain ⟨hdirectory, hnames⟩ := List.append_inj' h hlength
  have hcopies := htold hnames
  have hadded : ∀ {path other : String},
      (names (directoryOf path.toList)).foldl follow (t.startOf path.toList) =
        (names (directoryOf other.toList)).foldl follow (t.startOf other.toList) →
      nameOf other.toList = nameOf path.toList ++ cssExtension →
      t.placeOf (path ++ ".css") = t.placeOf other := by
    intro path other hdirectory hname
    have htext : (path ++ ".css").toList = path.toList ++ cssExtension := by
      rw [String.toList_append]
      rfl
    rw [placeOf_eq, placeOf_eq t other, hname, ← hdirectory, htext,
      nameOf_append (by decide), directoryOf_append (by decide)]
    have hstart : t.startOf (path.toList ++ cssExtension) = t.startOf path.toList := by
      unfold startOf
      cases path.toList with
      | nil => rfl
      | cons c rest => rfl
    rw [hstart]
  rcases eq_or_extended_of_strippedName hdot hpath hother hcopies with
    hsame | ⟨hplain, hname⟩ | ⟨hplain, hname⟩
  · left
    rw [placeOf_eq, placeOf_eq t other, hsame, hdirectory]
  · exact Or.inr (Or.inl ⟨hplain, hadded hdirectory hname⟩)
  · exact Or.inr (Or.inr ⟨hplain, hadded hdirectory.symm hname⟩)

end FileTree

end MediaSplit
