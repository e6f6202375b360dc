import MediaSplit.Proofs.Files.Opening

/-!
Making directories where others have made some already. A directory that is there is as good as one
that is made, so an attempt to make the directories on a way ends alike on two trees that differ
only in that one of them has more directories there, and it adds the same directories to both. This is so
for ways that only lead down where something may be missing.
-/

namespace MediaSplit

namespace FileTree

open MediaSplit.Path

structure Widened (places : List Location) (t t' : FileTree) : Prop where
  workingDirectory : t'.workingDirectory = t.workingDirectory
  working : t.entry? t.workingDirectory = some .directory
  working' : t'.entry? t.workingDirectory = some .directory
  kept : ∀ place ∈ places, t'.entry? place = t.entry? place ∨
    t.entry? place = none ∧ t'.entry? place = some .directory

/-- That a tree is another one with directories put at some places. -/
structure Added (made : List Location) (t t' : FileTree) : Prop where
  workingDirectory : t'.workingDirectory = t.workingDirectory
  entry : ∀ place, t'.entry? place = if place ∈ made then some .directory else t.entry? place

/-- That the same directories are added to two trees, each of them missing in the first one. -/
def AddedAlike (t u t' u' : FileTree) : Prop :=
  ∃ made, (∀ place ∈ made, t.entry? place = none) ∧ Added made t u ∧ Added made t' u'

theorem Added.refl {made : List Location} {t : FileTree}
    (h : ∀ place ∈ made, t.entry? place = some .directory) : Added made t t := by
  refine ⟨rfl, fun place => ?_⟩
  split
  · rename_i hmem
    exact h place hmem
  · rfl

theorem Added.put {t : FileTree} {place : Location} (h : t.entry? place = none) :
    Added [place] t (t.put place .directory) := by
  have hne : place ≠ [] := by
    rintro rfl
    cases h
  refine ⟨rfl, fun other => ?_⟩
  rw [entry?_put t hne]
  simp

theorem Added.trans {made made' : List Location} {t u v : FileTree} (first : Added made t u)
    (second : Added made' u v) : Added (made' ++ made) t v := by
  refine ⟨second.workingDirectory.trans first.workingDirectory, fun place => ?_⟩
  rw [second.entry, first.entry]
  by_cases hmem : place ∈ made' <;> simp [hmem]

theorem AddedAlike.refl (t t' : FileTree) : AddedAlike t t t' t' :=
  ⟨[], nofun, .refl nofun, .refl nofun⟩

theorem AddedAlike.trans {t u v t' u' v' : FileTree} (first : AddedAlike t u t' u')
    (second : AddedAlike u v u' v') : AddedAlike t v t' v' := by
  obtain ⟨made, hmissing, hfirst, hfirst'⟩ := first
  obtain ⟨made', hmissing', hsecond, hsecond'⟩ := second
  refine ⟨made' ++ made, fun place hplace => ?_, hfirst.trans hsecond, hfirst'.trans hsecond'⟩
  rcases List.mem_append.mp hplace with hplace | hplace
  · have hnone := hmissing' place hplace
    rw [hfirst.entry] at hnone
    split at hnone
    · cases hnone
    · exact hnone
  · exact hmissing place hplace

namespace Widened

variable {places : List Location} {t t' u u' : FileTree}

theorem mono {places' : List Location} (h : Widened places t t') (hsub : places' ⊆ places) :
    Widened places' t t' :=
  ⟨h.workingDirectory, h.working, h.working', fun place hplace => h.kept place (hsub hplace)⟩

theorem startOf (h : Widened places t t') (path : List Char) : t'.startOf path = t.startOf path := by
  simp only [FileTree.startOf, h.workingDirectory]

theorem entry?_startOf (h : Widened places t t') (path : List Char) :
    t.entry? (t.startOf path) = some .directory ∧ t'.entry? (t.startOf path) = some .directory := by
  unfold FileTree.startOf
  split
  · exact ⟨rfl, rfl⟩
  · exact ⟨h.working, h.working'⟩

theorem same (h : Widened places t t') {place : Location} (hplace : place ∈ places)
    (hthere : t.entry? place ≠ none) : t'.entry? place = t.entry? place :=
  (h.kept place hplace).resolve_right fun hnew => hthere hnew.1

theorem addedAlike (h : Widened places t t') (hadded : AddedAlike t u t' u') :
    Widened places u u' := by
  obtain ⟨made, -, hfirst, hsecond⟩ := hadded
  have hkept : ∀ place, t.entry? place = some .directory → u.entry? place = some .directory := by
    intro place hdir
    rw [hfirst.entry, hdir, ite_self]
  have hkept' : ∀ place, t'.entry? place = some .directory → u'.entry? place = some .directory := by
    intro place hdir
    rw [hsecond.entry, hdir, ite_self]
  refine ⟨?_, ?_, ?_, fun place hplace => ?_⟩
  · rw [hfirst.workingDirectory, hsecond.workingDirectory, h.workingDirectory]
  · rw [hfirst.workingDirectory]
    exact hkept _ h.working
  · rw [hfirst.workingDirectory]
    exact hkept' _ h.working'
  · rw [hfirst.entry, hsecond.entry]
    by_cases hmem : place ∈ made
    · rw [if_pos hmem, if_pos hmem]
      exact Or.inl rfl
    · rw [if_neg hmem, if_neg hmem]
      exact h.kept place hplace

end Widened

/-- Names lead to the same end, or fail in the same way, where nothing is different on the way. -/
theorem walk_congr {t t' : FileTree} {here : Location} {front last : List String}
    (hlast : last.length ≤ 1) (h : ∀ place ∈ here :: passed here front,
      t'.entry? place = t.entry? place) :
    t'.walk here (front ++ last) = t.walk here (front ++ last) := by
  induction front generalizing here with
  | nil =>
      match last with
      | [] => rfl
      | [name] =>
          simp only [List.nil_append, walk, h here List.mem_cons_self]
  | cons name rest ih =>
      have hrest := @ih (follow here name) fun place hplace =>
        h place (List.mem_cons_of_mem here hplace)
      simp only [List.cons_append, walk, h here List.mem_cons_self]
      unfold follow at hrest
      split
      · rfl
      · rfl
      · split
        · rename_i hstays
          rwa [if_pos hstays] at hrest
        · rename_i hstays
          rw [if_neg hstays] at hrest
          split
          · rename_i hup
            rwa [if_pos hup] at hrest
          · rename_i hup
            rw [if_neg hup] at hrest
            split
            · rfl
            · exact hrest

theorem locate_congr {t t' : FileTree} (hworking : t'.workingDirectory = t.workingDirectory)
    {path : String} {front last : List String} (hnames : names path.toList = front ++ last)
    (hlast : last.length ≤ 1) (h : ∀ place ∈ t.startOf path.toList ::
      passed (t.startOf path.toList) front, t'.entry? place = t.entry? place) :
    t'.locate path = t.locate path := by
  have hwalk := walk_congr hlast h
  unfold startOf at hwalk
  rw [← hnames, names] at hwalk
  unfold locate
  rw [hworking, hwalk]

/-- The names of a path are those of its directory and at most one more. -/
theorem exists_names_splitPath (path : List Char) :
    ∃ last, names path = names (splitPath path).1 ++ last ∧ last.length ≤ 1 := by
  refine ⟨_, names_splitPath path, ?_⟩
  rcases names_splitPath_snd path with hnone | hone
  · rw [hnone]
    exact Nat.zero_le _
  · rw [hone]
    exact Nat.le_refl _

/-- One more directory is made alike, if the way to it is there. -/
theorem ensureDirectory_alike {t t' : FileTree} {path : List Char}
    (h : Widened (passed (t.startOf path) (names path)) t t')
    (hfront : ∀ place ∈ passed (t.startOf path) (names (splitPath path).1),
      t.entry? place ≠ none) :
    (t'.ensureDirectory (String.ofList path)).1 = (t.ensureDirectory (String.ofList path)).1 ∧
      AddedAlike t (t.ensureDirectory (String.ofList path)).2 t'
        (t'.ensureDirectory (String.ofList path)).2 := by
  cases hclean : (String.ofList path).toList.contains '\x00' with
  | true =>
      rw [ensureDirectory_of_nul hclean, ensureDirectory_of_nul hclean]
      exact ⟨rfl, .refl t t'⟩
  | false =>
      obtain ⟨last, hnames, hlast⟩ := exists_names_splitPath path
      obtain ⟨hstart, hstart'⟩ := h.entry?_startOf path
      have hlocate : t'.locate (String.ofList path) = t.locate (String.ofList path) := by
        refine locate_congr h.workingDirectory (by rwa [String.toList_ofList]) hlast ?_
        rw [String.toList_ofList]
        intro place hplace
        rcases List.mem_cons.mp hplace with rfl | hplace
        · rw [hstart, hstart']
        · refine h.same ?_ (hfront place hplace)
          rw [hnames, passed_append]
          exact List.mem_append_left _ hplace
      rw [ensureDirectory_eq hclean, ensureDirectory_eq hclean, hlocate]
      cases hat : t.locate (String.ofList path) with
      | error trouble => exact ⟨rfl, .refl t t'⟩
      | ok place =>
          have hplace := ((locate_eq_ok_iff t _ place).mp hat).1
          simp only [placeOf, String.toList_ofList] at hplace
          have hkept : t'.entry? place = t.entry? place ∨
              t.entry? place = none ∧ t'.entry? place = some .directory := by
            by_cases hnil : names path = []
            · rw [hplace, hnil, List.foldl_nil, hstart, hstart']
              exact Or.inl rfl
            · rw [hplace]
              exact h.kept _ (foldl_follow_mem_passed _ hnil)
          rcases hkept with hsame | ⟨hnone, hdir⟩
          · simp only [hsame]
            cases hentry : t.entry? place with
            | none =>
                refine ⟨rfl, [place], ?_, .put hentry, .put (hsame.trans hentry)⟩
                simpa using hentry
            | some e => cases e <;> exact ⟨rfl, .refl t t'⟩
          · simp only [hnone, hdir]
            refine ⟨trivial, [place], ?_, .put hnone, .refl ?_⟩
            · simpa using hnone
            · simpa using hdir

/-- Whether an attempt to make a directory has found or made something. -/
def isThere : Except PathFault Unit → Bool
  | .ok _ => true
  | .error fault => fault.isAlreadyThere

/-- Making directories, with the last step taken whenever something is there before it. -/
theorem makeDirectories_eq (t : FileTree) (path : List Char) :
    t.makeDirectories path =
      if (splitPath path).1 ≠ [] ∧ (splitPath path).2 ≠ [] ∧
          t.exists? (String.ofList (splitPath path).1) = false then
        if isThere (t.makeDirectories (splitPath path).1).1 then
          if (splitPath path).2 = ['.'] then (.ok (), (t.makeDirectories (splitPath path).1).2)
          else (t.makeDirectories (splitPath path).1).2.ensureDirectory (String.ofList path)
        else t.makeDirectories (splitPath path).1
      else t.ensureDirectory (String.ofList path) := by
  rw [makeDirectories]
  split
  · cases t.makeDirectories (splitPath path).1 with
    | mk made t₁ =>
        cases made with
        | ok _ => rfl
        | error fault => rfl
  · rfl

/-- All places on a way are there if something is at its end. -/
theorem present_of_locate {t : FileTree} {path : List Char} {place : Location}
    (hlocate : t.locate (String.ofList path) = .ok place) (hthere : t.entry? place ≠ none) :
    ∀ other ∈ passed (t.startOf path) (names path), t.entry? other ≠ none := by
  obtain ⟨hplace, -, -, hopen⟩ := (locate_eq_ok_iff t _ _).mp hlocate
  simp only [placeOf, String.toList_ofList] at hplace hopen
  rcases List.eq_nil_or_concat (names path) with hnil | ⟨front, last, hnames⟩
  · rw [hnil]
    exact fun other hother => absurd hother List.not_mem_nil
  · rw [hnames, List.concat_eq_append] at hplace hopen ⊢
    intro other hother
    rw [passed_append, List.mem_append] at hother
    rcases hother with hother | hother
    · rw [passed_of_isOpen last hopen other hother]
      simp
    · rw [passed, passed, List.mem_singleton] at hother
      rw [List.foldl_append, List.foldl_cons, List.foldl_nil] at hplace
      rwa [hother, ← hplace]

private theorem walk_ne_alreadyThere (t : FileTree) (here : Location) (names : List String) :
    t.walk here names ≠ .error .alreadyThere := by
  induction names generalizing here with
  | nil => simp [walk]
  | cons name rest ih =>
      unfold walk
      split
      · simp
      · simp
      · split
        · exact ih here
        · split
          · exact ih here.dropLast
          · split
            · simp
            · exact ih (here ++ [name])

private theorem locate_ne_alreadyThere (t : FileTree) (path : String) :
    t.locate path ≠ .error .alreadyThere := by
  unfold locate
  split
  · simp
  · split
    · simp
    · exact walk_ne_alreadyThere t _ _

theorem present_of_ensureDirectory {t : FileTree} {path : List Char}
    (h : isThere (t.ensureDirectory (String.ofList path)).1 = true) :
    ∀ place ∈ passed (t.startOf path) (names path),
      FileTree.entry? (t.ensureDirectory (String.ofList path)).2 place ≠ none := by
  cases hclean : (String.ofList path).toList.contains '\x00' with
  | true =>
      rw [ensureDirectory_of_nul hclean] at h
      cases h
  | false =>
      rw [ensureDirectory_eq hclean] at h ⊢
      cases hlocate : t.locate (String.ofList path) with
      | error trouble =>
          rw [hlocate] at h
          cases trouble with
          | alreadyThere => exact absurd hlocate (locate_ne_alreadyThere t _)
          | noEntry => cases h
          | notDirectory => cases h
          | isDirectory => cases h
          | nameTooLong => cases h
      | ok place =>
          cases hentry : t.entry? place with
          | some e =>
              have hpresent := present_of_locate hlocate (by simp [hentry])
              simp only [hentry]
              cases e <;> exact hpresent
          | none =>
              have hadded := Added.put hentry
              have hlocate' : (t.put place .directory).locate (String.ofList path) = .ok place :=
                (changes_put_directory hentry).locate hlocate
              have hthere : FileTree.entry? (t.put place .directory) place ≠ none := by
                simp [hadded.entry]
              simp only [hentry]
              exact present_of_locate hlocate' hthere

/-- When something was found or made at the end of a way, the way is there. -/
theorem present_of_makeDirectories {t : FileTree} {path : List Char}
    (hworking : t.entry? t.workingDirectory = some .directory)
    (h : isThere (t.makeDirectories path).1 = true) :
    ∀ place ∈ passed (t.startOf path) (names path),
      FileTree.entry? (t.makeDirectories path).2 place ≠ none := by
  rw [makeDirectories_eq] at h ⊢
  split
  · rename_i hmissing
    rw [if_pos hmissing] at h
    have hchanges := changes_makeDirectories t (splitPath path).1
    have hfront := @present_of_makeDirectories t (splitPath path).1 hworking
    rw [startOf_splitPath] at hfront
    split
    · rename_i hthere
      rw [if_pos hthere] at h
      have hfront := hfront hthere
      split
      · rename_i hdot
        have hhere : names ['.'] = ["."] := by decide
        rw [names_splitPath path, hdot, hhere, passed_append]
        intro place hplace
        rcases List.mem_append.mp hplace with hplace | hplace
        · exact hfront place hplace
        · rw [passed, passed, List.mem_singleton, follow, if_pos rfl] at hplace
          by_cases hnil : names (splitPath path).1 = []
          · rw [hplace, hnil, List.foldl_nil,
              hchanges.directoryStays _ (TextFile.entry?_startOf hworking path)]
            simp
          · rw [hplace]
            exact hfront _ (foldl_follow_mem_passed _ hnil)
      · rename_i hdot
        rw [if_neg hdot] at h
        have hpresent := present_of_ensureDirectory h
        rwa [hchanges.startOf] at hpresent
    · rename_i hthere
      rw [if_neg hthere] at h
      exact absurd h hthere
  · rename_i hmissing
    rw [if_neg hmissing] at h
    exact present_of_ensureDirectory h
termination_by path.length
decreasing_by
  rename_i hmissing
  exact length_splitPath_lt hmissing.2.1

structure IsRooted (t : FileTree) : Prop where
  working : t.entry? t.workingDirectory = some .directory
  above : ∀ place name, t.entry? (place ++ [name]) ≠ none → t.entry? place = some .directory

theorem IsRooted.directory_of_prefix {t : FileTree} (h : t.IsRooted) {place below : Location}
    (hbelow : below ≠ []) (hthere : t.entry? (place ++ below) ≠ none) :
    t.entry? place = some .directory := by
  induction below generalizing place with
  | nil => exact absurd rfl hbelow
  | cons name rest ih =>
      by_cases hnil : rest = []
      · rw [hnil] at hthere
        exact h.above place name hthere
      · refine h.above place name ?_
        rw [@ih (place ++ [name]) hnil (by simpa using hthere)]
        simp

/-- That names lead through directories, and from there on only down. -/
def LeadsDown (t : FileTree) (here : Location) (names : List String) : Prop :=
  ∃ front back, names = front ++ back ∧
    (∀ place ∈ passed here front, t.entry? place = some .directory) ∧ ∀ name ∈ back, IsPlain name

/-- That nothing is there behind a place that is missing. -/
def NoGap (t : FileTree) (places : List Location) : Prop :=
  places.Pairwise fun place behind => t.entry? place = none → t.entry? behind = none

/-- The places passed by names that lead down lie between their start and their end. -/
theorem between_of_mem_passed {here place : Location} {names : List String}
    (hplain : ∀ name ∈ names, IsPlain name) (h : place ∈ passed here names) :
    here <+: place ∧ place <+: here ++ names := by
  induction names generalizing here with
  | nil => cases h
  | cons name rest ih =>
      have hrest : ∀ other ∈ rest, IsPlain other :=
        fun other hother => hplain other (List.mem_cons_of_mem _ hother)
      have hname : follow here name = here ++ [name] := by
        obtain ⟨hstays, hup⟩ := hplain name List.mem_cons_self
        rw [follow, if_neg hstays, if_neg hup]
      rw [passed, hname] at h
      rw [← List.singleton_append, ← List.append_assoc]
      rcases List.mem_cons.mp h with rfl | h
      · exact ⟨List.prefix_append _ _, List.prefix_append _ _⟩
      · obtain ⟨hstart, hend⟩ := ih hrest h
        exact ⟨(List.prefix_append _ _).trans hstart, hend⟩

theorem LeadsDown.noGap {t : FileTree} {here : Location} {names : List String}
    (h : t.LeadsDown here names) (hrooted : t.IsRooted) : t.NoGap (passed here names) := by
  obtain ⟨front, back, rfl, hfront, hback⟩ := h
  rw [NoGap, passed_append, List.pairwise_append]
  have hthere : ∀ {place behind : Location}, place ∈ passed here front →
      t.entry? place = none → t.entry? behind = none := by
    intro place behind hplace hnone
    rw [hfront place hplace] at hnone
    cases hnone
  refine ⟨?_, ?_, fun place hplace behind _ => hthere hplace⟩
  · exact List.Pairwise.imp_of_mem (fun hplace _ _ => hthere hplace) (List.pairwise_of_forall fun _ _ => trivial)
  · generalize front.foldl follow here = middle
    clear hthere hfront
    induction back generalizing middle with
    | nil => exact .nil
    | cons name rest ih =>
        have hrest : ∀ other ∈ rest, IsPlain other :=
          fun other hother => hback other (List.mem_cons_of_mem _ hother)
        rw [passed, List.pairwise_cons]
        refine ⟨fun behind hbehind hnone => ?_, ih hrest _⟩
        obtain ⟨⟨below, rfl⟩, -⟩ := between_of_mem_passed hrest hbehind
        by_cases hnil : below = []
        · rwa [hnil, List.append_nil]
        · by_contra hthere
          rw [hrooted.directory_of_prefix hnil hthere] at hnone
          cases hnone

/-- The front of a way leads down if the whole does. -/
theorem LeadsDown.front {t : FileTree} {here : Location} {first last : List String}
    (h : t.LeadsDown here (first ++ last)) : t.LeadsDown here first := by
  obtain ⟨front, back, hnames, hfront, hback⟩ := h
  rcases List.append_eq_append_iff.mp hnames with ⟨more, hmore, -⟩ | ⟨more, hmore, hrest⟩
  · refine ⟨first, [], (List.append_nil _).symm, fun place hplace => hfront place ?_, nofun⟩
    rw [hmore, passed_append]
    exact List.mem_append_left _ hplace
  · refine ⟨front, more, hmore, hfront, fun name hname => hback name ?_⟩
    rw [hrest]
    exact List.mem_append_left _ hname

/-- A way that ends in a dot is there. -/
theorem LeadsDown.directory_of_dot {t : FileTree} {here : Location} {names : List String}
    (h : t.LeadsDown here (names ++ ["."])) :
    ∀ place ∈ passed here names, t.entry? place = some .directory := by
  obtain ⟨front, back, hnames, hfront, hback⟩ := h
  rcases List.eq_nil_or_concat back with hnil | ⟨others, last, hlast⟩
  · rw [hnil, List.append_nil] at hnames
    intro place hplace
    apply hfront
    rw [← hnames, passed_append]
    exact List.mem_append_left _ hplace
  · rw [hlast, List.concat_eq_append, ← List.append_assoc] at hnames
    obtain ⟨-, hdot⟩ := List.append_inj' hnames rfl
    refine absurd (List.cons.inj hdot).1.symm (hback last ?_).1
    rw [hlast]
    simp

theorem find_congr {t t' : FileTree} {path : String} (hlocate : t'.locate path = t.locate path)
    (hentry : ∀ place, t.locate path = .ok place → t'.entry? place = t.entry? place) :
    t'.find path = t.find path := by
  unfold find
  rw [hlocate]
  cases hat : t.locate path with
  | error trouble => rfl
  | ok place =>
      simp only [bind, Except.bind]
      rw [hentry place hat]

/-- Paths lead to the same things where nothing is different on the way. -/
theorem Widened.find {t t' : FileTree} {path : List Char}
    (h : Widened (passed (t.startOf path) (names path)) t t')
    (hsame : ∀ place ∈ passed (t.startOf path) (names path), t'.entry? place = t.entry? place) :
    t'.find (String.ofList path) = t.find (String.ofList path) := by
  obtain ⟨hstart, hstart'⟩ := h.entry?_startOf path
  have hall : ∀ place ∈ t.startOf path :: passed (t.startOf path) (names path),
      t'.entry? place = t.entry? place := by
    intro place hplace
    rcases List.mem_cons.mp hplace with rfl | hplace
    · rw [hstart, hstart']
    · exact hsame place hplace
  apply find_congr
  · refine @locate_congr t t' h.workingDirectory (String.ofList path) (names path) [] ?_ (Nat.zero_le 1) ?_
    · rw [String.toList_ofList, List.append_nil]
    · rwa [String.toList_ofList]
  · intro place hat
    obtain ⟨hplace, -⟩ := (locate_eq_ok_iff t _ place).mp hat
    simp only [FileTree.placeOf, String.toList_ofList] at hplace
    apply hall
    by_cases hnil : names path = []
    · rw [hplace, hnil, List.foldl_nil]
      exact List.mem_cons_self
    · rw [hplace]
      exact List.mem_cons_of_mem _ (foldl_follow_mem_passed _ hnil)

private theorem find_of_exists? {t : FileTree} {path : String} (h : t.exists? path = true) :
    path.toList.contains '\x00' = false ∧ ∃ place, t.locate path = .ok place ∧
      t.entry? place ≠ none := by
  cases hclean : path.toList.contains '\x00' with
  | true =>
      simp only [exists?, onPath, hclean, if_true] at h
      cases h
  | false =>
      obtain ⟨e, hlocate, hentry⟩ := exists?_eq_true hclean h
      exact ⟨rfl, _, hlocate, by simp [hentry]⟩

/-- What is found on a tree is found on one with more directories. -/
theorem Widened.exists? {t t' : FileTree} {path : List Char}
    (h : Widened (passed (t.startOf path) (names path)) t t')
    (hexists : t.exists? (String.ofList path) = true) : t'.exists? (String.ofList path) = true := by
  obtain ⟨-, place, hlocate, hthere⟩ := find_of_exists? hexists
  have hpresent := present_of_locate hlocate hthere
  rw [FileTree.exists?, h.find fun other hother => h.same hother (hpresent other hother)]
  exact hexists

/-- A way that ends in a file has nothing missing on it, so more directories make no difference. -/
private theorem Widened.same_of_file {t t' : FileTree} {here : Location} {front : List String}
    {last : String} (h : Widened (passed here (front ++ [last])) t t')
    (hgap : t.NoGap (passed here (front ++ [last]))) {content : List UInt8}
    (hentry : t'.entry? (follow (front.foldl follow here) last) = some (.file content)) :
    ∀ place ∈ passed here (front ++ [last]), t'.entry? place = t.entry? place := by
  have hway : passed here (front ++ [last]) =
      passed here front ++ [follow (front.foldl follow here) last] := by
    rw [passed_append]
    rfl
  have hend : follow (front.foldl follow here) last ∈
      [follow (front.foldl follow here) last] := List.mem_singleton.mpr rfl
  have hfile : t.entry? (follow (front.foldl follow here) last) = some (.file content) := by
    rcases h.kept _ (hway ▸ List.mem_append_right _ hend) with hsame | ⟨-, hdir⟩
    · rw [← hsame, hentry]
    · rw [hdir] at hentry
      cases hentry
  intro place hplace
  apply h.same hplace
  rw [NoGap, hway, List.pairwise_append] at hgap
  rw [hway, List.mem_append] at hplace
  rcases hplace with hplace | hplace
  · intro hnone
    have hbehind := hgap.2.2 place hplace _ hend hnone
    rw [hfile] at hbehind
    cases hbehind
  · rw [List.mem_singleton.mp hplace, hfile]
    simp

/-- The whole way to what is only found on the tree with more directories consists of directories
there. -/
private theorem Widened.directories {t t' : FileTree} {path : List Char}
    (h : Widened (passed (t.startOf path) (names path)) t t')
    (hgap : t.NoGap (passed (t.startOf path) (names path)))
    (hexists : t'.exists? (String.ofList path) = true)
    (hmissing : t.exists? (String.ofList path) = false) :
    ∀ place ∈ passed (t.startOf path) (names path), t'.entry? place = some .directory := by
  obtain ⟨-, place, hlocate, hthere⟩ := find_of_exists? hexists
  have hpresent := present_of_locate hlocate hthere
  obtain ⟨-, -, -, hopen⟩ := (locate_eq_ok_iff t' _ _).mp hlocate
  rw [String.toList_ofList] at hopen
  rw [h.startOf] at hpresent hopen
  have hfind := h.find
  rcases List.eq_nil_or_concat (names path) with hnil | ⟨front, last, hnames⟩
  · rw [hnil]
    exact nofun
  · rw [List.concat_eq_append] at hnames
    rw [hnames] at hopen h hgap hpresent hfind ⊢
    have hway : passed (t.startOf path) (front ++ [last]) = passed (t.startOf path) front ++
        [follow (front.foldl follow (t.startOf path)) last] := by
      rw [passed_append]
      rfl
    intro other hother
    rcases List.mem_append.mp (hway ▸ hother) with hfront | hlast
    · exact passed_of_isOpen last hopen other hfront
    · obtain rfl := List.mem_singleton.mp hlast
      cases hentry : t'.entry? (follow (front.foldl follow (t.startOf path)) last) with
      | none => exact absurd hentry (hpresent _ hother)
      | some e =>
          cases e with
          | directory => rfl
          | file content =>
              -- a file would have been found on the other tree too
              rw [FileTree.exists?, hfind (h.same_of_file hgap hentry)] at hexists
              rw [FileTree.exists?, hexists] at hmissing
              cases hmissing

/-- A directory that is only found on the tree with more directories can be made on the other. -/
theorem Widened.makes {t t' : FileTree} {path : List Char}
    (h : Widened (passed (t.startOf path) (names path)) t t')
    (hgap : t.NoGap (passed (t.startOf path) (names path))) (hne : path ≠ [])
    (hexists : t'.exists? (String.ofList path) = true)
    (hmissing : t.exists? (String.ofList path) = false) :
    Makes t path ∧
      ∀ place ∈ passed (t.startOf path) (names path), t'.entry? place = some .directory := by
  obtain ⟨hclean, place, hlocate, -⟩ := find_of_exists? hexists
  obtain ⟨-, -, hshort, hopen⟩ := (locate_eq_ok_iff t' _ _).mp hlocate
  rw [String.toList_ofList, h.startOf] at hopen
  have hdirectories := h.directories hgap hexists hmissing
  refine ⟨⟨hne, ?_, hshort, shortNames_of_isOpen hopen, (h.entry?_startOf path).1, ?_⟩,
    hdirectories⟩
  · intro hmem
    simp [hmem] at hclean
  · intro other hother content hfile
    have hdir := hdirectories other hother
    rcases h.kept other hother with hsame | ⟨hnone, -⟩
    · rw [hsame, hfile] at hdir
      cases hdir
    · rw [hnone] at hfile
      cases hfile

/-- Directories that are there already are added without any change. -/
private theorem addedAlike_of_made {t t' u : FileTree} {places : List Location}
    (hchanges : Changes [] places t u)
    (hmade : ∀ place ∈ places, u.entry? place = some .directory)
    (hthere : ∀ place ∈ places, t'.entry? place = some .directory) : AddedAlike t u t' t' := by
  refine ⟨places.filter fun place => t.entry? place = none, ?_, ?_, .refl ?_⟩
  · intro place hplace
    exact of_decide_eq_true (List.mem_filter.mp hplace).2
  · refine ⟨hchanges.workingDirectory, fun place => ?_⟩
    simp only [List.mem_filter, decide_eq_true_eq]
    split
    · rename_i hnew
      exact hmade place hnew.1
    · rename_i hold
      exact (hchanges.kept place List.not_mem_nil).resolve_right fun hnew =>
        hold ⟨hnew.2.2, hnew.1⟩
  · intro place hplace
    exact hthere place (List.mem_filter.mp hplace).1

/-- A dot stands only behind what is there already, and that is found on both trees. -/
private theorem snd_splitPath_ne_dot {t t' : FileTree} {path : List Char}
    (h : Widened (passed (t.startOf (splitPath path).1) (names (splitPath path).1)) t t')
    (hdown : t.LeadsDown (t.startOf path) (names path))
    (hexists : t'.exists? (String.ofList (splitPath path).1) = true)
    (hmissing : t.exists? (String.ofList (splitPath path).1) = false) :
    (splitPath path).2 ≠ ['.'] := by
  intro hdot
  have hhere : names ['.'] = ["."] := by decide
  rw [names_splitPath path, hdot, hhere, ← startOf_splitPath] at hdown
  have hsame : ∀ place ∈ passed (t.startOf (splitPath path).1) (names (splitPath path).1),
      t'.entry? place = t.entry? place := by
    intro place hplace
    apply h.same hplace
    rw [hdown.directory_of_dot place hplace]
    simp
  rw [FileTree.exists?, h.find hsame] at hexists
  rw [FileTree.exists?, hexists] at hmissing
  cases hmissing

private theorem names_fst_splitPath_eq_nil {path : List Char}
    (h : ¬ ((splitPath path).1 ≠ [] ∧ (splitPath path).2 ≠ [])) :
    names (splitPath path).1 = [] := by
  by_cases hhead : (splitPath path).1 = []
  · rw [hhead]
    rfl
  · exact names_splitPath_fst_of_snd (not_not.mp fun htail => h ⟨hhead, htail⟩)

/-- The directories on a way are made alike where others have made some of them. -/
theorem makeDirectories_alike {t t' : FileTree} {path : List Char}
    (h : Widened (passed (t.startOf path) (names path)) t t') (hrooted : t.IsRooted)
    (hdown : t.LeadsDown (t.startOf path) (names path)) :
    (t'.makeDirectories path).1 = (t.makeDirectories path).1 ∧
      AddedAlike t (t.makeDirectories path).2 t' (t'.makeDirectories path).2 := by
  have hway : passed (t.startOf path) (names path) =
      passed (t.startOf (splitPath path).1) (names (splitPath path).1) ++
        passed ((names (splitPath path).1).foldl follow (t.startOf path))
          (names (splitPath path).2) := by
    rw [startOf_splitPath, names_splitPath path, passed_append]
  have hfirst := h.mono (hway ▸ List.subset_append_left _ _)
  have hfirstDown : t.LeadsDown (t.startOf (splitPath path).1) (names (splitPath path).1) := by
    rw [names_splitPath path] at hdown
    rw [startOf_splitPath]
    exact hdown.front
  have hchanges := changes_makeDirectories t (splitPath path).1
  rw [makeDirectories_eq, makeDirectories_eq t]
  by_cases hparts : (splitPath path).1 ≠ [] ∧ (splitPath path).2 ≠ []
  · cases hexists : t.exists? (String.ofList (splitPath path).1) with
    | true =>
        have hexists' := hfirst.exists? hexists
        obtain ⟨-, place, hlocate, hthere⟩ := find_of_exists? hexists
        simp only [hexists', Bool.true_eq_false, and_false, if_false]
        have hpresent := present_of_locate hlocate hthere
        rw [startOf_splitPath] at hpresent
        exact ensureDirectory_alike h hpresent
    | false =>
        have hmissing : (splitPath path).1 ≠ [] ∧ (splitPath path).2 ≠ [] ∧ false = false :=
          ⟨hparts.1, hparts.2, rfl⟩
        cases hexists' : t'.exists? (String.ofList (splitPath path).1) with
        | false =>
            obtain ⟨hmade, hadded⟩ := makeDirectories_alike hfirst hrooted hfirstDown
            rw [if_pos hmissing, if_pos hmissing, hmade]
            by_cases hthere : isThere (t.makeDirectories (splitPath path).1).1 = true
            · rw [if_pos hthere, if_pos hthere]
              by_cases hdot : (splitPath path).2 = ['.']
              · rw [if_pos hdot, if_pos hdot]
                exact ⟨rfl, hadded⟩
              · have hpresent := present_of_makeDirectories h.working hthere
                have hlast := h.addedAlike hadded
                rw [startOf_splitPath, ← hchanges.startOf] at hpresent
                rw [← hchanges.startOf] at hlast
                obtain ⟨hsame, hadded'⟩ := ensureDirectory_alike hlast hpresent
                rw [if_neg hdot, if_neg hdot]
                exact ⟨hsame, hadded.trans hadded'⟩
            · rw [if_neg hthere, if_neg hthere]
              exact ⟨hmade, hadded⟩
        | true =>
            obtain ⟨hmakes, hthere⟩ :=
              hfirst.makes (hfirstDown.noGap hrooted) hparts.1 hexists' hexists
            obtain ⟨hok, hmade⟩ := hmakes.made
            have hdot := snd_splitPath_ne_dot hfirst hdown hexists' hexists
            have hadded := addedAlike_of_made hchanges hmade hthere
            have hlast := h.addedAlike hadded
            rw [← hchanges.startOf] at hlast
            have hpresent : ∀ place ∈ passed ((t.makeDirectories (splitPath path).1).2.startOf path)
                (names (splitPath path).1),
                FileTree.entry? (t.makeDirectories (splitPath path).1).2 place ≠ none := by
              intro place hplace
              rw [hchanges.startOf, ← startOf_splitPath] at hplace
              rw [hmade place hplace]
              simp
            obtain ⟨hsame, hadded'⟩ := ensureDirectory_alike hlast hpresent
            have hfound : isThere (.ok ()) = true := rfl
            rw [if_neg (by simp), if_pos hmissing, hok, if_pos hfound, if_neg hdot]
            exact ⟨hsame, hadded.trans hadded'⟩
  · have hparts' : ∀ found : Bool, ¬ ((splitPath path).1 ≠ [] ∧ (splitPath path).2 ≠ [] ∧
        found = false) := fun _ hall => hparts ⟨hall.1, hall.2.1⟩
    rw [if_neg (hparts' _), if_neg (hparts' _)]
    apply ensureDirectory_alike h
    rw [names_fst_splitPath_eq_nil hparts]
    exact nofun
termination_by path.length
decreasing_by
  exact length_splitPath_lt hparts.2

end FileTree

end MediaSplit
