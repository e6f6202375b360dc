import MediaSplit.Files.Tree

/-!
Where a path leads. The names of a path are followed one by one, so its place can be told from
its spelling alone; the tree only decides whether the way there is open. A way is open when every
place on it but the last is a directory, and it stays open as long as no directory goes away.
-/

namespace MediaSplit

namespace Path

/-- The names of a path in their order, single and double dots included. -/
def names (path : List Char) : List String :=
  ((parts path).filter fun part => !part.isEmpty).map String.ofList

/-- A name that leads down: neither of the dots. -/
def IsPlain (name : String) : Prop :=
  name ≠ "." ∧ name ≠ ".."

theorem names_append_slash (left right : List Char) :
    names (left ++ '/' :: right) = names left ++ names right := by
  simp [names, parts, List.splitOn_append_cons_self]

theorem names_of_no_slash {path : List Char} (h : '/' ∉ path) :
    names path = if path.isEmpty then [] else [String.ofList path] := by
  have hparts : parts path = [path] := List.splitOn_eq_singleton h
  cases path <;> simp [names, hparts]

private theorem names_append_slashes (path slashes : List Char) (h : ∀ c ∈ slashes, c = '/') :
    names (path ++ slashes) = names path := by
  induction slashes generalizing path with
  | nil => simp
  | cons c rest ih =>
      have hc : c = '/' := h c List.mem_cons_self
      have hrest : ∀ d ∈ rest, d = '/' := fun d hd => h d (List.mem_cons_of_mem c hd)
      have hnone : names rest = [] := by
        have := ih [] hrest
        simpa [names, parts] using this
      rw [hc, names_append_slash, hnone, List.append_nil]

theorem names_of_slashes {slashes : List Char} (h : slashes.all (· == '/') = true) :
    names slashes = [] := by
  have := names_append_slashes [] slashes fun c hc => by simpa using List.all_eq_true.mp h c hc
  simpa [names, parts] using this

theorem dropSlashes_append (path : List Char) :
    ∃ slashes, path = dropSlashes path ++ slashes ∧ ∀ c ∈ slashes, c = '/' := by
  unfold dropSlashes
  split
  · exact ⟨[], by simp, by simp⟩
  · refine ⟨(path.reverse.takeWhile (· == '/')).reverse, ?_, ?_⟩
    · rw [← List.reverse_append, List.takeWhile_append_dropWhile, List.reverse_reverse]
    · intro c hc
      have := List.all_eq_true.mp List.all_takeWhile c (List.mem_reverse.mp hc)
      simpa using this

theorem names_dropSlashes (path : List Char) : names (dropSlashes path) = names path := by
  obtain ⟨slashes, hpath, hslashes⟩ := dropSlashes_append path
  conv => rhs; rw [hpath]
  exact (names_append_slashes _ slashes hslashes).symm

theorem beforeName_append_nameOf (path : List Char) : beforeName path ++ nameOf path = path := by
  unfold beforeName nameOf
  rw [← List.reverse_append, List.takeWhile_append_dropWhile, List.reverse_reverse]

theorem slash_not_mem_nameOf (path : List Char) : '/' ∉ nameOf path := by
  intro h
  have := List.all_eq_true.mp List.all_takeWhile _ (List.mem_reverse.mp h)
  simp at this

/-- What stands before the name is nothing or ends in a slash. -/
theorem beforeName_eq_nil_or (path : List Char) :
    beforeName path = [] ∨ ∃ front, beforeName path = front ++ ['/'] := by
  unfold beforeName
  cases h : path.reverse.dropWhile (· != '/') with
  | nil => exact Or.inl rfl
  | cons c rest =>
      have hne : path.reverse.dropWhile (· != '/') ≠ [] := by simp [h]
      have hc := List.head_dropWhile_not (p := (· != '/')) (l := path.reverse) hne
      simp only [h, List.head_cons, bne_eq_false_iff_eq] at hc
      exact Or.inr ⟨rest.reverse, by simp [hc]⟩

theorem names_eq_append (path : List Char) :
    names path = names (directoryOf path) ++ names (nameOf path) := by
  rw [directoryOf, names_dropSlashes]
  conv => lhs; rw [← beforeName_append_nameOf path]
  rcases beforeName_eq_nil_or path with hnil | ⟨front, hfront⟩
  · simp [hnil, names, parts]
  · rw [hfront, List.append_assoc, List.singleton_append, names_append_slash, names_append_slash]
    simp [names, parts]

private theorem head?_dropSlashes (path : List Char) : (dropSlashes path).head? = path.head? := by
  obtain ⟨slashes, hpath, hslashes⟩ := dropSlashes_append path
  cases hdrop : dropSlashes path with
  | nil =>
      rw [hdrop, List.nil_append] at hpath
      have hall : path.all (· == '/') = true := by
        rw [hpath, List.all_eq_true]
        intro c hc
        simp [hslashes c hc]
      rw [dropSlashes, if_pos hall] at hdrop
      simp [hdrop]
  | cons c rest => rw [hpath, hdrop]; rfl

/-- A path and its directory start at the same place. -/
theorem head?_directoryOf (path : List Char) :
    (directoryOf path).head? = some '/' ↔ path.head? = some '/' := by
  rw [directoryOf, head?_dropSlashes]
  conv => rhs; rw [← beforeName_append_nameOf path]
  cases hbefore : beforeName path with
  | cons c rest => simp
  | nil =>
      simp only [List.head?_nil, List.nil_append]
      constructor
      · intro h
        cases h
      · intro h
        exact absurd (List.mem_of_mem_head? h) (slash_not_mem_nameOf path)

end Path

namespace FileTree

open MediaSplit.Path

def follow (here : Location) (name : String) : Location :=
  if name = "." then here else if name = ".." then here.dropLast else here ++ [name]

def startOf (t : FileTree) (path : List Char) : Location :=
  if path.head? = some '/' then [] else t.workingDirectory

def placeOf (t : FileTree) (path : String) : Location :=
  (names path.toList).foldl follow (t.startOf path.toList)

/-- Names that lead down are added to a place. -/
theorem foldl_follow_plain {names : List String} (h : ∀ name ∈ names, IsPlain name)
    (here : Location) : names.foldl follow here = here ++ names := by
  induction names generalizing here with
  | nil => rw [List.foldl_nil, List.append_nil]
  | cons name rest ih =>
      obtain ⟨hstays, hup⟩ := h name List.mem_cons_self
      rw [List.foldl_cons, ih fun other hother => h other (List.mem_cons_of_mem _ hother), follow,
        if_neg hstays, if_neg hup, List.append_assoc, List.singleton_append]

def passed (here : Location) : List String → List Location
  | [] => []
  | name :: rest => follow here name :: passed (follow here name) rest

def parentsOf (t : FileTree) (path : String) : List Location :=
  passed (t.startOf path.toList) (names (directoryOf path.toList))

/-- Whether names can be followed from a place: each is short enough and is looked for in a
directory. -/
def IsOpen (t : FileTree) (here : Location) : List String → Prop
  | [] => True
  | name :: rest =>
      t.entry? here = some .directory ∧ name.utf8ByteSize ≤ maxNameBytes ∧
        t.IsOpen (follow here name) rest

theorem walk_eq_ok_iff (t : FileTree) (here place : Location) (names : List String) :
    t.walk here names = .ok place ↔ place = names.foldl follow here ∧ t.IsOpen here names := by
  induction names generalizing here with
  | nil => simp [walk, IsOpen, eq_comm]
  | cons name rest ih =>
      have hdot : ".".utf8ByteSize ≤ maxNameBytes := by decide
      have hdots : "..".utf8ByteSize ≤ maxNameBytes := by decide
      simp only [walk, IsOpen, List.foldl_cons]
      split
      · rename_i hnone
        simp [hnone]
      · rename_i content hfile
        simp [hfile]
      · rename_i hdir
        split
        · rename_i hname
          simp [ih, follow, hname, hdir, hdot]
        · split
          · rename_i hname
            simp [ih, follow, hname, hdir, hdots]
          · rename_i hne hne'
            split
            · rename_i hlong
              have : ¬ name.utf8ByteSize ≤ maxNameBytes := by omega
              simp [this]
            · rename_i hshort
              have : name.utf8ByteSize ≤ maxNameBytes := by omega
              simp [ih, follow, hne, hne', hdir, this]

theorem locate_eq_ok_iff (t : FileTree) (path : String) (place : Location) :
    t.locate path = .ok place ↔
      place = t.placeOf path ∧ path.isEmpty = false ∧ path.utf8ByteSize < maxPathBytes ∧
        t.IsOpen (t.startOf path.toList) (names path.toList) := by
  unfold locate
  split
  · rename_i hempty
    simp [hempty]
  · rename_i hempty
    split
    · rename_i hlong
      have : ¬ path.utf8ByteSize < maxPathBytes := by omega
      simp [this]
    · rename_i hshort
      have hlt : path.utf8ByteSize < maxPathBytes := by omega
      have hne : path.isEmpty = false := by simpa using hempty
      have := walk_eq_ok_iff t (t.startOf path.toList) place (names path.toList)
      simp only [startOf, names] at this
      simp only [this, placeOf, startOf, names, hne, hlt, true_and]

end FileTree

end MediaSplit
