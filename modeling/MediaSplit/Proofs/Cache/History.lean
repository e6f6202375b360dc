import MediaSplit.Encoding.HostNames
import MediaSplit.Proofs.Cache.Entries

/-!
The cache as its users see it. What it answers is told from what it was asked so far and what it
answered then: a path has the style sheet that was first given for it since the cache was last
cleared, whatever became of the file, and a path that has none is read as the file is now.
-/

namespace MediaSplit.Cache

inductive Use where
  | get (path : String)
  | clear
  | contains (path : String)
  | size
  | parses
  | change (tree : FileTree)

inductive Answer where
  | got (outcome : Except Fault Parsed)
  | truth (value : Bool)
  | number (value : Nat)
  | nothing

abbrev History := List (Use × Answer)

namespace History

def isClear : Use × Answer → Bool
  | (.clear, _) => true
  | _ => false

/-- The path and the style sheet of a successful `get`. -/
def gift : Use × Answer → Option (String × Parsed)
  | (.get path, .got (.ok parsed)) => some (path, parsed)
  | _ => none

def giftFor (path : String) (entry : Use × Answer) : Option Parsed :=
  match gift entry with
  | some (asked, parsed) => if asked = path then some parsed else none
  | none => none

/-- What was done since the cache was last cleared, the earliest first. -/
def sinceClear (history : History) : History :=
  (history.takeWhile fun entry => !isClear entry).reverse

def firstGift (history : History) (path : String) : Option Parsed :=
  history.sinceClear.findSome? (giftFor path)

/-- The paths for which style sheets were given since then. -/
def pathsGiven (history : History) : List String :=
  (history.sinceClear.filterMap gift).map Prod.fst

/-- How often a file was read and parsed with success: once for each style sheet that was given
when there was none for its path. -/
def loads : History → Nat
  | [] => 0
  | entry :: earlier =>
      match gift entry with
      | some (path, _) =>
          if (firstGift earlier path).isNone then loads earlier + 1 else loads earlier
      | none => loads earlier

variable (history : History) (entry : Use × Answer)

theorem sinceClear_cons :
    sinceClear (entry :: history) =
      if isClear entry then [] else sinceClear history ++ [entry] := by
  unfold sinceClear
  rw [List.takeWhile_cons]
  cases isClear entry with
  | true => rfl
  | false => simp

theorem firstGift_cons (path : String) :
    firstGift (entry :: history) path =
      if isClear entry then none else (firstGift history path).or (giftFor path entry) := by
  unfold firstGift
  rw [sinceClear_cons]
  split
  · rfl
  · simp [List.findSome?_append]

theorem pathsGiven_cons :
    pathsGiven (entry :: history) =
      if isClear entry then [] else pathsGiven history ++ ((gift entry).map Prod.fst).toList := by
  unfold pathsGiven
  rw [sinceClear_cons]
  split
  · rfl
  · cases h : gift entry <;> simp [h]

section Gift

variable {history : History} {entry : Use × Answer} {path : String} {parsed : Parsed}

theorem isClear_of_gift (h : gift entry = some (path, parsed)) : isClear entry = false := by
  unfold gift at h
  split at h
  · rfl
  · cases h

/-- A style sheet that is given counts if it is the first for its path. -/
theorem firstGift_cons_of_gift (h : gift entry = some (path, parsed)) (other : String) :
    firstGift (entry :: history) other =
      (firstGift history other).or (if path = other then some parsed else none) := by
  rw [firstGift_cons, isClear_of_gift h, if_neg Bool.false_ne_true, giftFor, h]

theorem pathsGiven_cons_of_gift (h : gift entry = some (path, parsed)) :
    pathsGiven (entry :: history) = pathsGiven history ++ [path] := by
  rw [pathsGiven_cons, isClear_of_gift h, if_neg Bool.false_ne_true, h]
  rfl

theorem exists_of_firstGift (h : firstGift history path = some parsed) :
    ∃ entry ∈ history, gift entry = some (path, parsed) := by
  obtain ⟨entry, hmem, hgift⟩ := List.exists_of_findSome?_eq_some h
  refine ⟨entry, (List.takeWhile_sublist _).subset (List.mem_reverse.mp hmem), ?_⟩
  unfold giftFor at hgift
  split at hgift
  · rename_i asked given heq
    split at hgift
    · rename_i hasked
      rw [heq, hasked, Option.some.inj hgift]
    · cases hgift
  · cases hgift

end Gift

end History

structure Session where
  tree : FileTree
  cache : Cache
  history : History

namespace Session

open History

def start (t : FileTree) (encoding : String) : Session :=
  ⟨t, .empty encoding, []⟩

def answer [Codecs] (s : Session) : Use → Answer
  | .get path => .got (s.cache.get s.tree path).1
  | .contains path => .truth (s.cache.holds path)
  | .size => .number s.cache.size
  | .parses => .number s.cache.parses
  | .clear | .change _ => .nothing

def after [Codecs] (s : Session) : Use → FileTree × Cache
  | .get path => (s.tree, (s.cache.get s.tree path).2)
  | .clear => (s.tree, s.cache.clear)
  | .change tree => (tree, s.cache)
  | .contains _ | .size | .parses => (s.tree, s.cache)

def step [Codecs] (s : Session) (use : Use) : Session :=
  ⟨(s.after use).1, (s.after use).2, (use, s.answer use) :: s.history⟩

def run [Codecs] (s : Session) (uses : List Use) : Session :=
  uses.foldl step s

/-- The cache holds what its history tells. -/
structure Traced (encoding : String) (s : Session) : Prop where
  encoding : s.cache.encoding = encoding
  entries : ∀ path, s.cache.get? path = firstGift s.history path
  paths : Table.keys s.cache.entries = (pathsGiven s.history).eraseDups
  parses : s.cache.parses = loads s.history
  size : s.cache.size ≤ s.cache.parses
  serials : ∀ entry ∈ s.history, ∀ path parsed, gift entry = some (path, parsed) →
    parsed.serial < s.cache.parses

variable {encoding : String} {s : Session}

theorem traced_start (t : FileTree) : (start t encoding).Traced encoding where
  encoding := rfl
  entries _ := rfl
  paths := rfl
  parses := rfl
  size := Nat.le_refl 0
  serials _ hentry := nomatch hentry

/-- A use that gives nothing and clears nothing. -/
theorem Traced.silent (h : s.Traced encoding) (t : FileTree) {entry : Use × Answer}
    (hclear : isClear entry = false) (hgift : gift entry = none) :
    Traced encoding ⟨t, s.cache, entry :: s.history⟩ where
  encoding := h.encoding
  entries path := by
    rw [firstGift_cons, hclear, giftFor, hgift, if_neg Bool.false_ne_true, Option.or_none]
    exact h.entries path
  paths := by
    rw [pathsGiven_cons, hclear, hgift, if_neg Bool.false_ne_true]
    simpa using h.paths
  parses := by
    rw [loads, hgift]
    exact h.parses
  size := h.size
  serials e he path parsed hgiven := by
    rcases List.mem_cons.mp he with rfl | he
    · rw [hgift] at hgiven
      cases hgiven
    · exact h.serials e he path parsed hgiven

theorem Traced.clear [Codecs] (h : s.Traced encoding) : (s.step .clear).Traced encoding where
  encoding := h.encoding
  entries path := by
    rw [step, firstGift_cons]
    rfl
  paths := by
    rw [step, pathsGiven_cons]
    rfl
  parses := h.parses
  size := Nat.zero_le _
  serials e he path parsed hgiven := by
    rcases List.mem_cons.mp he with rfl | he
    · cases hgiven
    · exact h.serials e he path parsed hgiven

/-- A style sheet is given from the cache. -/
theorem Traced.hit (h : s.Traced encoding) {path : String} {parsed : Parsed}
    (hkept : s.cache.get? path = some parsed) :
    Traced encoding ⟨s.tree, s.cache, (.get path, .got (.ok parsed)) :: s.history⟩ := by
  have hfirst : firstGift s.history path = some parsed := by rw [← h.entries, hkept]
  have hgiven : path ∈ pathsGiven s.history := by
    rw [← List.mem_eraseDups, ← h.paths, ← Table.get?_isSome_iff]
    exact Option.isSome_of_eq_some hkept
  exact {
    encoding := h.encoding
    entries := fun other => by
      rw [firstGift_cons_of_gift rfl, h.entries]
      split
      · rename_i heq
        rw [← heq, hfirst, Option.some_or]
      · rw [Option.or_none]
    paths := by
      rw [pathsGiven_cons_of_gift rfl, h.paths, List.eraseDups_append]
      simp [List.removeAll, hgiven]
    parses := by
      simp only [loads, gift, hfirst, Option.isNone_some, Bool.false_eq_true, if_false]
      exact h.parses
    size := h.size
    serials := fun e he other given hgift => by
      rcases List.mem_cons.mp he with rfl | he
      · -- The first gift for the path was of the same style sheet.
        obtain ⟨earlier, hmem, hearlier⟩ := exists_of_firstGift hfirst
        obtain ⟨rfl, rfl⟩ := Prod.mk.inj (Option.some.inj hgift)
        exact h.serials earlier hmem path parsed hearlier
      · exact h.serials e he other given hgift }

/-- A file is read and parsed, and the new style sheet is kept and given. -/
theorem Traced.loaded (h : s.Traced encoding) {path : String} (sheet : Stylesheet)
    (hnone : s.cache.get? path = none) :
    Traced encoding ⟨s.tree, s.cache.store path ⟨s.cache.parses, sheet⟩,
      (.get path, .got (.ok ⟨s.cache.parses, sheet⟩)) :: s.history⟩ := by
  have hfirst : firstGift s.history path = none := by rw [← h.entries, hnone]
  have hgiven : path ∉ pathsGiven s.history := by
    rw [← List.mem_eraseDups, ← h.paths, ← Table.get?_isSome_iff]
    change ¬(s.cache.get? path).isSome = true
    rw [hnone]
    exact Bool.false_ne_true
  exact {
    encoding := h.encoding
    entries := fun other => by
      rw [firstGift_cons_of_gift rfl]
      by_cases heq : other = path
      · rw [heq, get?_store_self, hfirst, if_pos rfl, Option.none_or]
      · rw [get?_store_of_ne heq, if_neg (Ne.symm heq), Option.or_none, h.entries]
    paths := by
      rw [pathsGiven_cons_of_gift rfl, List.eraseDups_append, entries_store hnone, ← h.paths]
      simp [List.removeAll, hgiven, Table.keys, List.eraseDups_cons]
    parses := by
      simp only [loads, gift, hfirst, Option.isNone_none, if_true, store, h.parses]
    size := by
      rw [size_store hnone]
      exact Nat.succ_le_succ h.size
    serials := fun e he other given hgift => by
      change given.serial < s.cache.parses + 1
      rcases List.mem_cons.mp he with rfl | he
      · obtain ⟨-, rfl⟩ := Prod.mk.inj (Option.some.inj hgift)
        exact Nat.lt_succ_self _
      · exact Nat.lt_succ_of_lt (h.serials e he other given hgift) }

theorem step_get [Codecs] {path : String} {outcome : Except Fault Parsed} {c : Cache}
    (h : s.cache.get s.tree path = (outcome, c)) :
    s.step (.get path) = ⟨s.tree, c, (.get path, .got outcome) :: s.history⟩ := by
  simp only [step, after, answer, h]

/-- One step: every use of a cache carries its history on. -/
theorem Traced.step [Codecs] (h : s.Traced encoding) (use : Use) :
    (s.step use).Traced encoding := by
  cases use with
  | clear => exact h.clear
  | contains path => exact h.silent s.tree rfl rfl
  | size => exact h.silent s.tree rfl rfl
  | parses => exact h.silent s.tree rfl rfl
  | change tree => exact h.silent tree rfl rfl
  | get path =>
      rcases get_cases s.tree s.cache path with ⟨parsed, hkept, hget⟩ |
        ⟨fault, -, -, hget⟩ | ⟨sheet, hnone, -, hget⟩
      · rw [step_get hget]
        exact h.hit hkept
      · rw [step_get hget]
        exact h.silent s.tree rfl rfl
      · rw [step_get hget]
        exact h.loaded sheet hnone

theorem Traced.run [Codecs] (h : s.Traced encoding) (uses : List Use) :
    (s.run uses).Traced encoding := by
  induction uses generalizing s with
  | nil => exact h
  | cons use uses ih => exact ih (h.step use)

structure Remembers [Codecs] (encoding : String) (s : Session) : Prop where
  kept : ∀ path parsed, firstGift s.history path = some parsed →
    s.answer (.get path) = .got (.ok parsed) ∧ (s.step (.get path)).cache = s.cache
  /-- A style sheet that is new differs from every one that was ever given. -/
  read : ∀ path text sheet, firstGift s.history path = none →
    TextFile.read s.tree encoding path = .ok text → Stylesheet.parse path text = .ok sheet →
    ∃ parsed, s.answer (.get path) = .got (.ok parsed) ∧ parsed.sheet = sheet ∧
      ∀ entry ∈ s.history, ∀ other given, gift entry = some (other, given) →
        given.serial ≠ parsed.serial
  unread : ∀ path fault, firstGift s.history path = none →
    TextFile.read s.tree encoding path = .error fault →
    s.answer (.get path) = .got (.error fault) ∧ (s.step (.get path)).cache = s.cache
  malformed : ∀ path text fault, firstGift s.history path = none →
    TextFile.read s.tree encoding path = .ok text → Stylesheet.parse path text = .error fault →
    s.answer (.get path) = .got (.error (.parse fault)) ∧ (s.step (.get path)).cache = s.cache
  contains : ∀ path, s.answer (.contains path) = .truth (decide (path ∈ pathsGiven s.history))
  size : s.answer .size = .number (pathsGiven s.history).eraseDups.length
  parses : s.answer .parses = .number (loads s.history)
  size_le_parses : s.cache.size ≤ s.cache.parses
  /-- Two spellings of one file are two paths. -/
  apart : ∀ path other, other ≠ path →
    (s.step (.get path)).cache.get? other = s.cache.get? other

theorem Traced.holds_eq (h : s.Traced encoding) (path : String) :
    s.cache.holds path = decide (path ∈ pathsGiven s.history) := by
  rw [Bool.eq_iff_iff, decide_eq_true_iff, ← List.mem_eraseDups, ← h.paths]
  exact Table.get?_isSome_iff

theorem Traced.size_eq (h : s.Traced encoding) :
    s.cache.size = (pathsGiven s.history).eraseDups.length := by
  rw [← h.paths]
  exact (List.length_map Prod.fst).symm

/-- A first `get` that fails leaves the cache as it is. -/
private theorem Traced.failed [Codecs] (h : s.Traced encoding) {path : String} {fault : Fault}
    (hfirst : firstGift s.history path = none) (hload : load s.tree encoding path = .error fault) :
    s.answer (.get path) = .got (.error fault) ∧ (s.step (.get path)).cache = s.cache := by
  rw [← h.entries] at hfirst
  rw [← h.encoding] at hload
  have hget : s.cache.get s.tree path = (.error fault, s.cache) := get_of_fault hfirst hload
  rw [step_get hget, answer, hget]
  exact ⟨rfl, rfl⟩

/-- Whatever is done with a cache and with the files, it answers as its history tells. -/
theorem remembers_of_uses [Codecs] (t : FileTree) (encoding : String) (uses : List Use) :
    Remembers encoding ((start t encoding).run uses) := by
  have h : Traced encoding ((start t encoding).run uses) := (traced_start t).run uses
  generalize (start t encoding).run uses = s at h
  refine ⟨?kept, ?read, ?unread, ?malformed, ?contains, ?size, ?parses, h.size, ?apart⟩
  case contains => exact fun path => congrArg Answer.truth (h.holds_eq path)
  case size => exact congrArg Answer.number h.size_eq
  case parses => exact congrArg Answer.number h.parses
  case kept =>
    intro path parsed hfirst
    rw [← h.entries] at hfirst
    have hget : s.cache.get s.tree path = (.ok parsed, s.cache) := get_of_some hfirst
    rw [step_get hget, answer, hget]
    exact ⟨rfl, rfl⟩
  case read =>
    intro path text sheet hfirst hread hparse
    rw [← h.entries] at hfirst
    have hload : load s.tree s.cache.encoding path = .ok sheet := by
      rw [h.encoding, load_eq_of_read hread, hparse]
      rfl
    refine ⟨⟨s.cache.parses, sheet⟩, ?_, rfl, ?_⟩
    · rw [answer, get_of_load hfirst hload]
    · intro entry hentry other given hgift
      exact Nat.ne_of_lt (h.serials entry hentry other given hgift)
  case unread =>
    intro path fault hfirst hread
    exact h.failed hfirst (load_of_unread hread)
  case malformed =>
    intro path text fault hfirst hread hparse
    apply h.failed hfirst
    rw [load_eq_of_read hread, hparse]
    rfl
  case apart =>
    intro path other hne
    rcases get_cases s.tree s.cache path with ⟨parsed, -, hget⟩ | ⟨fault, -, -, hget⟩ |
      ⟨sheet, -, -, hget⟩
    · rw [step_get hget]
    · rw [step_get hget]
    · rw [step_get hget]
      exact get?_store_of_ne hne _ _

/-- A style sheet that was given is given again when its file has changed or is gone; after a
`clear` the file is read as it is then. -/
theorem remembers_of_uses_changed :
    let files (text : String) : FileTree := ⟨[(["a.css"], .file text.toUTF8.toList)], []⟩
    let s := (start (files "a\x7b\x7d") "utf-8").run [.get "a.css", .change (files "b\x7b\x7d"),
      .get "a.css", .clear, .get "a.css", .change ⟨[], []⟩, .get "a.css", .get "b.css"]
    s.history.reverse.filterMap (fun entry => (gift entry).map fun (path, parsed) =>
        (path, parsed.serial, parsed.sheet.write)) =
      [("a.css", 0, "a\x7b\x7d"), ("a.css", 0, "a\x7b\x7d"), ("a.css", 1, "b\x7b\x7d"),
        ("a.css", 1, "b\x7b\x7d")] ∧
      s.answer (.get "b.css") = .got (.error (.path (.trouble .noEntry "b.css"))) ∧
      s.answer .size = .number 1 ∧ s.answer .parses = .number 2 ∧ Remembers "utf-8" s := by
  intro files s
  have hremembers : Remembers "utf-8" s := remembers_of_uses _ _ _
  refine ⟨?given, ?missing, ?size, ?parses, hremembers⟩
  case given => decide +kernel
  case missing =>
    have hfirst : firstGift s.history "b.css" = none :=
      Option.isNone_iff_eq_none.mp (by decide +kernel)
    exact (hremembers.unread "b.css" _ hfirst rfl).1
  case size => exact hremembers.size.trans (congrArg Answer.number (by decide +kernel))
  case parses => exact hremembers.parses.trans (congrArg Answer.number (by decide +kernel))

end Session

end MediaSplit.Cache
