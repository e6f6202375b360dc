import MediaSplit.Proofs.Cache.Entries
import MediaSplit.Proofs.Files.CopyNames
import MediaSplit.Proofs.Files.Rooted
import MediaSplit.Proofs.Widths

/-!
Trees that grow. Writing puts new entries behind those that are there, under names that can stand
between slashes, and leaves directories directories and files files. So what a pattern can match in
a tree that has grown are the old places, in their old order, and new ones after them.
-/

namespace MediaSplit

namespace Table

variable {κ α β : Type} [BEq κ] [LawfulBEq κ]

/-- What is alike for the old and the new value of a key is so for the whole table. -/
theorem map_set_of_get? {key : κ} {value old : α} {table : Table κ α} {f : κ × α → β}
    (hget : get? table key = some old) (hsame : f (key, value) = f (key, old)) :
    (set key value table).map f = table.map f := by
  induction table with
  | nil => cases hget
  | cons entry rest ih =>
      obtain ⟨k, first⟩ := entry
      unfold get? at hget ih
      rw [List.lookup_cons] at hget
      simp only [set]
      split
      · rename_i hk
        obtain rfl := eq_of_beq hk
        rw [beq_self_eq_true] at hget
        obtain rfl := Option.some.inj hget
        rw [List.map_cons, List.map_cons, hsame]
      · rename_i hk
        have hne : (key == k) = false := beq_eq_false_iff_ne.mpr fun heq => hk (by simp [heq])
        rw [hne] at hget
        rw [List.map_cons, List.map_cons, ih hget]

end Table

namespace FileTree

open MediaSplit.Path

structure IsName (name : String) : Prop where
  nonempty : name ≠ ""
  plain : IsPlain name
  noSlash : '/' ∉ name.toList
  noNul : '\x00' ∉ name.toList

instance (name : String) : Decidable (IsName name) :=
  decidable_of_iff (name ≠ "" ∧ (name ≠ "." ∧ name ≠ "..") ∧ '/' ∉ name.toList ∧
      '\x00' ∉ name.toList)
    ⟨fun h => ⟨h.1, h.2.1, h.2.2.1, h.2.2.2⟩,
      fun h => ⟨h.nonempty, h.plain, h.noSlash, h.noNul⟩⟩

/-- That all entries have names that they can have, as it is in every file system. -/
def HasNames (t : FileTree) : Prop :=
  ∀ entry ∈ t.entries, ∀ name ∈ entry.1, IsName name

instance (t : FileTree) : Decidable t.HasNames :=
  inferInstanceAs (Decidable (∀ entry ∈ t.entries, ∀ name ∈ entry.1, IsName name))

/-- The places of a tree in the order of its entries, and whether each is a directory. -/
def kinds (t : FileTree) : List (Location × Bool) :=
  t.entries.map fun entry => (entry.1, decide (entry.2 = .directory))

/-- That a tree has come from another one by new contents of files, and by new entries with names
that entries can have. -/
structure Grows (t t' : FileTree) : Prop where
  workingDirectory : t'.workingDirectory = t.workingDirectory
  kinds : ∃ more, t'.kinds = t.kinds ++ more ∧
    ∀ entry ∈ more, t.entry? entry.1 = none ∧ ∀ name ∈ entry.1, IsName name

variable {t t' t'' : FileTree} {path : String} {place : Location}

theorem entry?_eq_none_iff : t.entry? place = none ↔ place ≠ [] ∧ place ∉ t.kinds.map Prod.fst := by
  have hkeys : t.kinds.map Prod.fst = Table.keys t.entries := by
    rw [kinds, List.map_map]
    rfl
  rw [hkeys, ← Table.get?_isSome_iff]
  cases place with
  | nil => simp [FileTree.entry?]
  | cons name rest => simp [FileTree.entry?]

/-- What a tree has under some name has names that can be. -/
theorem HasNames.of_entry? (h : t.HasNames) (hthere : t.entry? place ≠ none) :
    ∀ name ∈ place, IsName name := by
  rw [ne_eq, entry?_eq_none_iff, not_and, not_not] at hthere
  by_cases hnil : place = []
  · rw [hnil]
    exact List.forall_mem_nil _
  · obtain ⟨kind, hkind, rfl⟩ := List.mem_map.mp (hthere hnil)
    obtain ⟨entry, hentry, rfl⟩ := List.mem_map.mp hkind
    exact h entry hentry

theorem isName_of_mem_names {path : List Char} (hclean : '\x00' ∉ path) {name : String}
    (hname : name ∈ names path) (hplain : IsPlain name) : IsName name := by
  obtain ⟨part, hpart, rfl⟩ := List.mem_map.mp hname
  obtain ⟨hparts, hne⟩ := List.mem_filter.mp hpart
  refine ⟨?_, hplain, ?_, ?_⟩
  · intro hempty
    rw [String.ofList_eq_empty_iff.mp hempty] at hne
    cases hne
  · rw [String.toList_ofList]
    exact Text.not_mem_of_mem_splitOn hparts
  · rw [String.toList_ofList]
    exact fun hnul => hclean (mem_of_mem_parts hparts hnul)

/-- A path leads to a place with names that can be, whether or not something is there. -/
theorem HasNames.placeOf (h : t.HasNames)
    (hworking : t.entry? t.workingDirectory = some .directory)
    (hclean : path.toList.contains '\x00' = false) : ∀ name ∈ t.placeOf path, IsName name := by
  have hfollow : ∀ (way : List String) (here : Location),
      (∀ name ∈ way, IsPlain name → IsName name) → (∀ name ∈ here, IsName name) → ∀ name ∈ way.foldl follow here, IsName name := by
    intro way
    induction way with
    | nil => exact fun here _ hhere => hhere
    | cons next rest ih =>
        intro here hway hhere
        obtain ⟨hnext, hrest⟩ := List.forall_mem_cons.mp hway
        refine ih (follow here next) hrest ?_
        unfold follow
        split
        · exact hhere
        · rename_i hdot
          split
          · exact fun name hname => hhere name ((List.dropLast_sublist _).subset hname)
          · rename_i hdots
            rw [List.forall_mem_append]
            exact ⟨hhere, List.forall_mem_singleton.mpr (hnext ⟨hdot, hdots⟩)⟩
  apply hfollow
  · intro name hname hplain
    exact isName_of_mem_names (by simpa using hclean) hname hplain
  · unfold startOf
    split
    · exact List.forall_mem_nil _
    · exact h.of_entry? (by rw [hworking]; simp)

theorem lookup_kinds (t : FileTree) (place : Location) :
    t.kinds.lookup place = (Table.get? t.entries place).map fun e => decide (e = .directory) := by
  unfold kinds Table.get?
  induction t.entries with
  | nil => rfl
  | cons entry rest ih =>
      rw [List.map_cons, List.lookup_cons, List.lookup_cons]
      split
      · rfl
      · exact ih

namespace Grows

theorem refl (t : FileTree) : t.Grows t :=
  ⟨rfl, [], (List.append_nil _).symm, List.forall_mem_nil _⟩

theorem trans (first : t.Grows t') (second : t'.Grows t'') : t.Grows t'' := by
  obtain ⟨hworking, more, hkinds, hmore⟩ := first
  obtain ⟨hworking', more', hkinds', hmore'⟩ := second
  refine ⟨hworking'.trans hworking, more ++ more', ?_, ?_⟩
  · rw [hkinds', hkinds, List.append_assoc]
  · rw [List.forall_mem_append]
    refine ⟨hmore, fun entry hentry => ⟨?_, (hmore' entry hentry).2⟩⟩
    -- a place that is new to the larger tree is new to the smaller one
    obtain ⟨hne, hnew⟩ := entry?_eq_none_iff.mp (hmore' entry hentry).1
    rw [hkinds, List.map_append, List.mem_append, not_or] at hnew
    exact entry?_eq_none_iff.mpr ⟨hne, hnew.1⟩

theorem hasNames (h : t.Grows t') (hnames : t.HasNames) : t'.HasNames := by
  obtain ⟨-, more, hkinds, hmore⟩ := h
  intro entry hentry
  have hmem : (entry.1, decide (entry.2 = .directory)) ∈ t.kinds ++ more := by
    rw [← hkinds]
    exact List.mem_map_of_mem hentry
  rcases List.mem_append.mp hmem with hold | hnew
  · obtain ⟨entry', hentry', heq⟩ := List.mem_map.mp hold
    rw [← (Prod.mk.inj heq).1]
    exact hnames entry' hentry'
  · exact (hmore _ hnew).2

/-- What is there stays there, as the file or the directory that it is. -/
theorem entry? (h : t.Grows t') {e : Entry} (hentry : t.entry? place = some e) :
    ∃ e', t'.entry? place = some e' ∧ (e' = .directory ↔ e = .directory) := by
  obtain ⟨-, more, hkinds, -⟩ := h
  cases place with
  | nil => exact ⟨.directory, rfl, by simp [← Option.some.inj hentry]⟩
  | cons name rest =>
      have hkind := t.lookup_kinds (name :: rest)
      have hkind' := t'.lookup_kinds (name :: rest)
      change Table.get? t.entries (name :: rest) = some e at hentry
      change ∃ e', Table.get? t'.entries (name :: rest) = some e' ∧ _
      rw [hentry] at hkind
      rw [hkinds, List.lookup_append, hkind] at hkind'
      cases hentry' : Table.get? t'.entries (name :: rest) with
      | none =>
          rw [hentry'] at hkind'
          cases hkind'
      | some e' =>
          rw [hentry'] at hkind'
          exact ⟨e', rfl, (by simpa using hkind' : e = .directory ↔ e' = .directory).symm⟩

/-- Any of its files may have changed, and nothing else has. -/
theorem changes (h : t.Grows t') : Changes (t'.kinds.map Prod.fst) [] t t' where
  workingDirectory := h.workingDirectory
  kept place hplace := by
    left
    by_cases hnil : place = []
    · rw [hnil]
      rfl
    · rw [entry?_eq_none_iff.mpr ⟨hnil, hplace⟩, eq_comm, entry?_eq_none_iff]
      obtain ⟨-, more, hkinds, -⟩ := h
      rw [hkinds, List.map_append, List.mem_append, not_or] at hplace
      exact ⟨hnil, hplace.1⟩
  directoryStays place hentry := by
    obtain ⟨e', hentry', hkind⟩ := h.entry? hentry
    rw [hentry', hkind.mpr rfl]
  fileStays place content hentry := by
    obtain ⟨e', hentry', hkind⟩ := h.entry? hentry
    cases e' with
    | file content' => exact ⟨content', hentry'⟩
    | directory => cases hkind.mp rfl

end Grows

/-- Something new is put behind all else. -/
theorem grows_put_new (h : t.entry? place = none) (hnames : ∀ name ∈ place, IsName name)
    (e : Entry) : t.Grows (t.put place e) := by
  have hget : Table.get? t.entries place = none := by
    cases place with
    | nil => cases h
    | cons name rest => exact h
  refine ⟨rfl, [(place, decide (e = .directory))], ?_, List.forall_mem_singleton.mpr ⟨h, hnames⟩⟩
  rw [kinds, put, Table.set_of_get?_eq_none e hget, List.map_append]
  rfl

/-- A file gets new contents at its place. -/
theorem grows_put_file (h : t.entry? place ≠ some .directory) (hnames : ∀ name ∈ place, IsName name)
    (content : List UInt8) : t.Grows (t.put place (.file content)) := by
  cases hentry : t.entry? place with
  | none => exact grows_put_new hentry hnames _
  | some old =>
      cases old with
      | directory => exact absurd hentry h
      | file before =>
          have hget : Table.get? t.entries place = some (.file before) := by
            cases place with
            | nil => cases hentry
            | cons name rest => exact hentry
          refine ⟨rfl, [], ?_, List.forall_mem_nil _⟩
          rw [List.append_nil]
          exact Table.map_set_of_get? hget rfl

theorem grows_ensureDirectory (hnames : t.HasNames) (hrooted : t.IsRooted) (path : String) :
    t.Grows (t.ensureDirectory path).2 := by
  rcases ensureDirectory_cases t path with hsame | ⟨hlocate, hnone, hmade⟩
  · rw [hsame]
    exact .refl t
  · have hclean : path.toList.contains '\x00' = false := by
      rw [← Bool.not_eq_true]
      intro hnul
      rw [ensureDirectory_of_nul hnul] at hmade
      cases hmade
    rw [hmade]
    exact grows_put_new hnone (hnames.placeOf hrooted.working hclean) _

theorem grows_makeDirectories (hnames : t.HasNames) (hrooted : t.IsRooted) (path : List Char) :
    t.Grows (t.makeDirectories path).2 := by
  rw [makeDirectories_eq]
  split
  · rename_i hmissing
    have hfront := grows_makeDirectories hnames hrooted (splitPath path).1
    have hrooted' := hrooted.makeDirectories (splitPath path).1
    split
    · split
      · exact hfront
      · exact hfront.trans (grows_ensureDirectory (hfront.hasNames hnames) hrooted' _)
    · exact hfront
  · exact grows_ensureDirectory hnames hrooted _
termination_by path.length
decreasing_by
  rename_i hmissing
  exact length_splitPath_lt hmissing.2.1

theorem grows_makeParents (hnames : t.HasNames) (hrooted : t.IsRooted) (path : String) :
    t.Grows (TextFile.makeParents t path).2 := by
  simp only [TextFile.makeParents]
  split
  · exact .refl t
  · exact grows_makeDirectories hnames hrooted _

/-- Writing a file makes a tree grow, however far it comes. -/
theorem grows_write [Codecs] (hnames : t.HasNames) (hrooted : t.IsRooted)
    (encoding path text : String) :
    t.Grows (TextFile.write t encoding path text).2 := by
  have hparents := grows_makeParents hnames hrooted path
  have hrooted' := hrooted.makeParents path
  unfold TextFile.write
  cases hrun : TextFile.makeParents t path with
  | mk outcome t₁ =>
      rw [hrun] at hparents hrooted'
      cases outcome with
      | error fault => exact hparents
      | ok _ =>
          simp only
          split
          · exact hparents
          · cases hopen : t₁.openForWriting path with
            | error fault => exact hparents
            | ok opened =>
                obtain ⟨place, t₂⟩ := opened
                obtain ⟨hclean, -, -, hentry, rfl, rfl⟩ := openForWriting_eq_ok hopen
                have hplace := (hparents.hasNames hnames).placeOf hrooted'.working hclean
                have hopened := hparents.trans (grows_put_file hentry hplace [])
                simp only [TextFile.fill]
                cases TextFile.written encoding text with
                | error fault => exact hopened
                | ok bytes =>
                    refine hopened.trans (grows_put_file ?_ hplace bytes)
                    rw [entry?_put t₁ (ne_nil_of_entry?_ne_directory hentry), if_pos rfl]
                    simp

end FileTree

end MediaSplit
