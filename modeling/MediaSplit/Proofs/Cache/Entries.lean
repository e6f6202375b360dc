import MediaSplit.Cache

/-!
What storing does to the entries of a cache. A path that is new comes last; no other path is
touched.
-/

namespace MediaSplit

namespace Table

variable {κ α : Type} [BEq κ] [LawfulBEq κ]

/-- A key that was not there is entered behind all others. -/
theorem set_of_get?_eq_none {key : κ} (value : α) {table : Table κ α}
    (h : get? table key = none) : set key value table = table ++ [(key, value)] := by
  induction table with
  | nil => rfl
  | cons entry rest ih =>
      obtain ⟨k, old⟩ := entry
      unfold get? at h ih
      rw [List.lookup_cons] at h
      split at h
      · cases h
      · rename_i hne
        have hk : ¬(k == key) = true := fun heq => beq_eq_false_iff_ne.mp hne (eq_of_beq heq).symm
        rw [set, if_neg hk, ih h]
        rfl

theorem get?_isSome_iff {key : κ} {table : Table κ α} :
    (get? table key).isSome = true ↔ key ∈ table.keys := by
  induction table with
  | nil => simp [get?, keys]
  | cons entry rest ih =>
      obtain ⟨k, value⟩ := entry
      unfold get? keys at *
      by_cases h : key = k
      · simp [h]
      · simp [List.lookup_cons, beq_eq_false_iff_ne.mpr h, h, ih]

end Table

namespace Cache

theorem get?_store (path : String) (parsed : Parsed) (c : Cache) (other : String) :
    (c.store path parsed).get? other = if other = path then some parsed else c.get? other := by
  unfold get? store
  split
  · rename_i heq
    rw [heq, Table.get?_set_self]
  · rename_i hne
    rw [Table.get?_set_of_ne hne]

theorem get?_store_self (path : String) (parsed : Parsed) (c : Cache) :
    (c.store path parsed).get? path = some parsed := by
  rw [get?_store, if_pos rfl]

/-- What is kept under another path stays as it is. -/
theorem get?_store_of_ne {path other : String} (hne : other ≠ path) (parsed : Parsed)
    (c : Cache) : (c.store path parsed).get? other = c.get? other := by
  rw [get?_store, if_neg hne]

theorem entries_store {path : String} {c : Cache} (h : c.get? path = none) (parsed : Parsed) :
    (c.store path parsed).entries = c.entries ++ [(path, parsed)] :=
  Table.set_of_get?_eq_none parsed h

theorem size_store {path : String} {c : Cache} (h : c.get? path = none) (parsed : Parsed) :
    (c.store path parsed).size = c.size + 1 := by
  rw [size, entries_store h, List.length_append]
  rfl

section Load

variable {t : FileTree} {encoding path text : String}

theorem load_eq_of_read [Codecs] (hread : TextFile.read t encoding path = .ok text) :
    load t encoding path = (Stylesheet.parse path text).mapError Fault.parse := by
  rw [load, hread]
  rfl

theorem load_of_unread [Codecs] {fault : Fault}
    (hread : TextFile.read t encoding path = .error fault) :
    load t encoding path = .error fault := by
  rw [load, hread]
  rfl

end Load

section Get

variable {t : FileTree} {c : Cache} {path : String}

theorem get_of_some [Codecs] {parsed : Parsed} (h : c.get? path = some parsed) :
    c.get t path = (.ok parsed, c) := by
  simp only [get, h]

theorem get_of_fault [Codecs] {fault : Fault} (h : c.get? path = none)
    (hload : load t c.encoding path = .error fault) : c.get t path = (.error fault, c) := by
  simp only [get, h, hload]

theorem get_of_load [Codecs] {sheet : Stylesheet} (h : c.get? path = none)
    (hload : load t c.encoding path = .ok sheet) :
    c.get t path = (.ok ⟨c.parses, sheet⟩, c.store path ⟨c.parses, sheet⟩) := by
  simp only [get, h, hload]

/-- The three ways to get a style sheet: from the cache, not at all, and from its file. -/
theorem get_cases [Codecs] (t : FileTree) (c : Cache) (path : String) :
    (∃ parsed, c.get? path = some parsed ∧ c.get t path = (.ok parsed, c)) ∨
    (∃ fault, c.get? path = none ∧ load t c.encoding path = .error fault ∧
      c.get t path = (.error fault, c)) ∨
    ∃ sheet, c.get? path = none ∧ load t c.encoding path = .ok sheet ∧
      c.get t path = (.ok ⟨c.parses, sheet⟩, c.store path ⟨c.parses, sheet⟩) := by
  cases hget : c.get? path with
  | some parsed => exact Or.inl ⟨parsed, rfl, get_of_some hget⟩
  | none =>
      right
      cases hload : load t c.encoding path with
      | error fault => exact Or.inl ⟨fault, rfl, rfl, get_of_fault hget hload⟩
      | ok sheet => exact Or.inr ⟨sheet, rfl, rfl, get_of_load hget hload⟩

end Get

end Cache

end MediaSplit
