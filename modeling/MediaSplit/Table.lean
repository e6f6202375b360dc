/-!
Tables: keys and their values in the order in which the keys were first entered. A value that is
entered again under its key takes the place of the old one.
-/

namespace MediaSplit

/-- Keys with their values. Tables made by `Table.set` hold no key twice. -/
abbrev Table (κ α : Type) := List (κ × α)

namespace Table

variable {κ α : Type} [BEq κ]

def get? (table : Table κ α) (key : κ) : Option α :=
  table.lookup key

def set (key : κ) (value : α) : Table κ α → Table κ α
  | [] => [(key, value)]
  | (k, old) :: rest => if k == key then (k, value) :: rest else (k, old) :: set key value rest

def ofList (entries : List (κ × α)) : Table κ α :=
  entries.foldl (fun table entry => set entry.1 entry.2 table) []

def keys (table : Table κ α) : List κ :=
  table.map Prod.fst

theorem get?_set_self [LawfulBEq κ] (key : κ) (value : α) (table : Table κ α) :
    get? (set key value table) key = some value := by
  induction table with
  | nil => simp [set, get?]
  | cons entry rest ih =>
      obtain ⟨k, old⟩ := entry
      simp only [get?] at ih
      simp only [set]
      split
      · rename_i heq
        simp [get?, eq_of_beq heq]
      · rename_i hne
        have hne' : (key == k) = false := beq_eq_false_iff_ne.mpr fun h => hne (by simp [h])
        simp [get?, List.lookup_cons, hne', ih]

theorem get?_set_of_ne [LawfulBEq κ] {key other : κ} (h : other ≠ key) (value : α)
    (table : Table κ α) : get? (set key value table) other = get? table other := by
  induction table with
  | nil => simp [set, get?, List.lookup_cons, beq_eq_false_iff_ne.mpr h]
  | cons entry rest ih =>
      obtain ⟨k, old⟩ := entry
      simp only [get?] at ih
      simp only [set]
      split
      · rename_i heq
        have hk : (other == k) = false :=
          beq_eq_false_iff_ne.mpr fun hk => h (hk.trans (eq_of_beq heq))
        simp [get?, List.lookup_cons, hk]
      · simp [get?, List.lookup_cons, ih]

end Table

end MediaSplit
