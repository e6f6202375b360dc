import MediaSplit.Options
import MediaSplit.Proofs.Json

/-!
Layers of options whose keys are texts, in mappings at every depth, too. Merging them never fails,
since every key that is looked at is a text, and what comes out has such keys again. The same goes
for any narrower kind of value that is decided for a mapping by its keys and by the values in it, as
it is for the values that JSON can write down.
-/

namespace MediaSplit

/-- That a value can be a layer: a mapping, or null where there is none. -/
def Value.IsLayer (v : Value) : Prop :=
  v = .null ∨ ∃ entries, v = .map entries

inductive Value.HasTextKeys : Value → Prop where
  | map {entries : List (Value × Value)} (keys : ∀ entry ∈ entries, ∃ key, entry.1 = .text key)
      (values : ∀ entry ∈ entries, HasTextKeys entry.2) : HasTextKeys (.map entries)
  | other {v : Value} (h : ∀ entries, v ≠ .map entries) : HasTextKeys v

theorem Value.hasTextKeys_text (s : String) : (Value.text s).HasTextKeys :=
  .other fun _ => nofun

theorem Value.hasTextKeys_null : Value.null.HasTextKeys :=
  .other fun _ => nofun

/-- A property that null has, and that a mapping has if its keys are texts and its values have it,
and only then. -/
structure Value.IsTextKeyed (P : Value → Prop) : Prop where
  null : P .null
  map_iff : ∀ entries, P (.map entries) ↔
    (∀ entry ∈ entries, ∃ key, entry.1 = .text key) ∧ ∀ entry ∈ entries, P entry.2

theorem Value.isTextKeyed_isJson : IsTextKeyed IsJson where
  null := .null
  map_iff entries := by
    constructor
    · rintro (_ | _ | _ | _ | _ | _ | ⟨keys, values⟩)
      exact ⟨keys, values⟩
    · rintro ⟨keys, values⟩
      exact .map keys values

theorem Value.isTextKeyed_hasTextKeys : IsTextKeyed HasTextKeys where
  null := hasTextKeys_null
  map_iff entries := by
    constructor
    · rintro (⟨keys, values⟩ | hother)
      · exact ⟨keys, values⟩
      · exact absurd rfl (hother entries)
    · rintro ⟨keys, values⟩
      exact .map keys values

namespace Options

def AllHave (P : Value → Prop) (options : Options) : Prop :=
  ∀ entry ∈ options, P entry.2

variable {P : Value → Prop} {options base layer : Options} {key : String} {value : Value}
  {entries : List (Value × Value)}

theorem allHave_nil : AllHave P [] :=
  fun _ hentry => absurd hentry List.not_mem_nil

theorem allHave_cons : AllHave P ((key, value) :: options) ↔ P value ∧ AllHave P options := by
  simp only [AllHave, List.forall_mem_cons]

theorem AllHave.set (h : AllHave P options) (hvalue : P value) :
    AllHave P (Table.set key value options) := by
  intro entry hentry
  rcases Table.mem_set hentry with hold | ⟨hnew, -⟩
  · exact h entry hold
  · rwa [hnew]

theorem AllHave.get? (h : AllHave P options) (hget : Table.get? options key = some value) :
    P value := by
  obtain ⟨before, after, hoptions, -⟩ := List.lookup_eq_some_iff.mp hget
  apply h (key, value)
  simp [hoptions]

/-- The value of an option, if it is missing, too. -/
theorem AllHave.getD (hP : Value.IsTextKeyed P) (h : AllHave P options) (key : String) :
    P ((Table.get? options key).getD .null) := by
  cases hget : Table.get? options key with
  | none => exact hP.null
  | some value => exact h.get? hget

theorem AllHave.toEntries (hP : Value.IsTextKeyed P) (h : AllHave P options) :
    P (.map options.toEntries) := by
  rw [hP.map_iff]
  constructor
  · intro entry hentry
    obtain ⟨⟨key, value⟩, -, rfl⟩ := List.mem_map.mp hentry
    exact ⟨key, rfl⟩
  · intro entry hentry
    obtain ⟨⟨key, value⟩, hmem, rfl⟩ := List.mem_map.mp hentry
    exact h (key, value) hmem

section Layers

variable (hP : Value.IsTextKeyed P)

include hP

theorem exists_enterAll (h : P (.map entries)) {made : Options} (hmade : AllHave P made) :
    ∃ options, enterAll made entries = .ok options ∧ AllHave P options := by
  induction entries generalizing made with
  | nil => exact ⟨made, rfl, hmade⟩
  | cons entry rest ih =>
      obtain ⟨key, value⟩ := entry
      obtain ⟨keys, values⟩ := (hP.map_iff _).mp h
      obtain ⟨⟨name, hname⟩, hkeys⟩ := List.forall_mem_cons.mp keys
      obtain ⟨hvalue, hvalues⟩ := List.forall_mem_cons.mp values
      obtain rfl : key = .text name := hname
      exact ih ((hP.map_iff _).mpr ⟨hkeys, hvalues⟩) (hmade.set hvalue)

theorem exists_ofEntries (h : P (.map entries)) :
    ∃ options, ofEntries entries = .ok options ∧ AllHave P options :=
  exists_enterAll hP h allHave_nil

theorem allHave_of_ofEntries (h : P (.map entries)) (hentered : ofEntries entries = .ok options) :
    AllHave P options := by
  obtain ⟨entered, heq, hall⟩ := exists_ofEntries hP h
  rw [hentered] at heq
  rwa [Except.ok.inj heq]

theorem ofEntries_ne_error (h : P (.map entries)) (fault : OptionsFault) :
    ofEntries entries ≠ .error fault := by
  obtain ⟨entered, heq, -⟩ := exists_ofEntries hP h
  rw [heq]
  exact nofun

/-- Laying one layer over another goes through; the induction is that of the layers, with those in
mappings that are there in both. -/
theorem exists_overlay (hbase : AllHave P base) (hlayer : AllHave P layer) :
    ∃ merged, overlay base layer = .ok merged ∧ AllHave P merged := by
  fun_induction overlay base layer with
  | case1 base => exact ⟨base, rfl, hbase⟩
  | case2 base key rest ih =>
      obtain ⟨-, hrest⟩ := allHave_cons.mp hlayer
      exact ih (hbase.set (hbase.getD hP key)) hrest
  | case3 base key entries rest current hcurrent fault hfault =>
      exact absurd hfault (ofEntries_ne_error hP (hbase.get? hcurrent) fault)
  | case4 base key entries rest current hcurrent inner hinner fault hfault =>
      obtain ⟨hentries, -⟩ := allHave_cons.mp hlayer
      exact absurd hfault (ofEntries_ne_error hP hentries fault)
  | case5 base key entries rest current hcurrent inner hinner layer hentered fault hfault ih =>
      obtain ⟨hentries, -⟩ := allHave_cons.mp hlayer
      obtain ⟨merged, hmerged, -⟩ := ih (allHave_of_ofEntries hP (hbase.get? hcurrent) hinner)
        (allHave_of_ofEntries hP hentries hentered)
      cases hfault.symm.trans hmerged
  | case6 base key entries rest current hcurrent inner hinner layer hentered merged hmerged ihInner
      ihRest =>
      obtain ⟨hentries, hrest⟩ := allHave_cons.mp hlayer
      obtain ⟨merged', hmerged', hall⟩ :=
        ihInner (allHave_of_ofEntries hP (hbase.get? hcurrent) hinner)
          (allHave_of_ofEntries hP hentries hentered)
      obtain rfl := Except.ok.inj (hmerged'.symm.trans hmerged)
      exact ihRest (hbase.set (hall.toEntries hP)) hrest
  | case7 base key entries rest hnone ih =>
      obtain ⟨hentries, hrest⟩ := allHave_cons.mp hlayer
      exact ih (hbase.set hentries) hrest
  | case8 base key value rest hnull hmap ih =>
      obtain ⟨hvalue, hrest⟩ := allHave_cons.mp hlayer
      exact ih (hbase.set hvalue) hrest

/-- Layers can be merged, however many there are. -/
theorem exists_merge {layers : List Value} (h : ∀ layer ∈ layers, P layer)
    (hlayers : ∀ layer ∈ layers, layer.IsLayer) (hbase : AllHave P base) :
    ∃ merged, merge base layers = .ok merged ∧ AllHave P merged := by
  induction layers generalizing base with
  | nil => exact ⟨base, rfl, hbase⟩
  | cons layer rest ih =>
      obtain ⟨hlayer, hrest⟩ := List.forall_mem_cons.mp h
      obtain ⟨hfirst, hothers⟩ := List.forall_mem_cons.mp hlayers
      rcases hfirst with rfl | ⟨entries, rfl⟩
      · exact ih hrest hothers hbase
      · rw [merge]
        split
        · exact ih hrest hothers hbase
        · obtain ⟨entered, hentered, hall⟩ := exists_ofEntries hP hlayer
          obtain ⟨merged, hmerged, hall⟩ := exists_overlay hP hbase hall
          simp only [hentered, hmerged, bind, Except.bind]
          exact ih hrest hothers hall

end Layers

end Options

end MediaSplit
