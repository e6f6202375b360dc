import MediaSplit.Proofs.Options.Combination

/-!
Layers that are merged in two steps. Two layers can be merged before a third one is laid below them,
as it is done with the defaults, since no default is a mapping: a value of the lowest layer shows
only where no layer above it has one, and is never merged with one. Above a mapping it would make a
difference when they are merged.
-/

namespace MediaSplit

namespace Table

variable {κ α : Type} [BEq κ] [LawfulBEq κ] {key : κ} {value : α} {table : Table κ α}

theorem keys_set_of_mem (h : key ∈ keys table) : keys (set key value table) = keys table := by
  induction table with
  | nil => cases h
  | cons entry rest ih =>
      obtain ⟨k, old⟩ := entry
      simp only [set]
      split
      · rfl
      · rename_i hne
        have hkey : key ≠ k := fun heq => hne (by simp [heq])
        exact congrArg (k :: ·) (ih ((List.mem_cons.mp h).resolve_left hkey))

theorem keys_set_of_not_mem (h : key ∉ keys table) :
    keys (set key value table) = keys table ++ [key] := by
  rw [set_of_not_mem h]
  simp [keys]

end Table

namespace Options

open MediaSplit.Configuration (optionValue)

variable {options other base lower upper layer merged : Options} {key name : String}
  {value : Value} {entries : List (Value × Value)}

/-- Options with the same names in the same order, and with the same values, are the same. -/
theorem eq_of_keys_eq (hkeys : Table.keys options = Table.keys other)
    (hnodup : (Table.keys options).Nodup)
    (h : ∀ name, optionValue options name = optionValue other name) : options = other := by
  induction options generalizing other with
  | nil =>
      cases other with
      | nil => rfl
      | cons entry rest => cases hkeys
  | cons entry rest ih =>
      obtain ⟨key, value⟩ := entry
      cases other with
      | nil => cases hkeys
      | cons entry' rest' =>
          obtain ⟨key', value'⟩ := entry'
          obtain ⟨rfl, hrest⟩ : key = key' ∧ Table.keys rest = Table.keys rest' :=
            List.cons.inj hkeys
          obtain ⟨hnew, hnodup⟩ := List.nodup_cons.mp hnodup
          have hvalue : value = value' := by
            have hfirst := h key
            rwa [optionValue_cons, optionValue_cons, if_pos rfl, if_pos rfl] at hfirst
          have hothers : rest = rest' := by
            refine ih hrest hnodup fun name => ?_
            by_cases hname : name = key
            · have hnew' : name ∉ Table.keys rest' := by
                rw [hname, ← hrest]
                exact hnew
              rw [optionValue_of_not_mem (hname ▸ hnew), optionValue_of_not_mem hnew']
            · have hname' := h name
              rwa [optionValue_cons, optionValue_cons, if_neg hname, if_neg hname] at hname'
          rw [hvalue, hothers]

/-- A layer adds its new names behind those that are there. -/
theorem keys_lay (hlayer : (Table.keys layer).Nodup) :
    Table.keys (lay base layer) =
      Table.keys base ++ (Table.keys layer).filter fun name => name ∉ Table.keys base := by
  induction layer generalizing base with
  | nil => simp [lay, Table.keys]
  | cons entry rest ih =>
      obtain ⟨key, value⟩ := entry
      obtain ⟨hkey, hrest⟩ := List.nodup_cons.mp hlayer
      have hcons : Table.keys ((key, value) :: rest) = key :: Table.keys rest := rfl
      rw [lay, ih hrest, hcons]
      by_cases hthere : key ∈ Table.keys base
      · rw [Table.keys_set_of_mem hthere, List.filter_cons_of_neg (by simpa using hthere)]
      · -- the rest of the layer has no entry under the name that is new
        have hsame : (Table.keys rest).filter (fun name => name ∉ Table.keys base ++ [key]) =
            (Table.keys rest).filter fun name => name ∉ Table.keys base := by
          refine List.filter_congr fun name hname => ?_
          have hne : name ≠ key := fun heq => hkey (heq ▸ hname)
          simp [hne]
        rw [Table.keys_set_of_not_mem hthere, hsame,
          List.filter_cons_of_pos (by simpa using hthere), List.append_assoc,
          List.singleton_append]

theorem mem_keys_lay (hlayer : (Table.keys layer).Nodup) :
    name ∈ Table.keys (lay base layer) ↔ name ∈ Table.keys base ∨ name ∈ Table.keys layer := by
  rw [keys_lay hlayer]
  by_cases hbelow : name ∈ Table.keys base <;> simp [hbelow]

theorem nodup_keys_lay (hbase : (Table.keys base).Nodup) : (Table.keys (lay base layer)).Nodup := by
  induction layer generalizing base with
  | nil => exact hbase
  | cons entry rest ih => exact ih (Table.nodup_keys_set hbase)

/-- A value entered in the upper of two layers is entered where they are laid together, unless it is
null. -/
theorem lay_set (hbase : (Table.keys base).Nodup) (hlower : (Table.keys lower).Nodup) :
    lay base (Table.set key value lower) =
      Table.set key (value.over (optionValue base key)) (lay base lower) := by
  have hset : (Table.keys (Table.set key value lower)).Nodup := Table.nodup_keys_set hlower
  have hkeys : Table.keys (lay base (Table.set key value lower)) =
      Table.keys (Table.set key (value.over (optionValue base key)) (lay base lower)) := by
    have hmem := @mem_keys_lay base lower key hlower
    rw [keys_lay hset]
    by_cases hthere : key ∈ Table.keys lower
    · rw [Table.keys_set_of_mem hthere, Table.keys_set_of_mem (hmem.mpr (.inr hthere)),
        keys_lay hlower]
    · rw [Table.keys_set_of_not_mem hthere, List.filter_append, ← List.append_assoc,
        ← keys_lay hlower]
      by_cases hbelow : key ∈ Table.keys base
      · rw [Table.keys_set_of_mem (hmem.mpr (.inl hbelow))]
        simp [hbelow]
      · rw [Table.keys_set_of_not_mem (hmem.not.mpr (by simp [hbelow, hthere]))]
        simp [hbelow]
  refine eq_of_keys_eq hkeys (nodup_keys_lay hbase) fun name => ?_
  rw [optionValue_lay hset, optionValue_set, optionValue_set, optionValue_lay hlower]
  split
  · rename_i heq
    rw [heq]
  · rfl

theorem lay_nil (h : (Table.keys layer).Nodup) : lay [] layer = layer := by
  have hkeys : Table.keys (lay [] layer) = Table.keys layer := by
    rw [keys_lay h]
    simp [Table.keys]
  refine eq_of_keys_eq hkeys (hkeys ▸ h) fun name => ?_
  have hnull : optionValue [] name = .null := rfl
  rw [optionValue_lay h, hnull, Value.over_null]

section Steps

/-! What laying one more value over options comes to. -/

variable {rest : Options}

theorem overlay_cons_null :
    overlay base ((key, .null) :: rest) =
      overlay (Table.set key (optionValue base key) base) rest := by
  rw [overlay]
  rfl

/-- A value that does not meet a mapping as one itself takes the place of what was there. -/
theorem overlay_cons_replaced (hgiven : value.isNull = false)
    (h : ∀ below above, optionValue base key = .map below → value ≠ .map above) :
    overlay base ((key, value) :: rest) = overlay (Table.set key value base) rest := by
  cases value with
  | null => cases hgiven
  | map above =>
      rw [overlay]
      split
      · rename_i below hbelow
        refine absurd rfl (h below above ?_)
        rw [optionValue, hbelow]
        rfl
      · rfl
  | _ =>
      rw [overlay]
      · rintro ⟨⟩
      · rintro _ ⟨⟩

/-- Two mappings are merged, and the rest of the layer follows. -/
theorem overlay_cons_map {below above : List (Value × Value)}
    (h : optionValue base key = .map below) :
    overlay base ((key, .map above) :: rest) = (do
      let inner ← ofEntries below
      let layer ← ofEntries above
      let merged ← overlay inner layer
      overlay (Table.set key (.map merged.toEntries) base) rest) := by
  rw [overlay, get?_eq_map_iff.mpr h]
  simp only [bind, Except.bind]
  cases ofEntries below with
  | error fault => rfl
  | ok inner =>
      simp only
      split
      · rename_i fault hfault
        rw [hfault]
      · rename_i layer hlayer
        rw [hlayer]
        simp only
        cases overlay inner layer <;> rfl

end Steps

/-- That no option is a mapping. -/
def IsFlat (options : Options) : Prop :=
  ∀ name entries, optionValue options name ≠ .map entries

theorem IsFlat.areApart (h : IsFlat base) (layer : Options) : AreApart base layer :=
  fun name below _ hbelow => absurd hbelow (h name below)

/-- Over options without mappings it makes no difference when two layers are merged. -/
theorem overlay_lay (hflat : IsFlat base) (hbase : (Table.keys base).Nodup)
    (hlower : (Table.keys lower).Nodup) :
    overlay (lay base lower) upper = (overlay lower upper).map (lay base) := by
  induction upper generalizing lower with
  | nil =>
      rw [overlay, overlay]
      rfl
  | cons entry rest ih =>
      obtain ⟨key, value⟩ := entry
      have hvalue := @optionValue_lay base lower key hlower
      -- the rest of the upper layer finds what was entered under the name
      have hnext : ∀ entered : Value,
          overlay (Table.set key (entered.over (optionValue base key)) (lay base lower)) rest =
            (overlay (Table.set key entered lower) rest).map (lay base) := by
        intro entered
        rw [← lay_set hbase hlower]
        exact ih (Table.nodup_keys_set hlower)
      cases hnull : value.isNull with
      | true =>
          rw [Value.eq_null_of_isNull hnull, overlay_cons_null, overlay_cons_null, hvalue]
          exact hnext _
      | false =>
          by_cases hmaps : ∃ below above, optionValue lower key = .map below ∧ value = .map above
          · obtain ⟨below, above, hbelow, rfl⟩ := hmaps
            have hbelow' : optionValue (lay base lower) key = .map below := by
              rw [hvalue, hbelow]
              rfl
            rw [overlay_cons_map hbelow, overlay_cons_map hbelow']
            simp only [bind, Except.bind]
            cases ofEntries below with
            | error fault => rfl
            | ok inner =>
                cases ofEntries above with
                | error fault => rfl
                | ok layer =>
                    simp only
                    cases overlay inner layer with
                    | error fault => rfl
                    | ok merged => exact hnext (.map merged.toEntries)
          · have hlow : ∀ below above, optionValue lower key = .map below → value ≠ .map above :=
              fun below above hbelow habove => hmaps ⟨below, above, hbelow, habove⟩
            have hlow' : ∀ below above, optionValue (lay base lower) key = .map below →
                value ≠ .map above := by
              intro below above hbelow
              rw [hvalue, Value.over] at hbelow
              split at hbelow
              · exact absurd hbelow (hflat key below)
              · exact hlow below above hbelow
            rw [overlay_cons_replaced hnull hlow, overlay_cons_replaced hnull hlow']
            have hentered := hnext value
            rwa [Value.over_of_not_isNull hnull] at hentered

theorem merge_singleton {v : Value} (hv : v.IsLayer) :
    merge base [v] = (do
      let layer ← ofEntries v.entries
      overlay base layer) := by
  rw [merge_cons hv]
  cases ofEntries v.entries with
  | error fault => rfl
  | ok layer => cases hnext : overlay base layer <;> simp [hnext, merge, bind, Except.bind]

/-- Two layers over options without mappings come to the same as what the two are merged to. -/
theorem merge_pair {first second : Value} (hfirst : first.IsLayer) (hsecond : second.IsLayer)
    (hflat : IsFlat base) (hbase : base.AreEntered) (h : merge [] [first, second] = .ok merged) :
    merge base [first, second] = merge base [.map merged.toEntries] := by
  obtain ⟨hentered, -, -⟩ := combinesAll_of_merge (by simp [hfirst, hsecond]) areEntered_nil h
  have hmerged : merge base [.map merged.toEntries] = .ok (lay base merged) :=
    merge_map_cons (ofEntries_toEntries hentered) (hflat.areApart merged)
  rw [merge_cons hfirst] at h ⊢
  rw [hmerged]
  cases hlower : ofEntries first.entries with
  | error fault => simp [hlower, bind, Except.bind] at h
  | ok lower =>
      have hnodup := (areEntered_of_ofEntries hlower).nodup
      simp only [hlower, bind, Except.bind, overlay_eq_lay hnodup areApart_nil, lay_nil hnodup,
        overlay_eq_lay hnodup (hflat.areApart lower), merge_singleton hsecond] at h ⊢
      cases hupper : ofEntries second.entries with
      | error fault => simp [hupper] at h
      | ok upper =>
          simp only [hupper] at h ⊢
          rw [overlay_lay hflat hbase.nodup hnodup, h]
          rfl

theorem isFlat_of_ofEntries (h : ofEntries entries = .ok options)
    (hflat : ∀ entry ∈ entries, ∀ inner, entry.2 ≠ .map inner) : IsFlat options := by
  intro name inner
  rw [optionValue_ofEntries h]
  rcases lastValue_cases name entries with ⟨-, hnull⟩ | ⟨entry, hentry, -, hvalue⟩
  · rw [hnull]
    exact nofun
  · rw [← hvalue]
    exact hflat entry hentry inner

/-- Merging two layers first and laying the result over a mapping that has none in it is the same as
merging all three. -/
theorem merge_map_pair {first second : Value} {lowest : List (Value × Value)}
    (hfirst : first.IsLayer) (hsecond : second.IsLayer)
    (hflat : ∀ entry ∈ lowest, ∀ entries, entry.2 ≠ .map entries)
    (h : merge [] [first, second] = .ok merged) :
    merge [] [.map lowest, first, second] = merge [] [.map lowest, .map merged.toEntries] := by
  cases hlowest : ofEntries lowest with
  | error fault => rw [merge_map_error hlowest, merge_map_error hlowest]
  | ok entered =>
      have hentered := areEntered_of_ofEntries hlowest
      rw [merge_map_cons hlowest areApart_nil, merge_map_cons hlowest areApart_nil,
        lay_nil hentered.nodup]
      exact merge_pair hfirst hsecond (isFlat_of_ofEntries hlowest hflat) hentered h

/-- Layers with the defaults below them come to the same when they are merged without the defaults
first. So they do with any mapping below them that has no mapping in it; where the keys are texts,
merging succeeds. -/
theorem merge_in_two_steps {lower upper : Value} (hlower : lower.IsLayer) (hupper : upper.IsLayer)
    (hlowerKeys : lower.HasTextKeys) (hupperKeys : upper.HasTextKeys) :
    ∃ above, mergeOptions [lower, upper] = .ok above ∧
      (∃ merged, mergeOptions [Configuration.defaults, lower, upper] = .ok merged ∧
        mergeOptions [Configuration.defaults, .map above.toEntries] = .ok merged ∧
        Configuration.withDefaults (.map above.toEntries) = .ok merged) ∧
      ∀ lowest : List (Value × Value), (∀ entry ∈ lowest, ∀ entries, entry.2 ≠ .map entries) →
        mergeOptions [.map lowest, lower, upper] =
            mergeOptions [.map lowest, .map above.toEntries] ∧
          ((∀ entry ∈ lowest, ∃ key, entry.1 = .text key) →
            ∃ merged, mergeOptions [.map lowest, lower, upper] = .ok merged) := by
  have hmerges : ∀ layers : List Value, (∀ v ∈ layers, v.HasTextKeys) →
      (∀ v ∈ layers, v.IsLayer) → ∃ merged, mergeOptions layers = .ok merged := by
    intro layers hkeys hlayers
    obtain ⟨merged, hmerged, -⟩ :=
      exists_merge Value.isTextKeyed_hasTextKeys hkeys hlayers allHave_nil
    exact ⟨merged, hmerged⟩
  have hthree : ∀ lowest : List (Value × Value),
      (∀ entry ∈ lowest, ∀ entries, entry.2 ≠ .map entries) →
      (∀ entry ∈ lowest, ∃ key, entry.1 = .text key) →
      ∃ merged, mergeOptions [.map lowest, lower, upper] = .ok merged := by
    intro lowest hflat htexts
    have hlowest : (Value.map lowest).HasTextKeys :=
      .map htexts fun entry hentry => .other (hflat entry hentry)
    have hlayer : (Value.map lowest).IsLayer := .inr ⟨lowest, rfl⟩
    exact hmerges _ (by simp [hlowest, hlowerKeys, hupperKeys]) (by simp [hlayer, hlower, hupper])
  obtain ⟨above, habove⟩ := hmerges [lower, upper] (by simp [hlowerKeys, hupperKeys])
    (by simp [hlower, hupper])
  refine ⟨above, habove, ?_, fun lowest hflat => ?_⟩
  · have hflat : ∀ entry ∈ Configuration.defaultOptions.toEntries, ∀ entries,
        entry.2 ≠ .map entries := by
      simp [Configuration.defaultOptions, toEntries]
    obtain ⟨merged, hmerged⟩ := hthree Configuration.defaultOptions.toEntries hflat
      (by simp [Configuration.defaultOptions, toEntries])
    have htwo : mergeOptions [Configuration.defaults, .map above.toEntries] = .ok merged :=
      (merge_map_pair hlower hupper hflat habove).symm.trans hmerged
    refine ⟨merged, hmerged, htwo, ?_⟩
    rw [Configuration.withDefaults, htwo]
  · exact ⟨merge_map_pair hlower hupper hflat habove, hthree lowest hflat⟩

/-- A null under another spelling, and a mapping in both layers that takes the place of a text. -/
theorem merge_in_two_steps_nested :
    let lower : Value := .map [(.text "dest", .text "a.css"), (.text "encoding", .null),
      (.text "widths", .map [(.text "sm", .text "4"), (.text "Lg", .text "8")])]
    let upper : Value := .map [(.text "Dest", .null),
      (.text "widths", .map [(.text "lg", .text "9")])]
    let lowest : List (Value × Value) := [(.text "Widths", .text "2")]
    lower.IsLayer ∧ upper.IsLayer ∧ lower.HasTextKeys ∧ upper.HasTextKeys ∧
      ∃ above, mergeOptions [lower, upper] = .ok above ∧
        (∃ merged, mergeOptions [Configuration.defaults, lower, upper] = .ok merged ∧
          Configuration.withDefaults (.map above.toEntries) = .ok merged) ∧
        ∃ merged, mergeOptions [.map lowest, lower, upper] = .ok merged ∧
          mergeOptions [.map lowest, .map above.toEntries] = .ok merged := by
  intro lower upper lowest
  have hwidths : (Value.map [(.text "sm", .text "4"), (.text "Lg", .text "8")]).HasTextKeys :=
    .map (by simp) (by simp [Value.hasTextKeys_text])
  have hlowerKeys : lower.HasTextKeys :=
    .map (by simp) (by simp [Value.hasTextKeys_text, Value.hasTextKeys_null, hwidths])
  have hwidth : (Value.map [(.text "lg", .text "9")]).HasTextKeys :=
    .map (by simp) (by simp [Value.hasTextKeys_text])
  have hupperKeys : upper.HasTextKeys :=
    .map (by simp) (by simp [Value.hasTextKeys_null, hwidth])
  have hlower : lower.IsLayer := .inr ⟨_, rfl⟩
  have hupper : upper.IsLayer := .inr ⟨_, rfl⟩
  obtain ⟨above, habove, ⟨merged, hmerged, -, hdefaults⟩, hlowest⟩ :=
    merge_in_two_steps hlower hupper hlowerKeys hupperKeys
  obtain ⟨htwo, hthree⟩ := hlowest lowest (by simp [lowest])
  obtain ⟨merged', hmerged'⟩ := hthree (by simp [lowest])
  exact ⟨hlower, hupper, hlowerKeys, hupperKeys, above, habove, ⟨merged, hmerged, hdefaults⟩,
    merged', hmerged', htwo.symm.trans hmerged'⟩

end Options

end MediaSplit
