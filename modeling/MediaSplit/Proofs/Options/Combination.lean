import MediaSplit.Proofs.Merging
import MediaSplit.Proofs.Options.Layers

/-!
What each option comes to when layers are merged. A layer has its say about an option by the value
that it holds last under any spelling of the name, and by none if that is null. The values that the
layers have are combined from the lowest layer up: a later one takes the place of what is there, but
two mappings are merged option by option in the same way. A null never takes the place of a value of
a layer below; within a layer it does, where it comes last under another spelling of the name.
-/

namespace MediaSplit

/-- The entries of a layer. Null has none. -/
def Value.entries : Value → List (Value × Value)
  | .map entries => entries
  | _ => []

namespace Options

open MediaSplit.Configuration (optionValue)

def HasName (name : String) (entries : List (Value × Value)) : Prop :=
  ∃ entry ∈ entries, isSpelling name entry.1 = true

/-- What entries hold last under any spelling of a name that is not null, and null if there is no
such value. -/
def lastGiven (name : String) (entries : List (Value × Value)) : Value :=
  lastValue name (entries.filter fun entry => !entry.2.isNull)

/-- What a value of an option and one above it come to, if a mapping is read by `read` option by
option. -/
inductive Combines (read : String → List (Value × Value) → Value) :
    Value → Value → Value → Prop where
  | kept (below : Value) : Combines read below .null below
  | replaced {below above : Value} (hgiven : above.isNull = false)
      (hmaps : ∀ lower upper, below = .map lower → above ≠ .map upper) :
      Combines read below above above
  | merged {lower upper : List (Value × Value)} {options : Options} (hentered : options.AreEntered)
      (hnames : ∀ name, name ∈ Table.keys options ↔ HasName name lower ∨ HasName name upper)
      (hvalues : ∀ name,
        Combines read (read name lower) (read name upper) (optionValue options name)) :
      Combines read (.map lower) (.map upper) (.map options.toEntries)

inductive CombinesAll (read : String → List (Value × Value) → Value) :
    Value → List Value → Value → Prop where
  | nil (value : Value) : CombinesAll read value [] value
  | cons {below above next result : Value} {rest : List Value}
      (hfirst : Combines read below above next) (hrest : CombinesAll read next rest result) :
      CombinesAll read below (above :: rest) result

variable {options base layer merged rest : Options} {key name : String} {value entered : Value}
  {entries : List (Value × Value)} {read : String → List (Value × Value) → Value}

theorem get?_eq_map_iff :
    Table.get? base key = some (.map entries) ↔ optionValue base key = .map entries := by
  unfold optionValue
  cases Table.get? base key with
  | none => exact ⟨nofun, nofun⟩
  | some value => exact Option.some_inj

theorem optionValue_of_mem (hnodup : (Table.keys options).Nodup) (h : (key, value) ∈ options) :
    optionValue options key = value := by
  induction options with
  | nil => cases h
  | cons entry rest ih =>
      obtain ⟨first, old⟩ := entry
      obtain ⟨hnew, hrest⟩ := List.nodup_cons.mp hnodup
      rw [optionValue_cons]
      rcases List.mem_cons.mp h with heq | hmem
      · obtain ⟨rfl, rfl⟩ := Prod.mk.inj heq
        rw [if_pos rfl]
      · have hkey : key ∈ Table.keys rest := List.mem_map_of_mem hmem
        have hne : key ≠ first := fun heq => hnew (heq ▸ hkey)
        rw [if_neg hne, ih hrest hmem]

theorem hasName_cons {entry : Value × Value} :
    HasName name (entry :: entries) ↔ isSpelling name entry.1 = true ∨ HasName name entries := by
  simp only [HasName, List.mem_cons, exists_eq_or_imp]

theorem mem_keys_enterAll {made : Options} (h : enterAll made entries = .ok options) :
    name ∈ Table.keys options ↔ name ∈ Table.keys made ∨ HasName name entries := by
  induction entries generalizing made with
  | nil =>
      obtain rfl := Except.ok.inj h
      simp [HasName]
  | cons entry rest ih =>
      obtain ⟨key, hkey, hrest⟩ := enterAll_cons_eq_ok.mp h
      have hspelling : isSpelling name entry.1 = true ↔ name = canonicalKey key := by
        rw [hkey]
        exact beq_iff_eq.trans eq_comm
      rw [ih hrest, Table.mem_keys_set, hasName_cons, hspelling, or_assoc, or_left_comm]

theorem mem_keys_ofEntries (h : ofEntries entries = .ok options) :
    name ∈ Table.keys options ↔ HasName name entries := by
  rw [mem_keys_enterAll h]
  simp [Table.keys]

/-- Options that are written down hold of each option what they are. -/
theorem lastValue_toEntries (h : options.AreEntered) :
    lastValue name options.toEntries = optionValue options name :=
  (optionValue_ofEntries (ofEntries_toEntries h)).symm

theorem AreEntered.tail (h : AreEntered ((key, value) :: rest)) : rest.AreEntered :=
  ⟨(List.nodup_cons.mp h.nodup).2, fun _ hname => h.canonical _ (List.mem_cons_of_mem _ hname)⟩

namespace Combines

/-- Only null above null comes to null. -/
theorem eq_null_iff {below above result : Value} (h : Combines read below above result) :
    result = .null ↔ below = .null ∧ above = .null := by
  cases h with
  | kept => simp
  | replaced hgiven =>
      constructor
      · rintro rfl
        cases hgiven
      · rintro ⟨-, rfl⟩
        rfl
  | merged => simp

theorem eq_of_null {below result : Value} (h : Combines read below .null result) :
    result = below := by
  cases h with
  | kept => rfl
  | replaced hgiven => cases hgiven

theorem eq_of_replaced {below above result : Value} (h : Combines read below above result)
    (hgiven : above.isNull = false)
    (hmaps : ∀ lower upper, below = .map lower → above ≠ .map upper) :
    result = above := by
  cases h with
  | kept => cases hgiven
  | replaced => rfl
  | merged => exact absurd rfl (hmaps _ _ rfl)

theorem exists_of_map {lower upper : List (Value × Value)} {result : Value}
    (h : Combines read (.map lower) (.map upper) result) :
    ∃ options : Options, result = .map options.toEntries ∧ ∀ name,
      Combines read (read name lower) (read name upper) (optionValue options name) := by
  cases h with
  | replaced _ hmaps => exact absurd rfl (hmaps _ _ rfl)
  | @merged _ _ options _ _ hvalues => exact ⟨options, rfl, hvalues⟩

end Combines

structure IsCombined (base layer merged : Options) : Prop where
  entered : merged.AreEntered
  names : ∀ name, name ∈ Table.keys merged ↔ name ∈ Table.keys base ∨ name ∈ Table.keys layer
  values : ∀ name,
    Combines lastValue (optionValue base name) (optionValue layer name) (optionValue merged name)

theorem IsCombined.cons (hlayer : AreEntered ((key, value) :: rest))
    (hentered : Combines lastValue (optionValue base key) value entered)
    (h : IsCombined (Table.set key entered base) rest merged) :
    IsCombined base ((key, value) :: rest) merged := by
  obtain ⟨hnew, -⟩ := List.nodup_cons.mp hlayer.nodup
  refine ⟨h.entered, fun name => ?_, fun name => ?_⟩
  · rw [h.names, Table.mem_keys_set, or_assoc, or_left_comm]
    simp [Table.keys]
  · have hvalue := h.values name
    rw [optionValue_set] at hvalue
    rw [optionValue_cons]
    split at hvalue
    · rename_i heq
      -- nothing else in the layer has a say about the option
      subst heq
      rw [optionValue_of_not_mem hnew] at hvalue
      rw [if_pos rfl, hvalue.eq_of_null]
      exact hentered
    · rename_i hne
      rwa [if_neg hne]

/-- Laying a layer over options combines the values of each option; the induction is that of the
layers, with those in mappings that are there in both. -/
theorem isCombined_of_overlay (hbase : base.AreEntered) (hlayer : layer.AreEntered)
    (h : overlay base layer = .ok merged) : IsCombined base layer merged := by
  fun_induction overlay base layer generalizing merged with
  | case1 base =>
      obtain rfl := Except.ok.inj h
      exact ⟨hbase, fun name => by simp [Table.keys], fun name => .kept _⟩
  | case2 base key rest ih =>
      have hkey := hlayer.canonical key List.mem_cons_self
      exact (ih (hbase.set hkey) hlayer.tail h).cons hlayer (.kept _)
  | case3 => cases h
  | case4 => cases h
  | case5 => cases h
  | case6 base key entries rest current hcurrent inner hinner layer hentered merged' hmerged ihInner
      ihRest =>
      have hkey := hlayer.canonical key List.mem_cons_self
      have hinside :=
        ihInner (areEntered_of_ofEntries hinner) (areEntered_of_ofEntries hentered) hmerged
      have hbelow : optionValue base key = .map current := by
        rw [optionValue, hcurrent]
        rfl
      refine (ihRest (hbase.set hkey) hlayer.tail h).cons hlayer ?_
      rw [hbelow]
      refine .merged hinside.entered (fun name => ?_) fun name => ?_
      · rw [hinside.names, mem_keys_ofEntries hinner, mem_keys_ofEntries hentered]
      · rw [← optionValue_ofEntries hinner, ← optionValue_ofEntries hentered]
        exact hinside.values name
  | case7 base key entries rest hnone ih =>
      have hkey := hlayer.canonical key List.mem_cons_self
      refine (ih (hbase.set hkey) hlayer.tail h).cons hlayer (.replaced rfl ?_)
      intro lower upper hlower
      exact absurd (get?_eq_map_iff.mpr hlower) (hnone lower)
  | case8 base key value rest hnull hmap ih =>
      have hkey := hlayer.canonical key List.mem_cons_self
      have hgiven : value.isNull = false := by
        rw [← Bool.not_eq_true]
        exact fun hisNull => hnull (Value.eq_null_of_isNull hisNull)
      exact (ih (hbase.set hkey) hlayer.tail h).cons hlayer
        (.replaced hgiven fun _ upper _ => hmap upper)

section Layers

variable {layers : List Value}

/-- A value that can be a layer is laid over what is there as the options that it holds. -/
theorem merge_cons {v : Value} (hv : v.IsLayer) :
    merge base (v :: layers) = (do
      let layer ← ofEntries v.entries
      let next ← overlay base layer
      merge next layers) := by
  have hnothing : overlay base [] = .ok base := by rw [overlay]
  rcases hv with rfl | ⟨entries, rfl⟩
  · simp [merge, Value.isGiven, Value.entries, ofEntries, enterAll, hnothing, bind, Except.bind]
  · cases entries with
    | nil =>
        simp [merge, Value.isGiven, Value.entries, ofEntries, enterAll, hnothing, bind, Except.bind]
    | cons entry entries =>
        rw [merge]
        simp [Value.isGiven, Value.entries]

/-- What options with layers over them come to, option by option. -/
theorem combinesAll_of_merge (hlayers : ∀ v ∈ layers, v.IsLayer) (hbase : base.AreEntered)
    (h : merge base layers = .ok merged) :
    merged.AreEntered ∧
      (∀ name, name ∈ Table.keys merged ↔
        name ∈ Table.keys base ∨ ∃ v ∈ layers, HasName name v.entries) ∧
      ∀ name, CombinesAll lastValue (optionValue base name)
        (layers.map fun v => lastValue name v.entries) (optionValue merged name) := by
  induction layers generalizing base with
  | nil =>
      obtain rfl := Except.ok.inj h
      exact ⟨hbase, fun name => by simp, fun name => .nil _⟩
  | cons v layers ih =>
      obtain ⟨hv, hothers⟩ := List.forall_mem_cons.mp hlayers
      rw [merge_cons hv] at h
      simp only [bind_eq_ok] at h
      obtain ⟨layer, hlayer, next, hnext, hrest⟩ := h
      have hfirst := isCombined_of_overlay hbase (areEntered_of_ofEntries hlayer) hnext
      obtain ⟨hentered, hnames, hvalues⟩ := ih hothers hfirst.entered hrest
      refine ⟨hentered, fun name => ?_, fun name => ?_⟩
      · rw [hnames, hfirst.names, mem_keys_ofEntries hlayer, or_assoc, List.exists_mem_cons_iff]
      · have hvalue := hfirst.values name
        rw [optionValue_ofEntries hlayer] at hvalue
        exact .cons hvalue (hvalues name)

theorem CombinesAll.eq_null_iff {below result : Value} {values : List Value}
    (h : CombinesAll read below values result) :
    result = .null ↔ below = .null ∧ ∀ value ∈ values, value = .null := by
  induction h with
  | nil => simp
  | cons hfirst _ ih => rw [ih, hfirst.eq_null_iff, List.forall_mem_cons, and_assoc]

end Layers

section Steady

/-! Where no null comes last. -/

/-- That a mapping holds no name last with a null behind another value, and so at every depth in the
values that it holds last. -/
inductive IsSteady : Value → Prop where
  | map {entries : List (Value × Value)}
      (here : ∀ name, lastGiven name entries = lastValue name entries)
      (inside : ∀ name, IsSteady (lastValue name entries)) : IsSteady (.map entries)
  | other {v : Value} (h : ∀ entries, v ≠ .map entries) : IsSteady v

theorem isSteady_null : IsSteady .null :=
  .other fun _ => nofun

theorem isSteady_map_iff :
    IsSteady (.map entries) ↔ ∀ name,
      lastGiven name entries = lastValue name entries ∧ IsSteady (lastValue name entries) := by
  constructor
  · rintro (⟨here, inside⟩ | hother) name
    · exact ⟨here name, inside name⟩
    · exact absurd rfl (hother entries)
  · intro h
    exact .map (fun name => (h name).1) fun name => (h name).2

/-- Entries hold nothing under a name, or one of them is the last. -/
theorem lastValue_cases (name : String) (entries : List (Value × Value)) :
    (¬ HasName name entries ∧ lastValue name entries = .null) ∨
      ∃ entry ∈ entries, isSpelling name entry.1 = true ∧ entry.2 = lastValue name entries := by
  unfold lastValue last?
  cases hlast : (entries.filter fun entry => isSpelling name entry.1).getLast? with
  | none =>
      refine .inl ⟨?_, rfl⟩
      rintro ⟨entry, hentry, hspelling⟩
      have hmem : entry ∈ entries.filter fun entry => isSpelling name entry.1 :=
        List.mem_filter.mpr ⟨hentry, hspelling⟩
      rw [List.getLast?_eq_none_iff.mp hlast] at hmem
      cases hmem
  | some entry =>
      obtain ⟨hmem, hspelling⟩ := List.mem_filter.mp (List.mem_of_getLast? hlast)
      exact .inr ⟨entry, hmem, hspelling, rfl⟩

/-- A name has no value only if each of its spellings has none. -/
theorem lastGiven_eq_null_iff :
    lastGiven name entries = .null ↔
      ∀ entry ∈ entries, isSpelling name entry.1 = true → entry.2 = .null := by
  rcases lastValue_cases name (entries.filter fun entry => !entry.2.isNull) with
    ⟨hnone, hnull⟩ | ⟨entry, hentry, hspelling, hvalue⟩
  · refine ⟨fun _ entry hentry hspelling => ?_, fun _ => hnull⟩
    by_contra hvalue
    refine hnone ⟨entry, List.mem_filter.mpr ⟨hentry, ?_⟩, hspelling⟩
    simpa using fun hisNull => hvalue (Value.eq_null_of_isNull hisNull)
  · obtain ⟨hmem, hgiven⟩ := List.mem_filter.mp hentry
    have hne : entry.2 ≠ .null := by
      intro hnull
      rw [hnull] at hgiven
      cases hgiven
    constructor
    · intro hnull
      exact absurd (hvalue.trans hnull) hne
    · intro hall
      exact absurd (hall entry hmem hspelling) hne

/-- Entries that hold texts only. -/
theorem isSteady_of_texts (h : ∀ entry ∈ entries, ∃ s, entry.2 = .text s) :
    IsSteady (.map entries) := by
  have hgiven : entries.filter (fun entry => !entry.2.isNull) = entries := by
    rw [List.filter_eq_self]
    intro entry hentry
    obtain ⟨s, hs⟩ := h entry hentry
    rw [hs]
    rfl
  refine isSteady_map_iff.mpr fun name => ⟨by rw [lastGiven, hgiven], .other fun inner => ?_⟩
  rcases lastValue_cases name entries with ⟨-, hnull⟩ | ⟨entry, hentry, -, hvalue⟩
  · rw [hnull]
    exact nofun
  · obtain ⟨s, hs⟩ := h entry hentry
    rw [← hvalue, hs]
    exact nofun

/-- Each entry of options that are written down is the only one of its name. -/
theorem eq_optionValue_of_mem_toEntries (h : options.AreEntered) {entry : Value × Value}
    (hentry : entry ∈ options.toEntries) (hspelling : isSpelling name entry.1 = true) :
    entry.2 = optionValue options name := by
  obtain ⟨⟨key, value⟩, hmem, rfl⟩ := List.mem_map.mp hentry
  have hcanonical := h.canonical key (List.mem_map_of_mem hmem)
  obtain rfl : key = name := by
    rw [← hcanonical]
    exact eq_of_beq hspelling
  exact (optionValue_of_mem h.nodup hmem).symm

theorem lastGiven_toEntries (h : options.AreEntered) :
    lastGiven name options.toEntries = lastValue name options.toEntries := by
  rw [lastValue_toEntries h]
  rcases lastValue_cases name (options.toEntries.filter fun entry => !entry.2.isNull) with
    ⟨hnone, hnull⟩ | ⟨entry, hentry, hspelling, hvalue⟩
  · rcases lastValue_cases name options.toEntries with
      ⟨-, hnothing⟩ | ⟨entry, hentry, hspelling, hvalue⟩
    · exact hnull.trans (hnothing.symm.trans (lastValue_toEntries h))
    · refine hnull.trans ?_
      rw [← lastValue_toEntries h, ← hvalue]
      by_contra hne
      refine hnone ⟨entry, List.mem_filter.mpr ⟨hentry, ?_⟩, hspelling⟩
      simpa using fun hisNull => hne (Value.eq_null_of_isNull hisNull).symm
  · exact hvalue.symm.trans
      (eq_optionValue_of_mem_toEntries h (List.mem_of_mem_filter hentry) hspelling)

/-- Where no null comes last, the last values are those that are not null, at every depth. -/
theorem Combines.lastGiven {below above result : Value} (h : Combines lastValue below above result)
    (hbelow : IsSteady below) (habove : IsSteady above) :
    Combines lastGiven below above result ∧ IsSteady result := by
  induction h with
  | kept below => exact ⟨.kept below, hbelow⟩
  | replaced hgiven hmaps => exact ⟨.replaced hgiven hmaps, habove⟩
  | merged hentered hnames hvalues ih =>
      have hlower := isSteady_map_iff.mp hbelow
      have hupper := isSteady_map_iff.mp habove
      have hinside := fun name => ih name (hlower name).2 (hupper name).2
      refine ⟨.merged hentered hnames fun name => ?_, isSteady_map_iff.mpr fun name => ?_⟩
      · rw [(hlower name).1, (hupper name).1]
        exact (hinside name).1
      · rw [lastGiven_toEntries hentered, lastValue_toEntries hentered]
        exact ⟨rfl, (hinside name).2⟩

theorem CombinesAll.lastGiven {below result : Value} {values : List Value}
    (h : CombinesAll lastValue below values result) (hbelow : IsSteady below)
    (hvalues : ∀ value ∈ values, IsSteady value) : CombinesAll lastGiven below values result := by
  induction h with
  | nil value => exact .nil value
  | cons hfirst _ ih =>
      obtain ⟨hvalue, hothers⟩ := List.forall_mem_cons.mp hvalues
      obtain ⟨hgiven, hnext⟩ := hfirst.lastGiven hbelow hvalue
      exact .cons hgiven (ih hnext hothers)

end Steady

/-- What an option comes to when layers are merged is what its values come to, one from each layer:
the one that the layer holds last under any spelling of the name. It is null only if all of these
are. If in no layer a null comes last behind another value, they are the last values that are not
null. -/
theorem combined_of_layers {layers : List Value} (hlayers : ∀ v ∈ layers, v.IsLayer)
    (hkeys : ∀ v ∈ layers, v.HasTextKeys) :
    ∃ merged, mergeOptions layers = .ok merged ∧ merged.AreEntered ∧
      (∀ name, name ∈ Table.keys merged ↔ ∃ v ∈ layers, HasName name v.entries) ∧
      ∀ name,
        CombinesAll lastValue .null (layers.map fun v => lastValue name v.entries)
          (optionValue merged name) ∧
        (optionValue merged name = .null ↔ ∀ v ∈ layers, lastValue name v.entries = .null) ∧
        ((∀ v ∈ layers, lastGiven name v.entries = lastValue name v.entries ∧
            IsSteady (lastValue name v.entries)) →
          CombinesAll lastGiven .null (layers.map fun v => lastGiven name v.entries)
            (optionValue merged name) ∧
          (optionValue merged name = .null ↔ ∀ v ∈ layers, ∀ entry ∈ v.entries,
            isSpelling name entry.1 = true → entry.2 = .null)) := by
  obtain ⟨merged, hmerged, -⟩ :=
    exists_merge Value.isTextKeyed_hasTextKeys hkeys hlayers allHave_nil
  obtain ⟨hentered, hnames, hvalues⟩ := combinesAll_of_merge hlayers areEntered_nil hmerged
  refine ⟨merged, hmerged, hentered, fun name => ?_, fun name => ?_⟩
  · rw [hnames]
    simp [Table.keys]
  have hnull :
      optionValue merged name = .null ↔ ∀ v ∈ layers, lastValue name v.entries = .null := by
    have hnothing : optionValue [] name = .null := rfl
    rw [(hvalues name).eq_null_iff, hnothing]
    simp
  refine ⟨hvalues name, hnull, fun hsteady => ⟨?_, ?_⟩⟩
  · rw [List.map_congr_left fun v hv => (hsteady v hv).1]
    refine (hvalues name).lastGiven isSteady_null fun value hvalue => ?_
    obtain ⟨v, hv, rfl⟩ := List.mem_map.mp hvalue
    exact (hsteady v hv).2
  · rw [hnull]
    refine forall₂_congr fun v hv => ?_
    rw [← (hsteady v hv).1, lastGiven_eq_null_iff]

/-- A null under another spelling keeps what is below it, and mappings are merged. -/
theorem combined_of_layers_nested :
    let lower : Value := .map [(.text "dest", .text "a.css"),
      (.text "widths", .map [(.text "sm", .text "4"), (.text "Lg", .text "8")])]
    let upper : Value := .map [(.text "Dest", .null),
      (.text "Widths", .map [(.text "lg", .text "9")])]
    (∀ v ∈ [.null, lower, upper], v.IsLayer) ∧ (∀ v ∈ [.null, lower, upper], v.HasTextKeys) ∧
      (∀ v ∈ [.null, lower, upper], lastGiven "widths" v.entries = lastValue "widths" v.entries ∧
        IsSteady (lastValue "widths" v.entries)) ∧
      ∃ merged, mergeOptions [.null, lower, upper] = .ok merged ∧
        optionValue merged "dest" = .text "a.css" ∧
        ∃ inner : Options, optionValue merged "widths" = .map inner.toEntries ∧
          optionValue inner "sm" = .text "4" ∧ optionValue inner "lg" = .text "9" := by
  intro lower upper
  let small : List (Value × Value) := [(.text "sm", .text "4"), (.text "Lg", .text "8")]
  let large : List (Value × Value) := [(.text "lg", .text "9")]
  have hsmall : (Value.map small).HasTextKeys :=
    .map (by simp [small]) (by simp [small, Value.hasTextKeys_text])
  have hlarge : (Value.map large).HasTextKeys :=
    .map (by simp [large]) (by simp [large, Value.hasTextKeys_text])
  have hlower : lower.HasTextKeys :=
    .map (by simp) (by simpa [Value.hasTextKeys_text] using hsmall)
  have hupper : upper.HasTextKeys :=
    .map (by simp) (by simpa [Value.hasTextKeys_null] using hlarge)
  have hlayers : ∀ v ∈ [.null, lower, upper], v.IsLayer := by
    simp [Value.IsLayer, lower, upper]
  have hkeys : ∀ v ∈ [.null, lower, upper], v.HasTextKeys := by
    simp [Value.hasTextKeys_null, hlower, hupper]
  have hsteady : ∀ v ∈ [.null, lower, upper],
      lastGiven "widths" v.entries = lastValue "widths" v.entries ∧
        IsSteady (lastValue "widths" v.entries) := by
    have hflat : IsSteady (.map small) ∧ IsSteady (.map large) :=
      ⟨isSteady_of_texts (by simp [small]), isSteady_of_texts (by simp [large])⟩
    simp only [List.forall_mem_cons]
    exact ⟨⟨rfl, isSteady_null⟩, ⟨rfl, hflat.1⟩, ⟨rfl, hflat.2⟩, List.forall_mem_nil _⟩
  obtain ⟨merged, hmerged, -, -, hvalues⟩ := combined_of_layers hlayers hkeys
  refine ⟨hlayers, hkeys, hsteady, merged, hmerged, ?_, ?_⟩
  · have hdest : CombinesAll lastValue .null [.null, .text "a.css", .null]
        (optionValue merged "dest") :=
      (hvalues "dest").1
    obtain _ | ⟨hnothing, _ | ⟨hfirst, _ | ⟨hsecond, _ | _⟩⟩⟩ := hdest
    rw [hsecond.eq_of_null, hfirst.eq_of_replaced rfl fun _ _ _ => nofun]
  · have hwidths : CombinesAll lastGiven .null [.null, .map small, .map large]
        (optionValue merged "widths") :=
      ((hvalues "widths").2.2 hsteady).1
    obtain _ | ⟨hnothing, _ | ⟨hfirst, _ | ⟨hsecond, _ | _⟩⟩⟩ := hwidths
    obtain rfl := hnothing.eq_of_null
    obtain rfl := hfirst.eq_of_replaced rfl fun _ _ => nofun
    obtain ⟨inner, hinner, hnames⟩ := hsecond.exists_of_map
    have hsm : Combines lastGiven (.text "4") .null (optionValue inner "sm") := hnames "sm"
    have hlg : Combines lastGiven (.text "8") (.text "9") (optionValue inner "lg") := hnames "lg"
    exact ⟨inner, hinner, hsm.eq_of_null, hlg.eq_of_replaced rfl fun _ _ _ => nofun⟩

/-- Within a layer a null that comes last under another spelling takes the place of a value. -/
theorem null_overrides_within_layer :
    let layer : Value :=
      .map [(.text "strippedSuffix", .text "min"), (.text "stripped_suffix", .null)]
    layer.IsLayer ∧ layer.HasTextKeys ∧
      (∃ merged, mergeOptions [layer] = .ok merged ∧ optionValue merged "stripped_suffix" = .null) ∧
      lastGiven "stripped_suffix" layer.entries = .text "min" ∧
      ¬ CombinesAll lastGiven .null ([layer].map fun v => lastGiven "stripped_suffix" v.entries)
        .null := by
  intro layer
  have hkeys : layer.HasTextKeys :=
    .map (by simp) (by simp [Value.hasTextKeys_text, Value.hasTextKeys_null])
  have hentered : ofEntries layer.entries = .ok [("stripped_suffix", .null)] := rfl
  have hmerged : mergeOptions [layer] = .ok [("stripped_suffix", .null)] :=
    merge_map_cons hentered areApart_nil
  have hmin : lastGiven "stripped_suffix" layer.entries = .text "min" := rfl
  refine ⟨.inr ⟨_, rfl⟩, hkeys, ⟨_, hmerged, rfl⟩, hmin, fun hcombined => ?_⟩
  obtain ⟨-, hnull⟩ := hcombined.eq_null_iff.mp rfl
  have hvalue := hnull (.text "min") (by simp [hmin])
  cases hvalue

end Options

end MediaSplit
