import MediaSplit.Configuration
import MediaSplit.Proofs.Options.Names
import MediaSplit.Proofs.Results

/-!
What layers of options come to, option by option. A layer gives an option the value that it holds
last under any spelling of its name; laid over another layer, it wins wherever that value is not
null. Where no option is a mapping in both layers there is nothing more to merging.
-/

namespace MediaSplit

namespace Table

variable {κ α : Type} [BEq κ] [LawfulBEq κ] {key : κ} {value : α} {table : Table κ α}

theorem mem_keys_set {other : κ} :
    other ∈ keys (set key value table) ↔ other = key ∨ other ∈ keys table := by
  induction table with
  | nil => simp [set, keys]
  | cons entry rest ih =>
      obtain ⟨k, old⟩ := entry
      simp only [keys] at ih
      simp only [set]
      split
      · rename_i heq
        simp [keys, eq_of_beq heq]
      · simp only [keys, List.map_cons, List.mem_cons, ih]
        exact or_left_comm

theorem nodup_keys_set (h : (keys table).Nodup) : (keys (set key value table)).Nodup := by
  induction table with
  | nil => simp [set, keys]
  | cons entry rest ih =>
      obtain ⟨k, old⟩ := entry
      obtain ⟨hk, hrest⟩ := List.nodup_cons.mp h
      simp only [set]
      split
      · exact h
      · rename_i hne
        apply List.nodup_cons.mpr
        constructor
        · intro hmem
          rcases mem_keys_set.mp hmem with heq | hold
          · exact hne (beq_iff_eq.mpr heq)
          · exact hk hold
        · exact ih hrest

theorem set_of_not_mem (h : key ∉ keys table) : set key value table = table ++ [(key, value)] := by
  induction table with
  | nil => rfl
  | cons entry rest ih =>
      obtain ⟨k, old⟩ := entry
      have hk : k ≠ key := fun heq => h (by simp [keys, heq])
      have hrest : key ∉ keys rest := fun hmem => h (List.mem_cons_of_mem _ hmem)
      simp only [set]
      rw [if_neg fun heq => hk (eq_of_beq heq), ih hrest]
      rfl

end Table

theorem Value.eq_null_of_isNull {v : Value} (h : v.isNull = true) : v = .null := by
  cases v with
  | null => rfl
  | _ => cases h

def Value.over (above below : Value) : Value :=
  if above.isNull then below else above

@[simp] theorem Value.null_over (below : Value) : Value.null.over below = below :=
  rfl

@[simp] theorem Value.over_null (above : Value) : above.over .null = above := by
  cases above <;> rfl

theorem Value.over_of_not_isNull {above : Value} (h : above.isNull = false) (below : Value) :
    above.over below = above :=
  if_neg (by simp [h])

namespace Options

open MediaSplit.Configuration (optionValue)

variable {options base layer : Options} {key name : String} {value : Value}
  {entries : List (Value × Value)}

theorem optionValue_set :
    optionValue (Table.set key value options) name =
      if name = key then value else optionValue options name := by
  unfold optionValue
  split
  · rename_i heq
    rw [heq, Table.get?_set_self]
    rfl
  · rename_i hne
    rw [Table.get?_set_of_ne hne]

theorem optionValue_of_not_mem (h : name ∉ Table.keys options) :
    optionValue options name = .null := by
  have hnone : options.lookup name = none := by
    rw [List.lookup_eq_none_iff]
    intro entry hentry
    apply bne_iff_ne.mpr
    rintro rfl
    exact h (List.mem_map_of_mem hentry)
  rw [optionValue, Table.get?, hnone]
  rfl

def isSpelling (name : String) : Value → Bool
  | .text s => canonicalKey s == name
  | _ => false

def last? (name : String) (entries : List (Value × Value)) : Option Value :=
  (entries.filter fun entry => isSpelling name entry.1).getLast?.map Prod.snd

def lastValue (name : String) (entries : List (Value × Value)) : Value :=
  (last? name entries).getD .null

theorem last?_cons_of_isSpelling {spelling : Value} (h : isSpelling name spelling = true) :
    last? name ((spelling, value) :: entries) = some ((last? name entries).getD value) := by
  have hfilter : ((spelling, value) :: entries).filter (fun entry => isSpelling name entry.1) =
      (spelling, value) :: entries.filter fun entry => isSpelling name entry.1 :=
    List.filter_cons_of_pos h
  simp only [last?]
  rw [hfilter, List.getLast?_cons]
  cases (entries.filter fun entry => isSpelling name entry.1).getLast? <;> rfl

theorem last?_cons_of_not_isSpelling {spelling : Value} (h : isSpelling name spelling = false) :
    last? name ((spelling, value) :: entries) = last? name entries := by
  simp only [last?]
  rw [List.filter_cons_of_neg (by simp [h])]

/-- Leaving out entries of other names changes nothing. -/
theorem lastValue_filter {keep : Value × Value → Bool}
    (h : ∀ entry ∈ entries, isSpelling name entry.1 = true → keep entry = true) :
    lastValue name (entries.filter keep) = lastValue name entries := by
  have hfilter : (entries.filter keep).filter (fun entry => isSpelling name entry.1) =
      entries.filter fun entry => isSpelling name entry.1 := by
    rw [List.filter_filter]
    apply List.filter_congr
    intro entry hentry
    cases hspelling : isSpelling name entry.1 with
    | false => rfl
    | true => simp [h entry hentry hspelling]
  simp only [lastValue, last?, hfilter]

theorem lastValue_eq_null (h : ∀ entry ∈ entries, isSpelling name entry.1 = false) :
    lastValue name entries = .null := by
  have hfilter : (entries.filter fun entry => isSpelling name entry.1) = [] := by
    rw [List.filter_eq_nil_iff]
    intro entry hentry
    simp [h entry hentry]
  simp only [lastValue, last?, hfilter]
  rfl

/-- Only a text names an option. -/
theorem enterAll_cons_eq_ok {made : Options} {entry : Value × Value} :
    enterAll made (entry :: entries) = .ok options ↔ ∃ key, entry.1 = .text key ∧
      enterAll (Table.set (canonicalKey key) entry.2 made) entries = .ok options := by
  obtain ⟨spelling, value⟩ := entry
  cases spelling <;> simp [enterAll, keyOf, bind_eq_ok]

theorem optionValue_enterAll {made : Options} (h : enterAll made entries = .ok options) :
    optionValue options name = (last? name entries).getD (optionValue made name) := by
  induction entries generalizing made with
  | nil =>
      obtain rfl := Except.ok.inj h
      rfl
  | cons entry rest ih =>
      obtain ⟨key, hkey, hrest⟩ := enterAll_cons_eq_ok.mp h
      rw [ih hrest, optionValue_set]
      cases hname : canonicalKey key == name with
      | true =>
          have hspelling : isSpelling name entry.1 = true := by rwa [hkey]
          rw [last?_cons_of_isSpelling hspelling, if_pos (eq_of_beq hname).symm]
          cases last? name rest <;> rfl
      | false =>
          have hspelling : isSpelling name entry.1 = false := by rwa [hkey]
          rw [last?_cons_of_not_isSpelling hspelling, if_neg (beq_eq_false_iff_ne.mp hname).symm]

theorem optionValue_ofEntries (h : ofEntries entries = .ok options) :
    optionValue options name = lastValue name entries :=
  optionValue_enterAll h

structure AreEntered (options : Options) : Prop where
  nodup : (Table.keys options).Nodup
  canonical : ∀ key ∈ Table.keys options, canonicalKey key = key

theorem areEntered_nil : AreEntered [] :=
  ⟨List.nodup_nil, fun _ hkey => absurd hkey List.not_mem_nil⟩

theorem AreEntered.set (h : AreEntered options) (hkey : canonicalKey key = key) :
    AreEntered (Table.set key value options) := by
  constructor
  · exact Table.nodup_keys_set h.nodup
  · intro other hother
    rcases Table.mem_keys_set.mp hother with rfl | hold
    · exact hkey
    · exact h.canonical other hold

theorem AreEntered.enterAll {made : Options} (hmade : AreEntered made)
    (h : enterAll made entries = .ok options) : AreEntered options := by
  induction entries generalizing made with
  | nil =>
      obtain rfl := Except.ok.inj h
      exact hmade
  | cons entry rest ih =>
      obtain ⟨key, -, hrest⟩ := enterAll_cons_eq_ok.mp h
      exact ih (hmade.set (canonicalKey_idem key)) hrest

theorem areEntered_of_ofEntries (h : ofEntries entries = .ok options) : AreEntered options :=
  areEntered_nil.enterAll h

theorem enterAll_toEntries {made : Options} (h : AreEntered (made ++ options)) :
    enterAll made options.toEntries = .ok (made ++ options) := by
  induction options generalizing made with
  | nil =>
      rw [List.append_nil]
      rfl
  | cons entry rest ih =>
      obtain ⟨key, value⟩ := entry
      have hmoved : made ++ (key, value) :: rest = made ++ [(key, value)] ++ rest := by
        simp
      have hkey : canonicalKey key = key := h.canonical key (by simp [Table.keys])
      have hnew : key ∉ Table.keys made := by
        intro hmem
        have hnodup := h.nodup
        simp only [Table.keys, List.map_append, List.map_cons] at hnodup
        exact (List.nodup_append.mp hnodup).2.2 key hmem key List.mem_cons_self rfl
      rw [hmoved] at h ⊢
      simp only [toEntries, List.map_cons, enterAll, keyOf, hkey, bind, Except.bind,
        Table.set_of_not_mem hnew]
      exact ih h

/-- Options that are written down and entered again are the same. -/
theorem ofEntries_toEntries (h : AreEntered options) : ofEntries options.toEntries = .ok options :=
  enterAll_toEntries h

def lay (base : Options) : Options → Options
  | [] => base
  | (key, value) :: rest => lay (Table.set key (value.over (optionValue base key)) base) rest

theorem AreEntered.lay (hbase : AreEntered base) (hlayer : AreEntered layer) :
    AreEntered (lay base layer) := by
  induction layer generalizing base with
  | nil => exact hbase
  | cons entry rest ih =>
      obtain ⟨key, value⟩ := entry
      have hkey := hlayer.canonical key List.mem_cons_self
      apply ih (hbase.set hkey)
      constructor
      · exact (List.nodup_cons.mp hlayer.nodup).2
      · intro other hother
        exact hlayer.canonical other (List.mem_cons_of_mem _ hother)

theorem optionValue_cons :
    optionValue ((key, value) :: options) name =
      if name = key then value else optionValue options name := by
  simp only [optionValue, Table.get?, List.lookup_cons]
  split
  · rename_i heq
    rw [if_pos (eq_of_beq heq)]
    rfl
  · rename_i hne
    rw [if_neg (beq_eq_false_iff_ne.mp hne)]

/-- Option by option, the layer above wins unless its value is null. -/
theorem optionValue_lay (hlayer : (Table.keys layer).Nodup) :
    optionValue (lay base layer) name =
      (optionValue layer name).over (optionValue base name) := by
  induction layer generalizing base with
  | nil => rfl
  | cons entry rest ih =>
      obtain ⟨key, value⟩ := entry
      obtain ⟨hkey, hrest⟩ := List.nodup_cons.mp hlayer
      rw [lay, ih hrest, optionValue_set, optionValue_cons]
      split
      · rename_i heq
        rw [heq, optionValue_of_not_mem hkey, Value.null_over]
      · rfl

/-- That no option is a mapping in both of two layers. -/
def AreApart (base layer : Options) : Prop :=
  ∀ name below above, optionValue base name = .map below → optionValue layer name ≠ .map above

theorem AreApart.tail (h : AreApart base ((key, value) :: layer))
    (hlayer : (Table.keys ((key, value) :: layer)).Nodup) (entered : Value) :
    AreApart (Table.set key entered base) layer := by
  obtain ⟨hkey, -⟩ := List.nodup_cons.mp hlayer
  intro name below above hbelow habove
  have hne : name ≠ key := by
    rintro rfl
    rw [optionValue_of_not_mem hkey] at habove
    cases habove
  rw [optionValue_set, if_neg hne] at hbelow
  apply h name below above hbelow
  rw [optionValue_cons, if_neg hne, habove]

/-- Where no mappings meet, laying a layer over another one only replaces values. -/
theorem overlay_eq_lay (hlayer : (Table.keys layer).Nodup) (h : AreApart base layer) :
    overlay base layer = .ok (lay base layer) := by
  induction layer generalizing base with
  | nil =>
      rw [overlay]
      rfl
  | cons entry rest ih =>
      obtain ⟨key, value⟩ := entry
      obtain ⟨-, hrest⟩ := List.nodup_cons.mp hlayer
      have hnext := fun entered => ih hrest (h.tail hlayer entered)
      cases value with
      | null =>
          rw [overlay]
          exact hnext _
      | map above =>
          rw [overlay]
          split
          · rename_i below hbelow
            refine absurd ?_ (h key below above ?_)
            · rw [optionValue_cons, if_pos rfl]
            · rw [optionValue, hbelow]
              rfl
          · exact hnext _
      | _ =>
          rw [overlay]
          · exact hnext _
          · rintro ⟨⟩
          · rintro _ ⟨⟩

/-- A mapping as a further layer, if it holds something or not. -/
theorem merge_map_cons {rest : List Value} (hentered : ofEntries entries = .ok layer)
    (h : AreApart base layer) :
    merge base (.map entries :: rest) = merge (lay base layer) rest := by
  cases entries with
  | nil =>
      obtain rfl := Except.ok.inj hentered
      rfl
  | cons entry entries =>
      have hnodup := (areEntered_of_ofEntries hentered).nodup
      rw [merge]
      simp [Value.isGiven, hentered, overlay_eq_lay hnodup h, bind, Except.bind]

theorem merge_map_error {rest : List Value} {fault : OptionsFault}
    (h : ofEntries entries = .error fault) : merge base (.map entries :: rest) = .error fault := by
  cases entries with
  | nil => cases h
  | cons entry entries =>
      rw [merge]
      simp [Value.isGiven, h, bind, Except.bind]

theorem areApart_nil : AreApart [] layer := by
  intro name below above hbelow
  cases hbelow

end Options

namespace Configuration

def defaultOptions : Options :=
  [("extract", .null), ("ignore", .null), ("override_original", .bool false),
    ("stripped_suffix", .text "stripped"), ("encoding", .text "utf-8")]

theorem areEntered_defaultOptions : defaultOptions.AreEntered := by
  constructor
  · decide
  · decide +kernel

theorem defaults_eq : defaults = .map defaultOptions.toEntries :=
  rfl

/-- No default is a mapping, so none is merged with a value above it. -/
theorem areApart_defaultOptions (layer : Options) :
    Options.AreApart (Options.lay [] defaultOptions) layer := by
  intro name below above hbelow
  rw [Options.optionValue_lay areEntered_defaultOptions.nodup] at hbelow
  have hflat : ∀ entry ∈ defaultOptions, ∀ entries, entry.2 ≠ .map entries := by
    simp [defaultOptions]
  simp only [optionValue] at hbelow
  cases hget : Table.get? defaultOptions name with
  | none =>
      rw [hget] at hbelow
      cases hbelow
  | some value =>
      obtain ⟨before, after, hsplit, -⟩ := List.lookup_eq_some_iff.mp hget
      rw [hget] at hbelow
      have hvalue : value = .map below := by
        simpa [Table.get?] using hbelow
      exact absurd hvalue (hflat (name, value) (by simp [hsplit]) below)

theorem withDefaults_eq {entries : List (Value × Value)} {layer : Options}
    (h : Options.ofEntries entries = .ok layer) :
    withDefaults (.map entries) = .ok (Options.lay (Options.lay [] defaultOptions) layer) := by
  unfold withDefaults mergeOptions
  rw [defaults_eq,
    Options.merge_map_cons (Options.ofEntries_toEntries areEntered_defaultOptions)
      Options.areApart_nil,
    Options.merge_map_cons h (areApart_defaultOptions layer)]
  rfl

theorem exists_of_withDefaults {entries : List (Value × Value)} {merged : Options}
    (h : withDefaults (.map entries) = .ok merged) :
    ∃ layer, Options.ofEntries entries = .ok layer ∧
      merged = Options.lay (Options.lay [] defaultOptions) layer := by
  cases hlayer : Options.ofEntries entries with
  | ok layer =>
      rw [withDefaults_eq hlayer] at h
      exact ⟨layer, rfl, (Except.ok.inj h).symm⟩
  | error fault =>
      unfold withDefaults mergeOptions at h
      rw [defaults_eq,
        Options.merge_map_cons (Options.ofEntries_toEntries areEntered_defaultOptions)
          Options.areApart_nil,
        Options.merge_map_error hlayer] at h
      cases h

/-- The value of an option with the defaults: what the options hold last under any spelling of its
name, and if that is null, its default. -/
theorem optionValue_lay_defaultOptions {layer : Options} (h : (Table.keys layer).Nodup)
    (name : String) :
    optionValue (Options.lay (Options.lay [] defaultOptions) layer) name =
      (optionValue layer name).over (optionValue defaultOptions name) := by
  have hnull : optionValue [] name = .null := rfl
  rw [Options.optionValue_lay h, Options.optionValue_lay areEntered_defaultOptions.nodup, hnull,
    Value.over_null]

end Configuration

end MediaSplit
