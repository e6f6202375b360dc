import MediaSplit.Encoding.HostNames
import MediaSplit.Proofs.Configuring
import MediaSplit.Proofs.Options.Layers

/-!
Arguments and a configuration file. Whatever arguments say of a row of the table of options takes
the place of all that the file says of it, under any spelling and any other name of the row. There
is one exception: a list of files in the configuration file is preferred to a source pattern, also
to one among the arguments, which then counts for nothing.
-/

namespace MediaSplit

namespace Configuration

variable {t : FileTree} {options others : Options}

theorem firstValue_singleton (name : String) :
    firstValue options [name] = optionValue options name := by
  simp only [firstValue, List.map_cons, List.map_nil, List.find?_cons]
  cases optionValue options name <;> rfl

theorem firstValue_pair (name other : String) :
    firstValue options [name, other] =
      (optionValue options name).over (optionValue options other) := by
  simp only [firstValue, List.map_cons, List.map_nil, List.find?_cons, Value.over]
  cases optionValue options name <;> cases optionValue options other <;> rfl

def singleNames : List String :=
  ["dest", "extract", "ignore", "override_original", "stripped_suffix", "encoding"]

/-- Options that agree on what is read of them make the same draft. -/
theorem draft_congr [Codecs]
    (hwidths : firstValue options ["widths", "width"] = firstValue others ["widths", "width"])
    (hsource : sourceOf options = sourceOf others)
    (hsingle : ∀ name ∈ singleNames, optionValue options name = optionValue others name) :
    draft options = draft others := by
  have hread : ∀ name ∈ singleNames, optionValue options name = optionValue others name := hsingle
  simp only [singleNames, List.forall_mem_cons, List.not_mem_nil, false_implies,
    implies_true, and_true] at hread
  obtain ⟨hdest, hextract, hignore, hinPlace, hsuffix, hencoding⟩ := hread
  have hwidthsOption : widthsOption options "widths" ["widths", "width"] =
      widthsOption others "widths" ["widths", "width"] := by
    unfold widthsOption
    unfold firstValue at hwidths
    simp only [hwidths]
  have hextractOption : widthsOption options "extract" ["extract"] =
      widthsOption others "extract" ["extract"] := by
    simp only [widthsOption, List.map_cons, List.map_nil, hextract]
  unfold sourceOf at hsource
  unfold draft
  rw [hwidthsOption, hextractOption, hdest, hignore, hinPlace, hsuffix, hencoding, hsource]

/-- Options that make the same draft resolve to the same configuration. -/
theorem resolveJudged_congr [Codecs] {asked wanted : Value}
    (hasked : withDefaults asked = .ok options) (hwanted : withDefaults wanted = .ok others)
    (h : draft options = draft others) :
    resolveJudged t asked = resolveJudged t wanted := by
  have hdraft : (withDefaults asked >>= draft) = (withDefaults wanted >>= draft) := by
    rw [hasked, hwanted]
    exact h
  unfold resolveJudged
  rw [hdraft]

end Configuration

namespace CommandLine

open MediaSplit.Configuration (optionValue firstGiven)

variable {t : FileTree} {items others : List Item} {entries : List (Value × Value)} {name : String}

def layerOf (items : List Item) : Options :=
  [("files", listOption (Item.files items)), ("src", listOption (Item.values .source items)),
    ("dest", optional ((Item.value? .dest items).map .text)),
    ("ignore", listOption (Item.values .ignore items)),
    ("widths", widthsOption (Item.values .widths items)),
    ("extract", widthsOption (Item.values .extract items)),
    ("override_original", optional ((Item.inPlace? items).map .bool)),
    ("stripped_suffix", optional ((Item.value? .strippedSuffix items).map .text)),
    ("encoding", optional ((Item.value? .encoding items).map .text))]

theorem optionsOf_eq (items : List Item) : optionsOf items = .map (layerOf items).toEntries :=
  rfl

theorem areEntered_layerOf (items : List Item) : (layerOf items).AreEntered := by
  constructor
  · change ["files", "src", "dest", "ignore", "widths", "extract", "override_original",
      "stripped_suffix", "encoding"].Nodup
    decide
  · change ∀ key ∈ ["files", "src", "dest", "ignore", "widths", "extract", "override_original",
      "stripped_suffix", "encoding"], canonicalKey key = key
    decide +kernel

/-- No argument is a mapping. -/
theorem areApart_layerOf (base : Options) (items : List Item) :
    Options.AreApart base (layerOf items) := by
  have hlist : ∀ texts above, listOption texts ≠ .map above := by
    intro texts above
    unfold listOption
    split <;> rintro ⟨⟩
  have hwidths : ∀ texts above, widthsOption texts ≠ .map above := by
    intro texts above
    unfold widthsOption
    split <;> rintro ⟨⟩
  have htext : ∀ (text : Option String) above, optional (text.map .text) ≠ .map above := by
    intro text above
    cases text <;> rintro ⟨⟩
  have hbool : ∀ (on : Option Bool) above, optional (on.map .bool) ≠ .map above := by
    intro on above
    cases on <;> rintro ⟨⟩
  have hflat : ∀ entry ∈ layerOf items, ∀ above, entry.2 ≠ .map above := by
    simp only [layerOf, List.forall_mem_cons, List.not_mem_nil, false_implies, implies_true, hlist,
      hwidths, htext, hbool, ne_eq, not_false_eq_true, and_self]
  intro name below above _ habove
  simp only [optionValue] at habove
  cases hget : Table.get? (layerOf items) name with
  | none =>
      rw [hget] at habove
      cases habove
  | some value =>
      obtain ⟨before, after, hsplit, -⟩ := List.lookup_eq_some_iff.mp hget
      rw [hget] at habove
      exact hflat (name, value) (by simp [hsplit]) above habove

/-- What arguments, a configuration file below them and the defaults give an option. -/
def layeredValue (entries : List (Value × Value)) (items : List Item) (name : String) : Value :=
  ((optionValue (layerOf items) name).over (Options.lastValue name entries)).over
    (optionValue Configuration.defaultOptions name)

/-- What the options of a configuration file and of arguments above them resolve to. -/
def resolveBelow [Codecs] (t : FileTree) (entries : List (Value × Value)) (items : List Item) :
    List (String × Selection.Verdict) × Except ConfigFault Configuration :=
  match mergeOptions [.map entries, optionsOf items] with
  | .ok merged => Configuration.resolveJudged t (.map merged.toEntries)
  | .error fault => ([], .error (.options fault))

/-- A call resolves the options of its configuration file in this way. -/
theorem configure_of_load [Codecs] {path : String} (hpath : Item.value? .config items = some path)
    (hload : ConfigFile.load t path = .ok (.map entries)) :
    (configure t items).2 = (resolveBelow t entries items).2 := by
  unfold configure mergedOptions fileLayers resolveBelow
  rw [hpath]
  simp only [hload, Except.map, bind, Except.bind, List.singleton_append]
  cases mergeOptions [.map entries, optionsOf items] <;> rfl

/-- The two layers and the defaults can always be merged, and the values are those of the upper
layers where these have one. -/
theorem exists_options_of_layers (h : (Value.map entries).IsJson) (items : List Item) :
    ∃ merged options, mergeOptions [.map entries, optionsOf items] = .ok merged ∧
      Configuration.withDefaults (.map merged.toEntries) = .ok options ∧
      ∀ name, optionValue options name = layeredValue entries items name := by
  obtain ⟨layer, hlayer, -⟩ := Options.exists_ofEntries Value.isTextKeyed_isJson h
  have hentered := Options.areEntered_of_ofEntries hlayer
  have harguments := areEntered_layerOf items
  let below : Options := Options.lay [] layer
  have hbelow : below.AreEntered := Options.areEntered_nil.lay hentered
  have hmerged : mergeOptions [.map entries, optionsOf items] =
      .ok (Options.lay below (layerOf items)) := by
    rw [optionsOf_eq, mergeOptions, Options.merge_map_cons hlayer Options.areApart_nil,
      Options.merge_map_cons (Options.ofEntries_toEntries harguments)
        (areApart_layerOf _ items)]
    rfl
  have hwritten := Options.ofEntries_toEntries (hbelow.lay harguments)
  refine ⟨_, _, hmerged, Configuration.withDefaults_eq hwritten, ?_⟩
  intro name
  have hnull : optionValue [] name = .null := rfl
  rw [Configuration.optionValue_lay_defaultOptions (hbelow.lay harguments).nodup,
    Options.optionValue_lay harguments.nodup, Options.optionValue_lay hentered.nodup, hnull,
    Value.over_null, Options.optionValue_ofEntries hlayer]
  rfl

/-- Two pairs of layers that agree on what is read of them resolve alike. -/
theorem resolveBelow_congr [Codecs] {below : List (Value × Value)}
    (hentries : (Value.map entries).IsJson) (hbelow : (Value.map below).IsJson)
    (hwidths : (layeredValue entries items "widths").over (layeredValue entries items "width") =
      (layeredValue below others "widths").over (layeredValue below others "width"))
    (hsource : firstGiven (layeredValue entries items "files") (layeredValue entries items "src") =
      firstGiven (layeredValue below others "files") (layeredValue below others "src"))
    (hsingle : ∀ name ∈ Configuration.singleNames,
      layeredValue entries items name = layeredValue below others name) :
    resolveBelow t entries items = resolveBelow t below others := by
  obtain ⟨merged, options, hmerged, hoptions, hvalues⟩ := exists_options_of_layers hentries items
  obtain ⟨merged', options', hmerged', hoptions', hvalues'⟩ := exists_options_of_layers hbelow others
  unfold resolveBelow
  rw [hmerged, hmerged']
  apply Configuration.resolveJudged_congr hoptions hoptions'
  apply Configuration.draft_congr
  · rw [Configuration.firstValue_pair, Configuration.firstValue_pair, hvalues, hvalues, hvalues',
      hvalues']
    exact hwidths
  · unfold Configuration.sourceOf
    rw [hvalues, hvalues, hvalues', hvalues']
    exact hsource
  · intro name hname
    rw [hvalues, hvalues']
    exact hsingle name hname

inductive OptionRow where
  | sources
  | dest
  | ignore
  | widths
  | extract
  | inPlace
  | strippedSuffix
  | encoding
  deriving DecidableEq, Repr

namespace OptionRow

def names : OptionRow → List String
  | .sources => ["files", "src"]
  | .dest => ["dest"]
  | .ignore => ["ignore"]
  | .widths => ["widths", "width"]
  | .extract => ["extract"]
  | .inPlace => ["override_original"]
  | .strippedSuffix => ["stripped_suffix"]
  | .encoding => ["encoding"]

def IsGivenBy (row : OptionRow) (items : List Item) : Prop :=
  ∃ name ∈ row.names, (optionValue (layerOf items) name).isNull = false

/-- Whether an entry of a mapping is of a row, under any spelling of one of its names. -/
def covers (row : OptionRow) (entry : Value × Value) : Bool :=
  row.names.any fun name => Options.isSpelling name entry.1

/-- The entries of all other rows. -/
def without (row : OptionRow) (entries : List (Value × Value)) : List (Value × Value) :=
  entries.filter fun entry => !row.covers entry

variable {row : OptionRow}

theorem isJson_without (h : (Value.map entries).IsJson) :
    (Value.map (row.without entries)).IsJson := by
  cases h with
  | map keys values =>
      constructor
      · intro entry hentry
        exact keys entry (List.mem_filter.mp hentry).1
      · intro entry hentry
        exact values entry (List.mem_filter.mp hentry).1

/-- A key is a spelling of one name only. -/
theorem eq_of_isSpelling {other : String} {key : Value}
    (hname : Options.isSpelling name key = true) (hother : Options.isSpelling other key = true) :
    name = other := by
  cases key with
  | text s => exact (eq_of_beq hname).symm.trans (eq_of_beq hother)
  | _ => cases hname

theorem lastValue_without (hname : name ∉ row.names) :
    Options.lastValue name (row.without entries) = Options.lastValue name entries := by
  apply Options.lastValue_filter
  intro entry _ hspelling
  rw [Bool.not_eq_true', covers, List.any_eq_false]
  intro other hother hcovered
  apply hname
  rwa [eq_of_isSpelling hspelling hcovered]

theorem lastValue_without_self (hname : name ∈ row.names) :
    Options.lastValue name (row.without entries) = .null := by
  apply Options.lastValue_eq_null
  intro entry hentry
  have huncovered := (List.mem_filter.mp hentry).2
  rw [Bool.not_eq_true', covers, List.any_eq_false] at huncovered
  simpa using huncovered name hname

/-- Options of other rows keep their values, and so do those that the arguments give. -/
theorem layeredValue_without
    (h : name ∉ row.names ∨ (optionValue (layerOf items) name).isNull = false) :
    layeredValue (row.without entries) items name = layeredValue entries items name := by
  unfold layeredValue
  rcases h with hother | hgiven
  · rw [lastValue_without hother]
  · simp only [Value.over_of_not_isNull hgiven]

end OptionRow

theorem layeredValue_of_not_isNull (h : (optionValue (layerOf items) name).isNull = false) :
    layeredValue entries items name = optionValue (layerOf items) name := by
  rw [layeredValue, Value.over_of_not_isNull h, Value.over_of_not_isNull h]

theorem isGiven_listOption {texts : List String} (h : (listOption texts).isNull = false) :
    (listOption texts).isGiven = true := by
  unfold listOption at h ⊢
  split at h
  · cases h
  · rename_i hne
    rw [if_neg hne]
    simpa [Value.isGiven] using hne

/-- That a source pattern among the arguments is not looked at, since there are no files among them
and the configuration file has some. -/
def HidesSource (entries : List (Value × Value)) (items : List Item) : Prop :=
  (optionValue (layerOf items) "files").isNull = true ∧
    (Options.lastValue "files" entries).isGiven = true

instance (entries : List (Value × Value)) (items : List Item) :
    Decidable (HidesSource entries items) :=
  inferInstanceAs (Decidable (_ ∧ _))

theorem layeredValue_files_of_isNull (h : (optionValue (layerOf items) "files").isNull = true) :
    layeredValue entries items "files" = Options.lastValue "files" entries := by
  have hnull := Value.eq_null_of_isNull h
  have hdefault : optionValue Configuration.defaultOptions "files" = .null := rfl
  rw [layeredValue, hnull, hdefault, Value.null_over, Value.over_null]

/-- Sources among the arguments are looked at instead of those of the configuration file. -/
theorem source_without (hgiven : OptionRow.sources.IsGivenBy items)
    (hseen : ¬ HidesSource entries items) :
    firstGiven (layeredValue (OptionRow.sources.without entries) items "files")
        (layeredValue (OptionRow.sources.without entries) items "src") =
      firstGiven (layeredValue entries items "files") (layeredValue entries items "src") := by
  cases hfiles : (optionValue (layerOf items) "files").isNull with
  | false =>
      have hlist : (optionValue (layerOf items) "files").isGiven = true :=
        isGiven_listOption hfiles
      rw [layeredValue_of_not_isNull hfiles, layeredValue_of_not_isNull hfiles, firstGiven,
        firstGiven, if_pos hlist, if_pos hlist]
  | true =>
      have hsrc : (optionValue (layerOf items) "src").isNull = false := by
        obtain ⟨name, hname, hvalue⟩ := hgiven
        simp only [OptionRow.names, List.mem_cons, List.not_mem_nil, or_false] at hname
        rcases hname with rfl | rfl
        · rw [hfiles] at hvalue
          cases hvalue
        · exact hvalue
      have hbelow : ¬ (Options.lastValue "files" entries).isGiven = true :=
        fun hbelow => hseen ⟨hfiles, hbelow⟩
      have hnone : Options.lastValue "files" (OptionRow.sources.without entries) = .null :=
        OptionRow.lastValue_without_self (by simp [OptionRow.names])
      rw [layeredValue_files_of_isNull hfiles, layeredValue_files_of_isNull hfiles, hnone,
        layeredValue_of_not_isNull hsrc, layeredValue_of_not_isNull hsrc, firstGiven, firstGiven,
        if_neg hbelow]
      rfl

/-- Widths among the arguments are looked at instead of those of the configuration file. -/
theorem widths_without (hgiven : OptionRow.widths.IsGivenBy items) :
    (layeredValue (OptionRow.widths.without entries) items "widths").over
        (layeredValue (OptionRow.widths.without entries) items "width") =
      (layeredValue entries items "widths").over (layeredValue entries items "width") := by
  obtain ⟨name, hname, hvalue⟩ := hgiven
  simp only [OptionRow.names, List.mem_cons, List.not_mem_nil, or_false] at hname
  rcases hname with rfl | rfl
  · rw [layeredValue_of_not_isNull hvalue, layeredValue_of_not_isNull hvalue,
      Value.over_of_not_isNull hvalue, Value.over_of_not_isNull hvalue]
  · cases hvalue

/-- The arguments without their source patterns. -/
def withoutSource (items : List Item) : List Item :=
  items.filter fun
    | .text .source _ => false
    | _ => true

theorem files_withoutSource (items : List Item) :
    Item.files (withoutSource items) = Item.files items := by
  unfold Item.files withoutSource
  rw [List.filterMap_filter]
  apply List.filterMap_congr
  rintro (⟨option, value⟩ | f | path) -
  · cases option <;> rfl
  · rfl
  · rfl

theorem values_withoutSource {option : TextOption} (h : option ≠ .source) (items : List Item) :
    Item.values option (withoutSource items) = Item.values option items := by
  unfold Item.values withoutSource
  rw [List.filterMap_filter]
  apply List.filterMap_congr
  rintro (⟨given, value⟩ | f | path) -
  · cases given
    case source => simp [h.symm]
    all_goals rfl
  · rfl
  · rfl

theorem inPlace?_withoutSource (items : List Item) :
    Item.inPlace? (withoutSource items) = Item.inPlace? items := by
  have hflags : Item.flags (withoutSource items) = Item.flags items := by
    unfold Item.flags withoutSource
    rw [List.filterMap_filter]
    apply List.filterMap_congr
    rintro (⟨option, value⟩ | f | path) -
    · cases option <;> rfl
    · rfl
    · rfl
  rw [Item.inPlace?, hflags]
  rfl

theorem optionValue_withoutSource (h : name ≠ "src") :
    optionValue (layerOf (withoutSource items)) name = optionValue (layerOf items) name := by
  have hdrop : ∀ items : List Item, optionValue (layerOf items) name =
      optionValue ((layerOf items).filter fun entry => entry.1 != "src") name := by
    intro items
    simp only [optionValue, Table.get?, layerOf, List.filter_cons, List.filter_nil]
    simp [List.lookup_cons, beq_eq_false_iff_ne.mpr h]
  rw [hdrop, hdrop items]
  simp only [layerOf, Item.value?, files_withoutSource, inPlace?_withoutSource,
    values_withoutSource (show TextOption.dest ≠ .source by decide),
    values_withoutSource (show TextOption.ignore ≠ .source by decide),
    values_withoutSource (show TextOption.widths ≠ .source by decide),
    values_withoutSource (show TextOption.extract ≠ .source by decide),
    values_withoutSource (show TextOption.strippedSuffix ≠ .source by decide),
    values_withoutSource (show TextOption.encoding ≠ .source by decide),
    List.filter_cons]
  rfl

theorem layeredValue_withoutSource (h : name ≠ "src") :
    layeredValue entries (withoutSource items) name = layeredValue entries items name := by
  rw [layeredValue, layeredValue, optionValue_withoutSource h]

/-- Arguments override the configuration file, row by row: whatever the file says of a row that they
give makes no difference. Only a source pattern does not override a list of files; it makes no
difference itself where the file has such a list and the arguments have no files. -/
theorem resolveBelow_without [Codecs] {row : OptionRow} (hentries : (Value.map entries).IsJson)
    (hgiven : row.IsGivenBy items) :
    (¬ (row = .sources ∧ HidesSource entries items) →
      resolveBelow t entries items = resolveBelow t (row.without entries) items) ∧
    (HidesSource entries items →
      resolveBelow t entries items = resolveBelow t entries (withoutSource items)) := by
  constructor
  · intro hseen
    have hother : ∀ name, name ∉ row.names →
        layeredValue entries items name = layeredValue (row.without entries) items name :=
      fun name hname => (OptionRow.layeredValue_without (.inl hname)).symm
    apply resolveBelow_congr hentries (OptionRow.isJson_without hentries)
    · by_cases hrow : row = .widths
      · rw [hrow] at hgiven ⊢
        exact (widths_without hgiven).symm
      · rw [hother "widths" (by cases row <;> simp [OptionRow.names] at hrow ⊢),
          hother "width" (by cases row <;> simp [OptionRow.names] at hrow ⊢)]
    · by_cases hrow : row = .sources
      · rw [hrow] at hgiven ⊢
        exact (source_without hgiven fun hides => hseen ⟨hrow, hides⟩).symm
      · rw [hother "files" (by cases row <;> simp [OptionRow.names] at hrow ⊢),
          hother "src" (by cases row <;> simp [OptionRow.names] at hrow ⊢)]
    · intro name hname
      by_cases hmem : name ∈ row.names
      · -- a row with a name that is read on its own has no other name
        have hnames : row.names = [name] := by
          simp only [Configuration.singleNames, List.mem_cons, List.not_mem_nil, or_false] at hname
          rcases hname with rfl | rfl | rfl | rfl | rfl | rfl <;> cases row <;>
            simp [OptionRow.names] at hmem ⊢
        obtain ⟨given, hgivenName, hvalue⟩ := hgiven
        rw [hnames, List.mem_singleton] at hgivenName
        rw [hgivenName] at hvalue
        exact (OptionRow.layeredValue_without (.inr hvalue)).symm
      · exact hother name hmem
  · rintro ⟨hfiles, hlist⟩
    have hsame : ∀ name, name ≠ "src" →
        layeredValue entries items name = layeredValue entries (withoutSource items) name :=
      fun name hname => (layeredValue_withoutSource hname).symm
    apply resolveBelow_congr hentries hentries
    · rw [hsame "widths" (by decide), hsame "width" (by decide)]
    · rw [← hsame "files" (by decide), layeredValue_files_of_isNull hfiles, firstGiven, firstGiven,
        if_pos hlist, if_pos hlist]
    · intro name hname
      apply hsame
      rintro rfl
      revert hname
      decide

/-- A configuration file with files and a width of its own. -/
private theorem isJson_fileOptions : (Value.map [(.text "files", .list [.text "a.css"]),
    (.text "width", .text "8"), (.text "dest", .text "o.css")]).IsJson := by
  constructor
  · simp
  · intro entry hentry
    simp only [List.mem_cons, List.not_mem_nil, or_false] at hentry
    rcases hentry with rfl | rfl | rfl
    · constructor
      intro v hv
      obtain rfl := List.mem_singleton.mp hv
      exact .text _
    · exact .text _
    · exact .text _

/-- Widths among the arguments override those of the file, and its files hide a source pattern. -/
theorem resolveBelow_without_widths :
    let t : FileTree := ⟨[(["a.css"], .file []), (["b.css"], .file [])], []⟩
    let entries : List (Value × Value) := [(.text "files", .list [.text "a.css"]),
      (.text "width", .text "8"), (.text "dest", .text "o.css")]
    let items : List Item := [.text .source "b.css", .text .widths "9"]
    (Value.map entries).IsJson ∧ OptionRow.widths.IsGivenBy items ∧ HidesSource entries items ∧
      resolveBelow t entries items = resolveBelow t (OptionRow.widths.without entries) items ∧
      resolveBelow t entries items = resolveBelow t entries (withoutSource items) := by
  intro t entries items
  have hgiven : OptionRow.widths.IsGivenBy items := by
    refine ⟨"widths", ?_, rfl⟩
    simp [OptionRow.names]
  have hhides : HidesSource entries items := by
    decide +kernel
  obtain ⟨hwidths, hsource⟩ := resolveBelow_without (t := t) isJson_fileOptions hgiven
  refine ⟨isJson_fileOptions, hgiven, hhides, hwidths ?_, hsource hhides⟩
  rintro ⟨hrow, -⟩
  cases hrow

/-- A source pattern among the arguments does not override the files of a configuration file. -/
theorem files_override_source_argument :
    ¬ ∀ (t : FileTree) (entries : List (Value × Value)) (items : List Item) (row : OptionRow),
      (Value.map entries).IsJson → row.IsGivenBy items →
      (resolveBelow t entries items).2.toOption.map Configuration.files =
        (resolveBelow t (row.without entries) items).2.toOption.map Configuration.files := by
  intro h
  let t : FileTree := ⟨[(["a.css"], .file []), (["b.css"], .file [])], []⟩
  let items : List Item := [.text .source "b.css"]
  have hgiven : OptionRow.sources.IsGivenBy items := by
    refine ⟨"src", ?_, rfl⟩
    simp [OptionRow.names]
  have hsame := h t _ items .sources isJson_fileOptions hgiven
  revert hsame
  decide +kernel

end CommandLine

end MediaSplit
