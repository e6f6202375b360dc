import MediaSplit.CommandLine
import MediaSplit.Encoding.HostNames
import MediaSplit.Proofs.Files.CopyNames
import MediaSplit.Proofs.Files.Globbing
import MediaSplit.Proofs.Merging

/-!
What options come to. They give a configuration, or the first of them that makes no sense is
reported, by its name and with what is wrong with it. Beside these there are a few values that
nothing reports, as an encoding or a pattern with a null character and paths that are no texts, and
two things in a configuration file: bytes that are no text, and an integer with too many digits.
-/

namespace MediaSplit

/-- The ways in which a request for options is answered: with something that has a property, with a
problem that is one, or with a fault that was not foreseen. -/
inductive Answers {α : Type} (Offends : ConfigProblem → Prop) (Unforeseen : ConfigFault → Prop)
    (P : α → Prop) : Except ConfigFault α → Prop where
  | given {a : α} (good : P a) : Answers Offends Unforeseen P (.ok a)
  | reported {p : ConfigProblem} (offends : Offends p) :
      Answers Offends Unforeseen P (.error (.problem p))
  | unforeseen {fault : ConfigFault} (strange : Unforeseen fault) :
      Answers Offends Unforeseen P (.error fault)

namespace Answers

variable {α β : Type} {Offends Offends' : ConfigProblem → Prop}
  {Unforeseen Unforeseen' : ConfigFault → Prop} {P : α → Prop} {Q : β → Prop}
  {x : Except ConfigFault α}

theorem bind {next : α → Except ConfigFault β} (h : Answers Offends Unforeseen P x)
    (hnext : ∀ a, P a → Answers Offends Unforeseen Q (next a)) :
    Answers Offends Unforeseen Q (x >>= next) := by
  cases h with
  | given good => exact hnext _ good
  | reported offends => exact .reported offends
  | unforeseen strange => exact .unforeseen strange

theorem map {f : α → β} (h : Answers Offends Unforeseen P x) (hf : ∀ a, P a → Q (f a)) :
    Answers Offends Unforeseen Q (x.map f) := by
  cases h with
  | given good => exact .given (hf _ good)
  | reported offends => exact .reported offends
  | unforeseen strange => exact .unforeseen strange

theorem mono (h : Answers Offends Unforeseen P x) (hoffends : ∀ p, Offends p → Offends' p)
    (hunforeseen : ∀ fault, Unforeseen fault → Unforeseen' fault) :
    Answers Offends' Unforeseen' P x := by
  cases h with
  | given good => exact .given good
  | reported offends => exact .reported (hoffends _ offends)
  | unforeseen strange => exact .unforeseen (hunforeseen _ strange)

end Answers

namespace Configuration

def firstValue (options : Options) (keys : List String) : Value :=
  ((keys.map (optionValue options)).find? fun v => !v.isNull).getD .null

def encodingOf (options : Options) : String :=
  (firstGiven (optionValue options "encoding") (.text "utf-8")).shown

def suffixOf (options : Options) : String :=
  cleanSuffix (firstGiven (optionValue options "stripped_suffix") (.text "")).shown

def sourceOf (options : Options) : Value :=
  firstGiven (optionValue options "files") (optionValue options "src")

/-- What makes an option a problem. -/
inductive Offends [Codecs] (t : FileTree) (options : Options) : ConfigProblem → Prop where
  | badWidths {u : WidthSet.Unsupported}
      (unsupported : WidthSet.ofValue (firstValue options ["widths", "width"]) = .error u) :
      Offends t options (.badWidths "widths" u)
  | noWidths {w : WidthSet}
      (given : WidthSet.ofValue (firstValue options ["widths", "width"]) = .ok w)
      (empty : w.isEmpty = true) : Offends t options (.missing "widths")
  | noDest (missing : (optionValue options "dest").isGiven = false) :
      Offends t options (.missing "dest")
  | badExtract {u : WidthSet.Unsupported}
      (unsupported : WidthSet.ofValue (firstValue options ["extract"]) = .error u) :
      Offends t options (.badWidths "extract" u)
  | unknownEncoding {fault : Encoding.NameFault}
      (unknown : Encoding.named? (encodingOf options) = .error fault) :
      Offends t options (.unknownEncoding (encodingOf options))
  | emptySuffix (empty : (suffixOf options).isEmpty = true) : Offends t options .emptySuffix
  | noSource (missing : (sourceOf options).isGiven = false) : Offends t options .noSource
  | noMatch {dest : String} {judged : List (String × Selection.Verdict)}
      (found : Selection.judgeAll t (sourceOf options) (optionValue options "ignore") dest
        (suffixOf options) = .ok judged)
      (none : Selection.kept judged = []) : Offends t options (.noMatch (sourceOf options))

/-- What is wrong with options that no problem tells of. -/
inductive Unforeseen (options : Options) : ConfigFault → Prop where
  | encoding (nul : '\x00' ∈ (encodingOf options).toList) :
      Unforeseen options (.encodingName .nul)
  | paths {fault : PathsFault}
      (strange : ¬ (sourceOf options).NamesPaths ∨ ¬ (optionValue options "ignore").NamesPaths) :
      Unforeseen options (.paths fault)

section Draft

variable (t : FileTree) (options : Options)

theorem widthsOption_cases (field : String) (keys : List String) :
    (∃ w, WidthSet.ofValue (firstValue options keys) = .ok w ∧
      widthsOption options field keys = .ok w) ∨
    ∃ u, WidthSet.ofValue (firstValue options keys) = .error u ∧
      widthsOption options field keys = .error (.problem (.badWidths field u)) := by
  unfold widthsOption firstValue
  simp only
  cases WidthSet.ofValue
      (((keys.map (optionValue options)).find? fun v => !v.isNull).getD .null) with
  | ok w => exact .inl ⟨w, rfl, rfl⟩
  | error u => exact .inr ⟨u, rfl, rfl⟩

theorem widthsOption_answers [Codecs] : Answers (Offends t options) (Unforeseen options)
    (fun w => WidthSet.ofValue (firstValue options ["widths", "width"]) = .ok w)
    (widthsOption options "widths" ["widths", "width"]) := by
  obtain ⟨w, hw, heq⟩ | ⟨u, hu, heq⟩ :=
    widthsOption_cases options "widths" ["widths", "width"]
  · rw [heq]
    exact .given hw
  · rw [heq]
    exact .reported (.badWidths hu)

theorem extractOption_answers [Codecs] :
    Answers (Offends t options) (Unforeseen options) (fun _ => True)
      (widthsOption options "extract" ["extract"]) := by
  obtain ⟨w, -, heq⟩ | ⟨u, hu, heq⟩ := widthsOption_cases options "extract" ["extract"]
  · rw [heq]
    exact .given trivial
  · rw [heq]
    exact .reported (.badExtract hu)

theorem checkEncoding_answers [Codecs] :
    Answers (Offends t options) (Unforeseen options) (fun _ => True)
      (checkEncoding (encodingOf options)) := by
  have hnul : Encoding.named? (encodingOf options) = .error .nul →
      '\x00' ∈ (encodingOf options).toList := by
    intro h
    unfold Encoding.named? at h
    split at h
    · rename_i hcontains
      simpa using hcontains
    · split at h
      · cases h
      · split at h <;> cases h
  unfold checkEncoding
  split
  · exact .given trivial
  · rename_i heq
    exact .unforeseen (.encoding (hnul heq))
  · rename_i heq
    exact .reported (.unknownEncoding heq)

/-- A draft has the sources and the suffix of its options. -/
theorem draft_answers [Codecs] : Answers (Offends t options) (Unforeseen options)
    (fun d => d.source = sourceOf options ∧ d.ignore = optionValue options "ignore" ∧
      d.configuration.strippedSuffix = suffixOf options) (draft options) := by
  unfold draft
  apply (widthsOption_answers t options).bind
  intro widths hwidths
  split
  · rename_i hempty
    exact .reported (.noWidths hwidths hempty)
  · simp only
    split
    · rename_i hmissing
      exact .reported (.noDest (by simpa using hmissing))
    · apply (extractOption_answers t options).bind
      intro extract _
      apply (checkEncoding_answers t options).bind
      intro _ _
      split
      · rename_i hempty
        exact .reported (.emptySuffix hempty)
      · split
        · rename_i hmissing
          apply Answers.reported
          apply Offends.noSource
          simpa [sourceOf] using hmissing
        · exact .given ⟨rfl, rfl, rfl⟩

end Draft

theorem defaults_isJson : defaults.IsJson := by
  constructor
  · simp
  · intro entry hentry
    simp only [List.mem_cons, List.not_mem_nil, or_false] at hentry
    rcases hentry with rfl | rfl | rfl | rfl | rfl
    · exact .null
    · exact .null
    · exact .bool false
    · exact .text "stripped"
    · exact .text "utf-8"

/-- Options that JSON can write down always take the defaults. -/
theorem exists_withDefaults {entries : List (Value × Value)} (h : (Value.map entries).IsJson) :
    ∃ options, withDefaults (.map entries) = .ok options := by
  obtain ⟨merged, hmerged, -⟩ := @Options.exists_merge _ [] Value.isTextKeyed_isJson
    [defaults, .map entries] (by simp [defaults_isJson, h]) (by simp [defaults, Value.IsLayer])
    Options.allHave_nil
  refine ⟨merged, ?_⟩
  unfold withDefaults mergeOptions
  rw [hmerged]

/-- With their defaults, options give a configuration or a reason why there is none. -/
theorem resolve_answers [Codecs] {t : FileTree} (ht : t.HasCleanNames) {options : Value}
    {merged : Options} (hmerged : withDefaults options = .ok merged) :
    Answers (Offends t merged) (Unforeseen merged) (fun _ => True) (resolve t options) := by
  have hdraft := draft_answers t merged
  unfold resolve resolveJudged
  rw [hmerged]
  simp only [bind, Except.bind]
  cases hresult : draft merged with
  | error fault =>
      rw [hresult] at hdraft
      cases hdraft with
      | reported offends => exact .reported offends
      | unforeseen strange => exact .unforeseen strange
  | ok d =>
      rw [hresult] at hdraft
      cases hdraft with
      | given good =>
          obtain ⟨hsource, hignore, hsuffix⟩ := good
          simp only [hsource, hignore, hsuffix]
          cases hjudged : Selection.judgeAll t (sourceOf merged) (optionValue merged "ignore")
              d.configuration.dest (suffixOf merged) with
          | error fault =>
              apply Answers.unforeseen
              apply Unforeseen.paths
              by_contra hnames
              push Not at hnames
              obtain ⟨judged, heq⟩ := Selection.exists_judgeAll ht hnames.1 hnames.2
                d.configuration.dest (suffixOf merged)
              cases hjudged.symm.trans heq
          | ok judged =>
              simp only [finish]
              split
              · rename_i hnone
                rw [hsource]
                exact .reported (.noMatch hjudged (List.isEmpty_iff.mp hnone))
              · exact .given trivial

end Configuration

theorem Path.clean_tidy {path : List Char} (h : '\x00' ∉ path) : '\x00' ∉ tidy path := by
  have hsteps : '\x00' ∉ ['/'].intercalate (steps path) := by
    apply Glob.clean_intercalate
    intro step hstep hmem
    exact h (mem_of_mem_parts (List.mem_of_mem_filter hstep) hmem)
  have hroot : '\x00' ∉ (if startsWithTwoSlashes path then ['/', '/']
      else if path.head? = some '/' then ['/'] else []) := by
    split
    · simp
    · split <;> simp
  unfold tidy
  simp only
  generalize (if startsWithTwoSlashes path then ['/', '/']
    else if path.head? = some '/' then ['/'] else []) = root at hroot ⊢
  split
  · simp
  · exact List.not_mem_append hroot hsteps

/-- A path without a null character is one. -/
theorem FileTree.read_ne_nul (t : FileTree) {path : String} (h : '\x00' ∉ path.toList) :
    t.read path ≠ .error .nul := by
  intro hread
  unfold read at hread
  rw [onPath_of_clean (by simpa using h)] at hread
  generalize (t.find path >>= _ : Except PathTrouble (List UInt8)) = result at hread
  cases result <;> cases hread

namespace ConfigFile

def pathOf (path : String) : String :=
  String.ofList (Path.tidy path.toList)

/-- That a configuration file holds a text, its line ends being line feeds. -/
def HasText [Codecs] (t : FileTree) (path : String) (text : List Char) : Prop :=
  ∃ bytes chars, t.read (pathOf path) = .ok bytes ∧
    Encoding.decode (.utf8 false) bytes = .ok chars ∧ text = unifyLineEnds chars

/-- What makes a configuration file a problem. -/
inductive Offends [Codecs] (t : FileTree) (path : String) : ConfigProblem → Prop where
  | unread {trouble : PathTrouble} {place : String}
      (unread : t.read (pathOf path) = .error (.trouble trouble place)) :
      Offends t path (.unreadable path (.path (.trouble trouble place)))
  | malformed {text : List Char} {problem : Json.Problem} {left : Nat} (holds : HasText t path text)
      (malformed : Json.read text = .error (.malformed problem left)) :
      Offends t path (.unreadable path (.json text (.malformed problem left)))
  | notObject {text : List Char} {value : Value} (holds : HasText t path text)
      (read : Json.read text = .ok value) (other : ∀ entries, value ≠ .map entries) :
      Offends t path (.notObject path)

/-- What is wrong with a configuration file that no problem tells of. -/
inductive Unforeseen [Codecs] (t : FileTree) (path : String) : ConfigFault → Prop where
  | notText {bytes : List UInt8} {fault : Encoding.DecodeFault}
      (read : t.read (pathOf path) = .ok bytes)
      (notText : Encoding.decode (.utf8 false) bytes = .error fault) :
      Unforeseen t path (.undecodable fault)
  | longInteger {text : List Char} {digits : Nat} (holds : HasText t path text)
      (long : Json.HasLongInteger digits text) : Unforeseen t path (.oversizedInteger digits)
  | halfPair {text : List Char} {entries : List (Value × Value)} (holds : HasText t path text)
      (read : Json.read text = .ok (.map entries)) (half : Json.hasHalfPair text = true) :
      Unforeseen t path .halfPair

theorem load_answers [Codecs] (t : FileTree) {path : String} (hpath : '\x00' ∉ path.toList) :
    Answers (Offends t path) (Unforeseen t path)
      (fun options => (∃ entries, options = .map entries) ∧ options.IsJson) (load t path) := by
  have hclean : '\x00' ∉ (pathOf path).toList := by
    simpa [pathOf] using Path.clean_tidy hpath
  unfold load
  split
  · rename_i hread
    exact absurd hread (t.read_ne_nul hclean)
  · rename_i fault hnul hread
    cases fault with
    | nul => exact absurd rfl hnul
    | trouble trouble place => exact .reported (.unread hread)
  · rename_i bytes hread
    split
    · rename_i fault hdecode
      exact .unforeseen (.notText hread hdecode)
    · rename_i chars hdecode
      have hholds : HasText t path (unifyLineEnds chars) := ⟨bytes, chars, hread, hdecode, rfl⟩
      have hparse : Answers (Offends t path) (Unforeseen t path)
          (fun value => Json.read (unifyLineEnds chars) = .ok value)
          (parse path (unifyLineEnds chars)) := by
        unfold parse
        split
        · rename_i value hvalue
          exact .given hvalue
        · rename_i digits hlong
          exact .unforeseen (.longInteger hholds (Json.hasLongInteger_of_read hlong))
        · rename_i fault hother hfault
          cases fault with
          | oversizedInteger digits => exact absurd rfl (hother digits)
          | malformed problem left => exact .reported (.malformed hholds hfault)
      apply hparse.bind
      intro value hvalue
      split
      · split
        · rename_i hhalf
          exact .unforeseen (.halfPair hholds hvalue hhalf)
        · exact .given ⟨⟨_, rfl⟩, Json.isJson_of_read hvalue⟩
      · rename_i hother
        exact .reported (.notObject hholds hvalue hother)

end ConfigFile

namespace CommandLine

variable {t : FileTree} {items : List Item}

/-- What makes a call a problem: its configuration file, or an option. -/
inductive Offends [Codecs] (t : FileTree) (items : List Item) : ConfigProblem → Prop where
  | file {path : String} {p : ConfigProblem} (named : Item.value? .config items = some path)
      (offends : ConfigFile.Offends t path p) : Offends t items p
  | option {options : Value} {merged : Options} {p : ConfigProblem}
      (asked : mergedOptions t items = .ok options)
      (completed : Configuration.withDefaults options = .ok merged)
      (offends : Configuration.Offends t merged p) : Offends t items p

/-- What is wrong with a call that no problem tells of. -/
inductive Unforeseen [Codecs] (t : FileTree) (items : List Item) : ConfigFault → Prop where
  | file {path : String} {fault : ConfigFault} (named : Item.value? .config items = some path)
      (strange : ConfigFile.Unforeseen t path fault) : Unforeseen t items fault
  | option {options : Value} {merged : Options} {fault : ConfigFault}
      (asked : mergedOptions t items = .ok options)
      (completed : Configuration.withDefaults options = .ok merged)
      (strange : Configuration.Unforeseen merged fault) : Unforeseen t items fault

private theorem isJson_optional {value : Option Value} (h : ∀ v, value = some v → v.IsJson) :
    (optional value).IsJson := by
  cases value with
  | none => exact .null
  | some v => exact h v rfl

private theorem isJson_listOption (texts : List String) : (listOption texts).IsJson := by
  unfold listOption
  split
  · exact .null
  · constructor
    intro v hv
    obtain ⟨text, -, rfl⟩ := List.mem_map.mp hv
    exact .text text

private theorem isJson_widthsOption (texts : List String) : (widthsOption texts).IsJson := by
  unfold widthsOption
  split
  · exact .null
  · exact .text _

theorem isJson_optionsOf (items : List Item) : (optionsOf items).IsJson := by
  have htext : ∀ option, (optional ((Item.value? option items).map .text)).IsJson := by
    intro option
    apply isJson_optional
    intro v hv
    obtain ⟨text, -, rfl⟩ := Option.map_eq_some_iff.mp hv
    exact .text text
  have hbool : (optional ((Item.inPlace? items).map .bool)).IsJson := by
    apply isJson_optional
    intro v hv
    obtain ⟨on, -, rfl⟩ := Option.map_eq_some_iff.mp hv
    exact .bool on
  constructor
  · simp
  · simp only [List.forall_mem_cons, List.not_mem_nil, false_implies, implies_true,
      isJson_listOption, isJson_widthsOption, htext, hbool, and_self]

theorem clean_of_checkPaths (h : checkPaths t items = .ok ()) {path : String}
    (hpath : Item.value? .config items = some path) : '\x00' ∉ path.toList := by
  intro hnul
  have hrefused : lookUp t path = .error (.crash (.work (.path .nul))) := by
    unfold lookUp FileTree.onPath
    rw [if_pos (by simpa using hnul)]
  unfold checkPaths checkConfig at h
  rw [hpath] at h
  simp only [hrefused, bind, Except.bind] at h
  cases h

/-- The layers of a call are mappings that JSON can write down, so they can be merged. -/
theorem mergedOptions_answers [Codecs] (hpaths : checkPaths t items = .ok ()) :
    Answers (Offends t items) (Unforeseen t items)
      (fun options => (∃ entries, options = .map entries) ∧ options.IsJson)
      (mergedOptions t items) := by
  have hlayers : Answers (Offends t items) (Unforeseen t items)
      (fun layers => ∀ layer ∈ layers, (∃ entries, layer = Value.map entries) ∧ layer.IsJson)
      (fileLayers t items) := by
    unfold fileLayers
    split
    · rename_i path hpath
      have hload := (ConfigFile.load_answers t (clean_of_checkPaths hpaths hpath)).mono
        (fun p => Offends.file hpath) fun fault => Unforeseen.file hpath
      apply hload.map
      intro options hoptions layer hlayer
      rwa [List.mem_singleton.mp hlayer]
    · exact .given (by simp)
  unfold mergedOptions
  apply hlayers.bind
  intro layers hlayers
  obtain ⟨merged, hmerged, hjson⟩ := @Options.exists_merge _ [] Value.isTextKeyed_isJson
    (layers ++ [optionsOf items])
    (by
      intro layer hlayer
      rcases List.mem_append.mp hlayer with hbelow | hown
      · exact (hlayers layer hbelow).2
      · rw [List.mem_singleton.mp hown]
        exact isJson_optionsOf items)
    (by
      intro layer hlayer
      rcases List.mem_append.mp hlayer with hbelow | hown
      · exact .inr (hlayers layer hbelow).1
      · rw [List.mem_singleton.mp hown]
        exact .inr ⟨_, rfl⟩) Options.allHave_nil
  rw [mergeOptions, hmerged]
  exact .given ⟨⟨_, rfl⟩, hjson.toEntries Value.isTextKeyed_isJson⟩

theorem configure_answers [Codecs] (ht : t.HasCleanNames) (hpaths : checkPaths t items = .ok ()) :
    Answers (Offends t items) (Unforeseen t items) (fun _ => True) (configure t items).2 := by
  have hmerged := mergedOptions_answers hpaths
  unfold configure
  cases hasked : mergedOptions t items with
  | error fault =>
      rw [hasked] at hmerged
      cases hmerged with
      | reported offends => exact .reported offends
      | unforeseen strange => exact .unforeseen strange
  | ok options =>
      rw [hasked] at hmerged
      cases hmerged with
      | given good =>
          obtain ⟨⟨entries, rfl⟩, hjson⟩ := good
          obtain ⟨merged, hcompleted⟩ := Configuration.exists_withDefaults hjson
          exact (Configuration.resolve_answers ht hcompleted).mono
            (fun p => Offends.option hasked hcompleted)
            fun fault => Unforeseen.option hasked hcompleted

/-- What was not foreseen crashes. -/
theorem Unforeseen.rejected [Codecs] {fault : ConfigFault} (h : Unforeseen t items fault)
    (lines : List Line) : rejected t lines fault = ⟨1, lines, some (.config fault), t⟩ := by
  cases h with
  | file named strange =>
      cases strange with
      | notText read notText => rfl
      | longInteger holds long => rfl
      | halfPair holds read half => rfl
  | option asked completed strange =>
      cases strange with
      | encoding nul => rfl
      | paths strange => rfl

/-- How a call ends, given the configuration that it comes to or the reason why there is none: the
option to blame is reported, with the exit code for that, or the program crashes; in both cases all
files are left alone. Nothing is said of a configuration file with half of a surrogate pair. -/
inductive Settled [Codecs] (t : FileTree) (items : List Item) (o : Outcome) :
    Except ConfigFault Configuration → Prop where
  | configured {c : Configuration} : Settled t items o (.ok c)
  | reported {p : ConfigProblem} (offends : Offends t items p) (exitCode : o.exitCode = 2)
      (last : o.lines.getLast? = some (.coloured .errors .red ("Error: " ++ p.message)))
      (noCrash : o.crash = none) (untouched : o.tree = t) : Settled t items o (.error (.problem p))
  | halfPair (strange : Unforeseen t items .halfPair) : Settled t items o (.error .halfPair)
  | unforeseen {fault : ConfigFault} (strange : Unforeseen t items fault)
      (whole : fault ≠ .halfPair) (exitCode : o.exitCode = 1)
      (crash : o.crash = some (.config fault)) (untouched : o.tree = t) :
      Settled t items o (.error fault)

/-- A call whose arguments can be used comes to a configuration, or it reports the option that is to
blame; there is nothing else but what was not foreseen. -/
theorem settled_of_obey [Codecs] (ht : t.HasCleanNames) (hinquiry : Item.inquiry? items = none)
    (hpaths : checkPaths t items = .ok ()) (schedule : Phase → List Nat) :
    Settled t items (obey schedule t items) (configure t items).2 := by
  have hanswers := configure_answers ht hpaths
  unfold obey
  simp only [hinquiry, hpaths]
  generalize configure t items = answer at hanswers ⊢
  obtain ⟨notices, result⟩ := answer
  cases hanswers with
  | given good => exact .configured
  | reported offends => exact .reported offends rfl List.getLast?_concat rfl rfl
  | @unforeseen fault strange =>
      have hrejected := strange.rejected (notices.filterMap (lineOfNotice? (Item.verbosity items)))
      by_cases hhalf : fault = .halfPair
      · subst hhalf
        exact .halfPair strange
      apply Settled.unforeseen strange hhalf
      · exact congrArg Outcome.exitCode hrejected
      · exact congrArg Outcome.crash hrejected
      · exact congrArg Outcome.tree hrejected

/-- Arguments that say nothing of a combined file. -/
theorem settled_of_obey_missing :
    let t : FileTree := ⟨[(["a.css"], .file [])], []⟩
    let items : List Item := [.text .source "*.css", .text .widths "8"]
    t.HasCleanNames ∧ Item.inquiry? items = none ∧ checkPaths t items = .ok () ∧
      (obey (fun _ => []) t items).exitCode = 2 ∧
      Settled t items (obey (fun _ => []) t items) (configure t items).2 := by
  intro t items
  have hclean : t.HasCleanNames := by
    unfold FileTree.HasCleanNames
    decide
  have hinquiry : Item.inquiry? items = none := by
    decide
  have hpaths : checkPaths t items = .ok () := by
    rfl
  refine ⟨hclean, hinquiry, hpaths, ?_, settled_of_obey hclean hinquiry hpaths fun _ => []⟩
  decide +kernel

/-- Bytes of a configuration file that are no text are not reported. -/
theorem crash_on_undecodable_config :
    ¬ ∀ (t : FileTree) (items : List Item) (schedule : Phase → List Nat), t.HasCleanNames →
      Item.inquiry? items = none → checkPaths t items = .ok () →
      (∃ c, (configure t items).2 = .ok c) ∨ (obey schedule t items).exitCode = 2 := by
  intro h
  let t : FileTree := ⟨[(["c.json"], .file [0xFF])], []⟩
  let items : List Item := [.text .config "c.json"]
  have hclean : t.HasCleanNames := by
    unfold FileTree.HasCleanNames
    decide
  rcases h t items (fun _ => []) hclean (by decide) rfl with ⟨c, hc⟩ | hexit
  · have hnone : (configure t items).2.toOption.isNone = true := by
      decide +kernel
    rw [hc] at hnone
    cases hnone
  · revert hexit
    decide +kernel

end CommandLine

end MediaSplit
