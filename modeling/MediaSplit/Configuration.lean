import MediaSplit.Encoding
import MediaSplit.Files.Selection
import MediaSplit.Json.Fault
import MediaSplit.Options
import MediaSplit.WidthSet

/-!
The configuration of a run, made from options. Options are looked at one after the other, and the
first that is missing or makes no sense is reported; files are looked at last, and none is
written or read.
-/

namespace MediaSplit

/-- What a run needs to know. A source that is written in place is overwritten; otherwise a copy is
made whose name has the suffix. -/
structure Configuration where
  files : List String
  dest : String
  widths : WidthSet
  extract : WidthSet
  inPlace : Bool
  strippedSuffix : String
  encoding : String

inductive UnreadableCause where
  | path (fault : PathFault)
  | json (text : List Char) (fault : Json.Fault)
  deriving DecidableEq, Repr

def UnreadableCause.message : UnreadableCause → String
  | .path fault => fault.message
  | .json text fault => fault.message text

inductive ConfigProblem where
  | missing (field : String)
  | badWidths (field : String) (u : WidthSet.Unsupported)
  | unknownEncoding (name : String)
  | emptySuffix
  | noSource
  | noMatch (source : Value)
  | unreadable (path : String) (cause : UnreadableCause)
  | notObject (path : String)

namespace ConfigProblem

def field : ConfigProblem → String
  | .missing field | .badWidths field _ => field
  | .unknownEncoding _ => "encoding"
  | .emptySuffix => "strippedSuffix"
  | .noSource | .noMatch _ => "src"
  | .unreadable _ _ | .notObject _ => "config"

def missingText (field : String) : String :=
  "Missing required option: " ++ field

def message : ConfigProblem → String
  | .missing field => missingText field
  | .badWidths field u => "Invalid value for " ++ field ++ ": " ++ u.message
  | .unknownEncoding name => "Unknown encoding: " ++ name
  | .emptySuffix => "strippedSuffix must not be empty"
  | .noSource => missingText "src (or a list of files)"
  | .noMatch source => "No source files matched " ++ source.shownInside
  | .unreadable path cause => "Cannot read config file " ++ path ++ ": " ++ cause.message
  | .notObject path => "Config file " ++ path ++ " must contain a JSON object"

end ConfigProblem

/-- Why options give no configuration: a problem that names an option, or values of a kind that
no option can have. Of options with half of a surrogate pair nothing is known but that there is one;
what becomes of them depends on the option and on whether it is used at all. -/
inductive ConfigFault where
  | problem (p : ConfigProblem)
  | options (fault : OptionsFault)
  | paths (fault : PathsFault)
  | encodingName (fault : Encoding.NameFault)
  | undecodable (fault : Encoding.DecodeFault)
  | oversizedInteger (digits : Nat)
  | halfPair

def ConfigFault.message : ConfigFault → String
  | .problem p => p.message
  | .options fault => fault.message
  | .paths fault => fault.message
  | .encodingName fault => fault.message
  | .undecodable fault => fault.message
  | .oversizedInteger digits => oversizedMessage digits
  | .halfPair => "surrogates not allowed"

namespace Configuration

def defaults : Value :=
  .map [(.text "extract", .null), (.text "ignore", .null),
    (.text "override_original", .bool false), (.text "stripped_suffix", .text "stripped"),
    (.text "encoding", .text "utf-8")]

def optionValue (options : Options) (key : String) : Value :=
  (Table.get? options key).getD .null

/-- The first of several values that counts as given, else the last of them. -/
def firstGiven (a b : Value) : Value :=
  if a.isGiven then a else b

/-- The widths that the first of these options gives that is not null. -/
def widthsOption (options : Options) (field : String) (keys : List String) :
    Except ConfigFault WidthSet :=
  let value := (keys.map (optionValue options)).find? fun v => !v.isNull
  match WidthSet.ofValue (value.getD .null) with
  | .ok widths => .ok widths
  | .error u => .error (.problem (.badWidths field u))

/-- Accepts the name of any known encoding, whether or not it is one of text. -/
def checkEncoding [Codecs] (name : String) : Except ConfigFault Unit :=
  match Encoding.named? name with
  | .ok _ => .ok ()
  | .error .nul => .error (.encodingName .nul)
  | .error _ => .error (.problem (.unknownEncoding name))

structure Draft where
  configuration : Configuration
  source : Value
  ignore : Value

def draft [Codecs] (options : Options) : Except ConfigFault Draft := do
  let widths ← widthsOption options "widths" ["widths", "width"]
  if widths.isEmpty then throw (.problem (.missing "widths"))
  let dest := optionValue options "dest"
  if !dest.isGiven then throw (.problem (.missing "dest"))
  let extract ← widthsOption options "extract" ["extract"]
  let encoding := (firstGiven (optionValue options "encoding") (.text "utf-8")).shown
  checkEncoding encoding
  let suffix :=
    cleanSuffix (firstGiven (optionValue options "stripped_suffix") (.text "")).shown
  if suffix.isEmpty then throw (.problem .emptySuffix)
  let source := firstGiven (optionValue options "files") (optionValue options "src")
  if !source.isGiven then throw (.problem .noSource)
  return {
    configuration := {
      files := []
      dest := dest.shown
      widths := widths
      extract := extract
      inPlace := (optionValue options "override_original").isGiven
      strippedSuffix := suffix
      encoding := encoding
    }
    source := source
    ignore := optionValue options "ignore"
  }

def withDefaults (options : Value) : Except ConfigFault Options :=
  match mergeOptions [defaults, options] with
  | .ok merged => .ok merged
  | .error fault => .error (.options fault)

def finish (d : Draft) (judged : List (String × Selection.Verdict)) :
    Except ConfigFault Configuration :=
  let files := Selection.kept judged
  if files.isEmpty then .error (.problem (.noMatch d.source))
  else .ok { d.configuration with files := files }

/-- A configuration, or why there is none, and what became of each path that was asked for. -/
def resolveJudged [Codecs] (t : FileTree) (options : Value) :
    List (String × Selection.Verdict) × Except ConfigFault Configuration :=
  match withDefaults options >>= draft with
  | .error fault => ([], .error fault)
  | .ok d =>
      match Selection.judgeAll t d.source d.ignore d.configuration.dest
          d.configuration.strippedSuffix with
      | .error fault => ([], .error (.paths fault))
      | .ok judged => (judged, finish d judged)

def resolve [Codecs] (t : FileTree) (options : Value) : Except ConfigFault Configuration :=
  (resolveJudged t options).2

end Configuration

end MediaSplit
