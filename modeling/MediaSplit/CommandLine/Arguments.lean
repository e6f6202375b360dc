import MediaSplit.Text.Quoted

/-!
The arguments of the command line. Options and files may be mixed; after two dashes that stand
alone everything is a file. The arguments are read from left to right up to the first that cannot
be understood. They are taken to be texts; bytes that are none are not dealt with.
-/

namespace MediaSplit.CommandLine

inductive TextOption where
  | source
  | dest
  | ignore
  | widths
  | extract
  | strippedSuffix
  | encoding
  | config
  deriving DecidableEq, Repr

inductive Flag where
  | version
  | help
  | inPlace (on : Bool)
  | verbose
  deriving DecidableEq, Repr

inductive Item where
  | text (option : TextOption) (value : String)
  | flag (f : Flag)
  | file (path : String)
  deriving DecidableEq, Repr

inductive UsageProblem where
  | unknownOption (name : String)
  | missingValue (name : String)
  | unexpectedValue (name : String)
  | configMissing (path : String)
  | configIsDirectory (path : String)
  | fileIsDirectory (path : String)
  deriving DecidableEq, Repr

namespace UsageProblem

def quotedName (name : String) : String :=
  String.ofList (Text.quoted name.toList)

def message : UsageProblem → String
  | .unknownOption name => "No such option " ++ quotedName name ++ "."
  | .missingValue name => "Option " ++ quotedName name ++ " requires an argument."
  | .unexpectedValue name => "Option " ++ quotedName name ++ " does not take a value."
  | .configMissing path =>
      "Invalid value for '--config': File " ++ quotedName path ++ " does not exist."
  | .configIsDirectory path =>
      "Invalid value for '--config': File " ++ quotedName path ++ " is a directory."
  | .fileIsDirectory path =>
      "Invalid value for '[FILES]...': File " ++ quotedName path ++ " is a directory."

/-- Whether the message comes with a hint on how the program is used. -/
def hasHint : UsageProblem → Bool
  | .missingValue _ | .unexpectedValue _ => false
  | _ => true

end UsageProblem

inductive LongOption where
  | text (option : TextOption)
  | flag (f : Flag)
  deriving DecidableEq, Repr

def longOptions : List (String × LongOption) :=
  [("--src", .text .source), ("--dest", .text .dest), ("--ignore", .text .ignore),
    ("--widths", .text .widths), ("--width", .text .widths), ("--extract", .text .extract),
    ("--stripped-suffix", .text .strippedSuffix), ("--strippedSuffix", .text .strippedSuffix),
    ("--encoding", .text .encoding), ("--config", .text .config),
    ("--override-original", .flag (.inPlace true)),
    ("--overrideOriginal", .flag (.inPlace true)),
    ("--no-override-original", .flag (.inPlace false)),
    ("--verbose", .flag .verbose), ("--version", .flag .version), ("--help", .flag .help)]

/-- The name of an option, and the value that follows it after an equals sign. -/
def splitValue (argument : List Char) : List Char × Option (List Char) :=
  match argument.dropWhile (· != '=') with
  | [] => (argument, none)
  | _ :: value => (argument.takeWhile (· != '='), some value)

/-- Options of one letter, several of which may share a dash. Only one is known. -/
def readLetters : List Char → Except UsageProblem (List Item)
  | [] => .ok []
  | letter :: letters =>
      if letter = 'v' then do
        let items ← readLetters letters
        .ok (.flag .verbose :: items)
      else .error (.unknownOption (String.ofList ['-', letter]))

/-- Whether an argument is an option. A dash that stands alone is a file. -/
def isOption : List Char → Bool
  | '-' :: _ :: _ => true
  | _ => false

/-- Reads the arguments. The argument after an option that takes a text is its value, even if it
looks like an option. -/
def readArguments : List String → Except UsageProblem (List Item)
  | [] => .ok []
  | argument :: rest =>
      if argument = "--" then .ok (rest.map .file)
      else if !isOption argument.toList then do
        let items ← readArguments rest
        .ok (.file argument :: items)
      else
        let (nameChars, value) := splitValue argument.toList
        let name := String.ofList nameChars
        match longOptions.lookup name, value with
        | some (.text option), some value => do
            let items ← readArguments rest
            .ok (.text option (String.ofList value) :: items)
        | some (.text option), none =>
            match rest with
            | [] => .error (.missingValue name)
            | value :: rest => do
                let items ← readArguments rest
                .ok (.text option value :: items)
        | some (.flag f), none => do
            let items ← readArguments rest
            .ok (.flag f :: items)
        | some (.flag _), some _ => .error (.unexpectedValue name)
        | none, _ =>
            if ['-', '-'].isPrefixOf argument.toList then .error (.unknownOption name)
            else do
              let letters ← readLetters (argument.toList.drop 1)
              let items ← readArguments rest
              .ok (letters ++ items)

namespace Item

def files (items : List Item) : List String :=
  items.filterMap fun
    | .file path => some path
    | _ => none

def values (option : TextOption) (items : List Item) : List String :=
  items.filterMap fun
    | .text o value => if o = option then some value else none
    | _ => none

/-- The value of an option that has one value. Of several the last counts. -/
def value? (option : TextOption) (items : List Item) : Option String :=
  (values option items).getLast?

def flags (items : List Item) : List Flag :=
  items.filterMap fun
    | .flag f => some f
    | _ => none

/-- Whether sources are to be written in place, if that is said. The last word counts. -/
def inPlace? (items : List Item) : Option Bool :=
  ((flags items).filterMap fun
    | .inPlace on => some on
    | _ => none).getLast?

def verbosity (items : List Item) : Nat :=
  (flags items).count .verbose

/-- The first request to say something about the program and to do nothing else. -/
def inquiry? (items : List Item) : Option Flag :=
  (flags items).find? fun f => f = .version || f = .help

end Item

end MediaSplit.CommandLine
