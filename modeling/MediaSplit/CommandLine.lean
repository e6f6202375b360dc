import MediaSplit.CommandLine.Arguments
import MediaSplit.CommandLine.Console
import MediaSplit.CommandLine.Help
import MediaSplit.ConfigFile
import MediaSplit.Splitter

/-!
The program as it is called from a command line. Arguments make a layer of options above those of
a configuration file, the options are resolved, and a run is shown on the console. The exit code
is zero for a run that went through, one for a run that failed and two for options that make no
sense.
-/

namespace MediaSplit.CommandLine

/-- A fault that no message was foreseen for. -/
inductive Crash where
  | config (fault : ConfigFault)
  | work (fault : Fault)

def Crash.message : Crash → String
  | .config fault => fault.message
  | .work fault => fault.message

structure Outcome where
  exitCode : Nat
  lines : List Line
  crash : Option Crash
  tree : FileTree

def optional (value : Option Value) : Value :=
  value.getD .null

def listOption (texts : List String) : Value :=
  if texts.isEmpty then .null else .list (texts.map .text)

def widthsOption (texts : List String) : Value :=
  if texts.isEmpty then .null else .text (",".intercalate texts)

def optionsOf (items : List Item) : Value :=
  .map [
    (.text "files", listOption (Item.files items)),
    (.text "src", listOption (Item.values .source items)),
    (.text "dest", optional ((Item.value? .dest items).map .text)),
    (.text "ignore", listOption (Item.values .ignore items)),
    (.text "widths", widthsOption (Item.values .widths items)),
    (.text "extract", widthsOption (Item.values .extract items)),
    (.text "override_original", optional ((Item.inPlace? items).map .bool)),
    (.text "stripped_suffix", optional ((Item.value? .strippedSuffix items).map .text)),
    (.text "encoding", optional ((Item.value? .encoding items).map .text))]

inductive Refusal where
  | usage (problem : UsageProblem)
  | crash (c : Crash)

/-- A path of the arguments: whether it is that of a directory, if something is there. A null
character makes it none at all. -/
def lookUp (t : FileTree) (path : String) : Except Refusal (Option Bool) :=
  match FileTree.onPath path (t.find path) with
  | .ok (_, entry) => .ok (some (entry = .directory))
  | .error .nul => .error (.crash (.work (.path .nul)))
  | .error _ => .ok none

def checkConfig (t : FileTree) (path : String) : Except Refusal Unit := do
  match ← lookUp t path with
  | none => throw (.usage (.configMissing path))
  | some true => throw (.usage (.configIsDirectory path))
  | some false => return ()

/-- A file may be missing, but must not be a directory. -/
def checkFile (t : FileTree) (path : String) : Except Refusal Unit := do
  match ← lookUp t path with
  | some true => throw (.usage (.fileIsDirectory path))
  | _ => return ()

def checkPaths (t : FileTree) (items : List Item) : Except Refusal Unit := do
  match Item.value? .config items with
  | some path => checkConfig t path
  | none => pure ()
  (Item.files items).forM (checkFile t)

/-- The layers that lie below the arguments: the configuration file, if one is given. -/
def fileLayers [Codecs] (t : FileTree) (items : List Item) : Except ConfigFault (List Value) :=
  match Item.value? .config items with
  | some path => (ConfigFile.load t path).map fun options => [options]
  | none => .ok []

/-- The options of the configuration file with those of the arguments above them. -/
def mergedOptions [Codecs] (t : FileTree) (items : List Item) : Except ConfigFault Value := do
  let below ← fileLayers t items
  match mergeOptions (below ++ [optionsOf items]) with
  | .ok merged => return .map merged.toEntries
  | .error fault => throw (.options fault)

/-- The configuration that the arguments and the configuration file give, and what is to be said
of paths that were left out. -/
def configure [Codecs] (t : FileTree) (items : List Item) :
    List Notice × Except ConfigFault Configuration :=
  match mergedOptions t items with
  | .error fault => ([], .error fault)
  | .ok options =>
      let (judged, configuration) := Configuration.resolveJudged t options
      (judged.filterMap fun (path, verdict) => Notice.ofVerdict? path verdict, configuration)

def rejected (t : FileTree) (lines : List Line) : ConfigFault → Outcome
  | .problem p => ⟨2, lines ++ [.coloured .errors .red ("Error: " ++ p.message)], none, t⟩
  | fault => ⟨1, lines, some (.config fault), t⟩

def failureLine (e : PhaseError) : Line :=
  .coloured .errors .red
    ("\n" ++ e.phase.name ++ " phase failed for " ++ toString e.failures.length ++ " file(s)")

def runConfiguration [Codecs] (schedule : Phase → List Nat) (verbosity : Nat) (t : FileTree)
    (c : Configuration) (before : List Line) : Outcome :=
  let splitter : Splitter := ⟨c, fun _ => none, none, schedule⟩
  let (result, w) := splitter.run.perform (World.fresh t c.encoding)
  let lines := before ++ w.trace.filterMap (lineOf? verbosity)
  match result with
  | .ok _ => ⟨0, lines ++ [.coloured .output .green "\nAll done!"], none, w.tree⟩
  | .error (.phase e) => ⟨1, lines ++ [failureLine e], none, w.tree⟩
  | .error (.escaped fault) => ⟨1, lines, some (.work fault), w.tree⟩

def inform (t : FileTree) (f : Flag) : Outcome :=
  let texts := if f = .version then [versionLine] else helpLines
  ⟨0, texts.map (.plain .output), none, t⟩

def refused (t : FileTree) : Refusal → Outcome
  | .crash c => ⟨1, [], some c, t⟩
  | .usage problem =>
      let hint := if problem.hasHint then [usageLine, hintLine, ""] else []
      ⟨2, (hint ++ ["Error: " ++ problem.message]).map (.plain .errors), none, t⟩

def obey [Codecs] (schedule : Phase → List Nat) (t : FileTree) (items : List Item) : Outcome :=
  match Item.inquiry? items with
  | some f => inform t f
  | none =>
      match checkPaths t items with
      | .error refusal => refused t refusal
      | .ok () =>
          let verbosity := Item.verbosity items
          let (notices, configuration) := configure t items
          let lines := notices.filterMap (lineOfNotice? verbosity)
          match configuration with
          | .error fault => rejected t lines fault
          | .ok c => runConfiguration schedule verbosity t c lines

/-- A call of the program. The schedule says in which order the files of a phase get on. -/
def run [Codecs] (schedule : Phase → List Nat) (t : FileTree) (arguments : List String) : Outcome :=
  match readArguments arguments with
  | .error problem => refused t (.usage problem)
  | .ok items => obey schedule t items

end MediaSplit.CommandLine
