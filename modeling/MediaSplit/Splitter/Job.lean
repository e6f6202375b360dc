import MediaSplit.Configuration
import MediaSplit.Partition
import MediaSplit.World

/-!
The work on one source file in one phase of a run. It goes from stage to stage in steps that are
each taken at once, so that the steps of several jobs can be mixed in any way.
-/

namespace MediaSplit

/-- What is needed for a run. The listener answers each event, with a message if it refuses it.
The schedule of a phase says in which order the jobs get on: each number is the place of the job
that takes its next step. A limit of the workers at most rules schedules out, so beyond its check
it has no part in what a run does. -/
structure Splitter where
  configuration : Configuration
  listener : Event → Option String
  workers : Option Int
  schedule : Phase → List Nat

structure Piece where
  text : String
  ruleCount : Nat
  deriving DecidableEq, Repr

inductive Stage where
  | waiting
  | loaded (sheet : Stylesheet)
  | classified (piece : Piece)
  | written (piece : Piece)
  | finished (outcome : Except Fault Piece)
  | collected

structure Job where
  path : String
  stage : Stage

namespace Splitter

def outputPath (s : Splitter) (path : String) : String :=
  if s.configuration.inPlace then path
  else strippedPath path s.configuration.strippedSuffix

def nodesFor (s : Splitter) (phase : Phase) (sheet : Stylesheet) : List Node :=
  match phase with
  | .extract => Node.matching s.configuration.widths.tokens sheet.nodes
  | .strip =>
      Node.stripped s.configuration.widths.tokens s.configuration.extract.tokens sheet.nodes

def pieceOf (s : Splitter) (phase : Phase) (sheet : Stylesheet) : Piece :=
  let nodes := s.nodesFor phase sheet
  ⟨Node.write nodes, Node.countRules nodes⟩

def tell (s : Splitter) (e : Event) (w : World) : Except Fault Unit × World :=
  let answer := match s.listener e with
    | none => .ok ()
    | some message => .error (.listener message)
  (answer, w.record (.event e))

def classifiedNotice (phase : Phase) (count : Nat) (path : String) : Notice :=
  match phase with
  | .extract => .mediaFound count path
  | .strip => .rulesKept count path

/-- The next step of a job. When its source is classified, the job of the first phase is done, and
that of the second has a file to write. It is written in one step, so nothing can be told from here
of a file that two jobs write to at one time. -/
def advance [Codecs] (s : Splitter) (phase : Phase) (path : String) (w : World) :
    Stage → Stage × World
  | .waiting =>
      match w.load path with
      | (.error fault, w) => (.finished (.error fault), w)
      | (.ok sheet, w) => (.loaded sheet, w)
  | .loaded sheet =>
      let piece := s.pieceOf phase sheet
      let w := w.note (classifiedNotice phase piece.ruleCount path)
      match s.tell (.fileClassified phase path piece.ruleCount) w with
      | (.error fault, w) => (.finished (.error fault), w)
      | (.ok (), w) =>
          match phase with
          | .extract => (.finished (.ok piece), w)
          | .strip => (.classified piece, w)
  | .classified piece =>
      match w.write s.configuration.encoding (s.outputPath path) piece.text with
      | (.error fault, w) => (.finished (.error fault), w)
      | (.ok (), w) => (.written piece, w)
  | .written piece =>
      match s.tell (.fileWritten phase (s.outputPath path)) w with
      | (.error fault, w) => (.finished (.error fault), w)
      | (.ok (), w) => (.finished (.ok piece), w)
  | .finished outcome => (.finished outcome, w)
  | .collected => (.collected, w)

end Splitter

end MediaSplit
