import MediaSplit.Splitter.Round

/-!
A run. In its first phase every source is read and its media blocks for the configured widths go
to the combined file; in the second phase every source is written again without them. In both
phases all sources are tried before a failure ends the run, and the second phase works on the
style sheets that the first one has read.
-/

namespace MediaSplit

structure PhaseError where
  phase : Phase
  failures : List FileFailure
  deriving DecidableEq, Repr

namespace PhaseError

def message (e : PhaseError) : String :=
  phaseFailureText e.phase.name (e.failures.map FileFailure.text)

def first? (e : PhaseError) : Option FileFailure :=
  e.failures.head?

end PhaseError

inductive Stop where
  | phase (e : PhaseError)
  | escaped (fault : Fault)
  deriving DecidableEq, Repr

/-- A part of a run: it changes the world, and gives a value or stops. -/
abbrev Act := ExceptT Stop (StateM World)

def Act.perform {α : Type} (a : Act α) (w : World) : Except Stop α × World :=
  a.run.run w

namespace Splitter

/-- Makes a fault end the run. -/
def orEscape (step : World → Except Fault Unit × World) : Act Unit :=
  ExceptT.mk fun w =>
    match step w with
    | (.ok (), w) => (.ok (), w)
    | (.error fault, w) => (.error (.escaped fault), w)

def announce (s : Splitter) (e : Event) : Act Unit :=
  orEscape (s.tell e)

def fail {α : Type} (s : Splitter) (phase : Phase) (failures : List FileFailure) : Act α := do
  let error : PhaseError := ⟨phase, failures⟩
  s.announce (.phaseFailed phase error.message)
  throw (.phase error)

/-- A limit of the number of workers has to be positive; zero is no limit. -/
def hasWorkers (s : Splitter) : Bool :=
  match s.workers with
  | none => true
  | some n => 0 ≤ n

def runJobs [Codecs] (s : Splitter) (phase : Phase) : Act Round :=
  ExceptT.mk fun w =>
    let r := Round.run s phase w
    (.ok r, r.world)

def fanOut [Codecs] (s : Splitter) (phase : Phase) : Act (Table String Piece) := do
  if !s.hasWorkers then throw (.escaped .noWorkers)
  let r ← s.runJobs phase
  match r.interruption with
  | some fault => throw (.escaped fault)
  | none =>
      let failures := r.failures s.configuration.files
      if failures.isEmpty then return r.resultsInOrder s.configuration.files
      else s.fail phase failures

def writeCombined [Codecs] (s : Splitter) (text : String) : Act Unit := do
  let dest := s.configuration.dest
  let written ← ExceptT.mk fun w =>
    let (written, w) := w.write s.configuration.encoding dest text
    (.ok written, w)
  match written with
  | .ok () => return ()
  | .error fault =>
      if fault.isOfWriting then do
        orEscape fun w => (.ok (), w.note (.cannotWrite dest fault.message))
        s.announce (.fileFailed .extract dest fault.message)
        s.fail .extract [⟨dest, fault⟩]
      else throw (.escaped fault)

/-- The text of the combined file: what the sources give to it, each on a new line. -/
def combinedText (pieces : Table String Piece) : String :=
  "\n".intercalate (pieces.map fun piece => piece.2.text)

def extractMedia [Codecs] (s : Splitter) : Act Combined := do
  s.announce (.phaseStarted .extract)
  let pieces ← s.fanOut .extract
  s.writeCombined (combinedText pieces)
  s.announce (.fileWritten .extract s.configuration.dest)
  s.announce (.phaseCompleted .extract)
  return ⟨s.configuration.dest, pieces.map fun piece => (piece.1, piece.2.ruleCount)⟩

def writeStripped [Codecs] (s : Splitter) : Act (List StrippedFile) := do
  s.announce (.phaseStarted .strip)
  let pieces ← s.fanOut .strip
  s.announce (.phaseCompleted .strip)
  return pieces.map fun piece => ⟨piece.1, s.outputPath piece.1, piece.2.ruleCount⟩

def run [Codecs] (s : Splitter) : Act Report := do
  s.announce (.runStarted s.configuration.files s.configuration.dest)
  let combined ← s.extractMedia
  let stripped ← s.writeStripped
  let report : Report := ⟨combined, stripped⟩
  s.announce (.runCompleted report)
  return report

end Splitter

end MediaSplit
