import MediaSplit.Splitter.Job

/-!
The jobs of one phase, one for each entry of the configured files. They get on in any order, and
outcomes are collected in the order in which they come. The tables of outcomes have one entry for
each path, so of several jobs for one path the one that is collected last counts. If the listener
refuses to hear of a failure, nothing is collected any more, but the jobs still come to their
ends.
-/

namespace MediaSplit

structure Round where
  jobs : List Job
  results : Table String Piece
  faults : Table String Fault
  interruption : Option Fault
  world : World

namespace Round

def start (files : List String) (w : World) : Round :=
  ⟨files.map fun path => ⟨path, .waiting⟩, [], [], none, w⟩

def setStage (r : Round) (index : Nat) (job : Job) (stage : Stage) : Round :=
  { r with jobs := r.jobs.set index ⟨job.path, stage⟩ }

def collect (s : Splitter) (phase : Phase) (path : String) (r : Round) :
    Except Fault Piece → Round
  | .ok piece => { r with results := Table.set path piece r.results }
  | .error fault =>
      let w := r.world.note (.workFailed path fault.message)
      match s.tell (.fileFailed phase path fault.message) w with
      | (.ok (), w) => { r with faults := Table.set path fault r.faults, world := w }
      | (.error refusal, w) => { r with interruption := some refusal, world := w }

/-- The next step of the job at a place, or the collection of its outcome. -/
def move [Codecs] (s : Splitter) (phase : Phase) (r : Round) (index : Nat) : Round :=
  match r.jobs[index]? with
  | none => r
  | some job =>
      match job.stage with
      | .collected => r
      | .finished outcome =>
          if r.interruption.isSome then r
          else (collect s phase job.path r outcome).setStage index job .collected
      | stage =>
          let (stage, w) := s.advance phase job.path r.world stage
          { r with world := w }.setStage index job stage

/-- The number of moves that take a job from its start to the collection of its outcome. -/
def jobMoves : Nat := 5

def completion (jobs : Nat) : List Nat :=
  (List.range jobs).flatMap (List.replicate jobMoves)

def run [Codecs] (s : Splitter) (phase : Phase) (w : World) : Round :=
  let files := s.configuration.files
  (s.schedule phase ++ completion files.length).foldl (move s phase) (start files w)

/-- The failures, once for every entry of the configured files, and in their order. -/
def failures (files : List String) (r : Round) : List FileFailure :=
  files.filterMap fun path => (Table.get? r.faults path).map (⟨path, ·⟩)

/-- The results, each path at its first place among the configured files. -/
def resultsInOrder (files : List String) (r : Round) : Table String Piece :=
  files.eraseDups.filterMap fun path => (Table.get? r.results path).map (path, ·)

end Round

end MediaSplit
