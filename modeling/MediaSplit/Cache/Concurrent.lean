import MediaSplit.Cache

/-!
Several callers that share one cache. A caller looks the path up, waits for the lock of the path,
looks again, and only then reads the file; so of the callers of one path the first does the work
and the others find its style sheet. Every step of a caller is taken at once, and between two
steps anything may happen: a step of another caller, a new call, a change of the files, or the
clearing of the cache, which drops the style sheets and forgets the locks, also those that are
held.
-/

namespace MediaSplit.Cache

inductive Progress where
  | calling
  | waiting (lock : Nat)
  | checking (lock : Nat)
  | reading (lock : Nat)
  | storing (lock : Nat) (parsed : Parsed)
  | releasing (lock : Nat) (outcome : Except Fault Parsed)
  | done (outcome : Except Fault Parsed)

structure Caller where
  path : String
  progress : Progress

/-- What the callers share. Locks and style sheets are numbered as they are made, and the callers
as they come. -/
structure Shared where
  tree : FileTree
  cache : Cache
  locks : Table String Nat
  held : List Nat
  nextLock : Nat
  nextSerial : Nat
  callers : List Caller

inductive Move where
  | call (path : String)
  | advance (caller : Nat)
  | clear
  | change (tree : FileTree)

namespace Shared

def idle (t : FileTree) (c : Cache) : Shared :=
  ⟨t, c, [], [], 0, c.parses, []⟩

/-- The first look at the cache, and the lock of the path if nothing is found. -/
def lookUp (s : Shared) (path : String) : Progress × Shared :=
  match s.cache.get? path with
  | some parsed => (.done (.ok parsed), s)
  | none =>
      match Table.get? s.locks path with
      | some lock => (.waiting lock, s)
      | none =>
          (.waiting s.nextLock,
            { s with locks := Table.set path s.nextLock s.locks, nextLock := s.nextLock + 1 })

/-- The look at the cache under the lock. -/
def lookAgain (s : Shared) (lock : Nat) (path : String) : Progress :=
  match s.cache.get? path with
  | some parsed => .releasing lock (.ok parsed)
  | none => .reading lock

def readNow [Codecs] (s : Shared) (lock : Nat) (path : String) : Progress × Shared :=
  match load s.tree s.cache.encoding path with
  | .error fault => (.releasing lock (.error fault), s)
  | .ok sheet =>
      (.storing lock ⟨s.nextSerial, sheet⟩, { s with nextSerial := s.nextSerial + 1 })

/-- The next step of a caller. One that waits for a lock that is held stays where it is. -/
def progress [Codecs] (s : Shared) (path : String) : Progress → Progress × Shared
  | .calling => s.lookUp path
  | .waiting lock =>
      if s.held.contains lock then (.waiting lock, s)
      else (.checking lock, { s with held := lock :: s.held })
  | .checking lock => (s.lookAgain lock path, s)
  | .reading lock => s.readNow lock path
  | .storing lock parsed =>
      (.releasing lock (.ok parsed), { s with cache := s.cache.store path parsed })
  | .releasing lock outcome => (.done outcome, { s with held := s.held.erase lock })
  | .done outcome => (.done outcome, s)

/-- Takes the next step of a caller. -/
def advance [Codecs] (s : Shared) (caller : Nat) : Shared :=
  match s.callers[caller]? with
  | none => s
  | some c =>
      let (progress, s) := s.progress c.path c.progress
      { s with callers := s.callers.set caller ⟨c.path, progress⟩ }

def step [Codecs] (s : Shared) : Move → Shared
  | .call path => { s with callers := s.callers ++ [⟨path, .calling⟩] }
  | .advance caller => s.advance caller
  | .clear => { s with cache := s.cache.clear, locks := [] }
  | .change tree => { s with tree := tree }

def run [Codecs] (s : Shared) (moves : List Move) : Shared :=
  moves.foldl step s

def outcomes (s : Shared) : List (Option (Except Fault Parsed)) :=
  s.callers.map fun c =>
    match c.progress with
    | .done outcome => some outcome
    | _ => none

end Shared

def callSteps : Nat := 6

/-- All callers in turn, so often that each comes to its end even if only one of them gets on in
every round. -/
def rounds (callers : Nat) : List Move :=
  (List.replicate (callSteps * callers) ((List.range callers).map Move.advance)).flatten

def getTogether [Codecs] (t : FileTree) (paths : List String) (c : Cache) : Shared :=
  (Shared.idle t c).run (paths.map Move.call ++ rounds paths.length)

end MediaSplit.Cache
