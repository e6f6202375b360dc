import MediaSplit.Cache
import MediaSplit.Event
import MediaSplit.Notice

/-!
What a run works on and leaves behind: the files, the cache, and the trace of all that was told.
-/

namespace MediaSplit

inductive Happening where
  | event (e : Event)
  | notice (n : Notice)
  deriving DecidableEq, Repr

/-- The trace has the earliest entry first. -/
structure World where
  tree : FileTree
  cache : Cache
  trace : List Happening

namespace World

def fresh (t : FileTree) (encoding : String) : World :=
  ⟨t, Cache.empty encoding, []⟩

def record (w : World) (h : Happening) : World :=
  { w with trace := w.trace ++ [h] }

def note (w : World) (n : Notice) : World :=
  w.record (.notice n)

def events (w : World) : List Event :=
  w.trace.filterMap fun
    | .event e => some e
    | .notice _ => none

def load [Codecs] (w : World) (path : String) : Except Fault Stylesheet × World :=
  let w := if w.cache.holds path then w else w.note (.parsing path)
  match w.cache.get w.tree path with
  | (.ok parsed, cache) => (.ok parsed.sheet, { w with cache := cache })
  | (.error fault, cache) => (.error fault, { w with cache := cache })

def write [Codecs] (w : World) (encoding path text : String) : Except Fault Unit × World :=
  let (written, tree) := TextFile.write w.tree encoding path text
  (written, { w with tree := tree })

end World

end MediaSplit
