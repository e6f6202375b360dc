import MediaSplit.Splitter

/-!
A run as it is asked for: options are resolved on the files as they are, and if they make sense,
a run starts with an empty cache.
-/

namespace MediaSplit

inductive RequestFault where
  | configuration (fault : ConfigFault)
  | stopped (stop : Stop)

structure Requested where
  result : Except RequestFault Report
  tree : FileTree
  events : List Event

namespace Splitter

def ofOptions [Codecs] (t : FileTree) (options : Value) (listener : Event → Option String)
    (workers : Option Int) (schedule : Phase → List Nat) : Except ConfigFault Splitter :=
  (Configuration.resolve t options).map fun c => ⟨c, listener, workers, schedule⟩

def request [Codecs] (t : FileTree) (options : Value) (listener : Event → Option String)
    (workers : Option Int) (schedule : Phase → List Nat) : Requested :=
  match ofOptions t options listener workers schedule with
  | .error fault => ⟨.error (.configuration fault), t, []⟩
  | .ok s =>
      let (result, w) := s.run.perform (World.fresh t s.configuration.encoding)
      ⟨result.mapError .stopped, w.tree, w.events⟩

end Splitter

end MediaSplit
