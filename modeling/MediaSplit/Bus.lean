import MediaSplit.Table

/-!
A bus that carries events to listeners. Some listeners hear every event and some hear only the
events of one kind; the former come first. A listener is a program that may itself register
listeners and emit events while it is being called, so the lists of listeners can grow while they
are gone through, and what is added at their ends is still reached.

Programs may call each other without end. Delivery therefore takes an amount of fuel and has no
result if that does not suffice.
-/

namespace MediaSplit

inductive CallRecord (ε : Type) where
  | called (name : String) (event : ε)
  | returned (name : String)
  deriving DecidableEq, Repr

/-- What a listener does when it is called. A listener that is registered has a name and a script,
which is told of all calls so far and of the event. After an event was emitted the program goes on
with the message of the listener that failed, if one did. -/
inductive Program (κ ε : Type) where
  | finish
  | fail (message : String)
  | subscribe (kind : κ) (name : String) (script : List (CallRecord ε) → ε → Program κ ε)
      (next : Program κ ε)
  | onAll (name : String) (script : List (CallRecord ε) → ε → Program κ ε) (next : Program κ ε)
  | emit (event : ε) (next : Option String → Program κ ε)

instance {κ ε : Type} : Inhabited (Program κ ε) :=
  ⟨.finish⟩

structure Listener (κ ε : Type) where
  name : String
  script : List (CallRecord ε) → ε → Program κ ε

structure Bus (κ ε : Type) where
  kindOf : ε → κ
  global : List (Listener κ ε)
  typed : Table κ (List (Listener κ ε))
  record : List (CallRecord ε)

/-- How the delivery of one event went: the listeners that it called itself, one after the other,
the message of the one that failed, and the bus afterwards. -/
structure Delivery (κ ε : Type) where
  called : List (Listener κ ε)
  failure : Option String
  bus : Bus κ ε

namespace Bus

variable {κ ε : Type} [BEq κ]

def empty (kindOf : ε → κ) : Bus κ ε :=
  ⟨kindOf, [], [], []⟩

def ofKind (b : Bus κ ε) (kind : κ) : List (Listener κ ε) :=
  (Table.get? b.typed kind).getD []

def subscribe (kind : κ) (l : Listener κ ε) (b : Bus κ ε) : Bus κ ε :=
  { b with typed := Table.set kind (b.ofKind kind ++ [l]) b.typed }

def onAll (l : Listener κ ε) (b : Bus κ ε) : Bus κ ε :=
  { b with global := b.global ++ [l] }

def note (entry : CallRecord ε) (b : Bus κ ε) : Bus κ ε :=
  { b with record := b.record ++ [entry] }

mutual

def emit : Nat → ε → Bus κ ε → Option (Delivery κ ε)
  | 0, _, _ => none
  | fuel + 1, event, b =>
      match deliver fuel event Bus.global 0 b with
      | none => none
      | some ⟨called, some message, b⟩ => some ⟨called, some message, b⟩
      | some ⟨called, none, b⟩ =>
          match deliver fuel event (fun b => b.ofKind (b.kindOf event)) 0 b with
          | none => none
          | some rest => some ⟨called ++ rest.called, rest.failure, rest.bus⟩

/-- Calls the listeners of a list from an index on. The list is looked at again after every
call. -/
def deliver : Nat → ε → (Bus κ ε → List (Listener κ ε)) → Nat → Bus κ ε → Option (Delivery κ ε)
  | 0, _, _, _, _ => none
  | fuel + 1, event, listeners, index, b =>
      match (listeners b)[index]? with
      | none => some ⟨[], none, b⟩
      | some l =>
          match perform fuel (l.script b.record event) (b.note (.called l.name event)) with
          | none => none
          | some (some message, b) => some ⟨[l], some message, b⟩
          | some (none, b) =>
              match deliver fuel event listeners (index + 1) (b.note (.returned l.name)) with
              | none => none
              | some rest => some ⟨l :: rest.called, rest.failure, rest.bus⟩

def perform : Nat → Program κ ε → Bus κ ε → Option (Option String × Bus κ ε)
  | 0, _, _ => none
  | _ + 1, .finish, b => some (none, b)
  | _ + 1, .fail message, b => some (some message, b)
  | fuel + 1, .subscribe kind name script next, b =>
      perform fuel next (b.subscribe kind ⟨name, script⟩)
  | fuel + 1, .onAll name script next, b => perform fuel next (b.onAll ⟨name, script⟩)
  | fuel + 1, .emit event next, b =>
      match emit fuel event b with
      | none => none
      | some sent => perform fuel (next sent.failure) sent.bus

end

end Bus

end MediaSplit
