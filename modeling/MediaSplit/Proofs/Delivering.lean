import Mathlib.Data.List.Basic
import MediaSplit.Bus

/-!
The delivery of an event. Listeners are called one after the other, and each of them may register
listeners and emit events of its own before it comes to its end. The lists only grow, and only at
their ends, so an index into a list that grows while it is gone through still points at the next
listener: a delivery that comes to its end has called all listeners that hear every event and
then all those of the event's kind, each once, those included that were added on the way.
-/

namespace MediaSplit.Bus

variable {κ ε : Type} [BEq κ]

section Inversion

variable {fuel : Nat} {event : ε} {b : Bus κ ε} {d : Delivery κ ε}

/-- The two ways in which an emission ends: with the failure of a listener that hears every event,
or with the delivery to the listeners of the event's kind. -/
theorem emit_eq_some_iff : emit (fuel + 1) event b = some d ↔
    ∃ first, deliver fuel event Bus.global 0 b = some first ∧
      ((∃ message, first.failure = some message ∧ d = first) ∨
        (first.failure = none ∧
          ∃ rest, deliver fuel event (fun b => b.ofKind (b.kindOf event)) 0 first.bus = some rest ∧
            d = ⟨first.called ++ rest.called, rest.failure, rest.bus⟩)) := by
  rw [emit]
  rcases deliver fuel event Bus.global 0 b with - | ⟨called, - | message, b₁⟩
  · simp
  · cases hrest : deliver fuel event (fun b => b.ofKind (b.kindOf event)) 0 b₁ <;>
      simp [hrest, eq_comm]
  · simp [eq_comm]

/-- The three ways in which a delivery goes on from an index: nobody is left, the next listener
fails, or it comes to its end and the delivery goes on behind it. -/
theorem deliver_eq_some_iff {listeners : Bus κ ε → List (Listener κ ε)} {index : Nat} :
    deliver (fuel + 1) event listeners index b = some d ↔
    ((listeners b)[index]? = none ∧ d = ⟨[], none, b⟩) ∨
    ∃ l, (listeners b)[index]? = some l ∧
      ∃ outcome b₁,
        perform fuel (l.script b.record event) (b.note (.called l.name event)) =
          some (outcome, b₁) ∧
        ((∃ message, outcome = some message ∧ d = ⟨[l], some message, b₁⟩) ∨
          (outcome = none ∧
            ∃ rest, deliver fuel event listeners (index + 1) (b₁.note (.returned l.name)) =
                some rest ∧
              d = ⟨l :: rest.called, rest.failure, rest.bus⟩)) := by
  rw [deliver]
  cases (listeners b)[index]? with
  | none => simp [eq_comm]
  | some l =>
      simp only [reduceCtorEq, false_and, false_or, Option.some.injEq, exists_eq_left']
      rcases perform fuel (l.script b.record event) (b.note (.called l.name event)) with
        - | ⟨- | message, b₁⟩
      · simp
      · cases hrest : deliver fuel event listeners (index + 1) (b₁.note (.returned l.name)) <;>
          simp [hrest, eq_comm]
      · simp [eq_comm]

end Inversion

section Fuel

/-- More fuel changes nothing in a delivery that has come to its end. -/
private theorem succ_fuel (fuel : Nat) :
    (∀ event (b : Bus κ ε) d, emit fuel event b = some d → emit (fuel + 1) event b = some d) ∧
    (∀ event listeners index (b : Bus κ ε) d, deliver fuel event listeners index b = some d →
      deliver (fuel + 1) event listeners index b = some d) ∧
    ∀ p (b : Bus κ ε) result, perform fuel p b = some result →
      perform (fuel + 1) p b = some result := by
  induction fuel with
  | zero => exact ⟨nofun, nofun, nofun⟩
  | succ fuel ih =>
      obtain ⟨ihemit, ihdeliver, ihperform⟩ := ih
      refine ⟨fun event b d h => ?_, fun event listeners index b d h => ?_, fun p b result h => ?_⟩
      · rw [emit_eq_some_iff] at h ⊢
        obtain ⟨first, hfirst, hlast | ⟨hnone, rest, hrest, hd⟩⟩ := h
        · exact ⟨first, ihdeliver _ _ _ _ _ hfirst, .inl hlast⟩
        · exact ⟨first, ihdeliver _ _ _ _ _ hfirst,
            .inr ⟨hnone, rest, ihdeliver _ _ _ _ _ hrest, hd⟩⟩
      · rw [deliver_eq_some_iff] at h ⊢
        obtain hend | ⟨l, hl, outcome, b₁, hperform, hlast | ⟨hnone, rest, hrest, hd⟩⟩ := h
        · exact .inl hend
        · exact .inr ⟨l, hl, outcome, b₁, ihperform _ _ _ hperform, .inl hlast⟩
        · exact .inr ⟨l, hl, outcome, b₁, ihperform _ _ _ hperform,
            .inr ⟨hnone, rest, ihdeliver _ _ _ _ _ hrest, hd⟩⟩
      · cases p with
        | finish => exact h
        | fail message => exact h
        | subscribe kind name script next =>
            rw [perform] at h ⊢
            exact ihperform _ _ _ h
        | onAll name script next =>
            rw [perform] at h ⊢
            exact ihperform _ _ _ h
        | emit event next =>
            rw [perform] at h ⊢
            cases hsent : emit fuel event b with
            | none => simp [hsent] at h
            | some sent =>
                simp only [hsent] at h
                simp only [ihemit _ _ _ hsent]
                exact ihperform _ _ _ h

theorem emit_of_le {fuel fuel' : Nat} (hle : fuel ≤ fuel') {event : ε} {b : Bus κ ε}
    {d : Delivery κ ε} (h : emit fuel event b = some d) : emit fuel' event b = some d := by
  induction hle with
  | refl => exact h
  | step _ ih => exact (succ_fuel _).1 _ _ _ ih

end Fuel

def Performs (b : Bus κ ε) (p : Program κ ε) (outcome : Option String) (b' : Bus κ ε) : Prop :=
  ∃ fuel, perform fuel p b = some (outcome, b')

/-- A listener is called with an event. The call is noted, its script runs, and its end is noted
if it comes to one. -/
inductive Calls (event : ε) (l : Listener κ ε) (b : Bus κ ε) : Option String → Bus κ ε → Prop
  | ended {b' : Bus κ ε}
      (h : (b.note (.called l.name event)).Performs (l.script b.record event) none b') :
      Calls event l b none (b'.note (.returned l.name))
  | failed {message : String} {b' : Bus κ ε}
      (h : (b.note (.called l.name event)).Performs (l.script b.record event) (some message) b') :
      Calls event l b (some message) b'

inductive CallsAll (event : ε) : List (Listener κ ε) → Bus κ ε → Bus κ ε → Prop
  | nil (b : Bus κ ε) : CallsAll event [] b b
  | cons {l : Listener κ ε} {ls : List (Listener κ ε)} {b b₁ b' : Bus κ ε}
      (hl : Calls event l b none b₁) (h : CallsAll event ls b₁ b') : CallsAll event (l :: ls) b b'

structure Grows (b b' : Bus κ ε) : Prop where
  kindOf : b'.kindOf = b.kindOf
  global : b.global <+: b'.global
  ofKind : ∀ kind, b.ofKind kind <+: b'.ofKind kind
  record : b.record <+: b'.record

section Growth

variable {b b₁ b₂ : Bus κ ε}

theorem Grows.refl (b : Bus κ ε) : b.Grows b :=
  ⟨rfl, List.prefix_rfl, fun _ => List.prefix_rfl, List.prefix_rfl⟩

theorem Grows.trans (h : b.Grows b₁) (h' : b₁.Grows b₂) : b.Grows b₂ where
  kindOf := h'.kindOf.trans h.kindOf
  global := h.global.trans h'.global
  ofKind kind := (h.ofKind kind).trans (h'.ofKind kind)
  record := h.record.trans h'.record

theorem grows_note (b : Bus κ ε) (entry : CallRecord ε) : b.Grows (b.note entry) where
  kindOf := rfl
  global := List.prefix_rfl
  ofKind _ := List.prefix_rfl
  record := List.prefix_append _ _

theorem grows_onAll (b : Bus κ ε) (l : Listener κ ε) : b.Grows (b.onAll l) where
  kindOf := rfl
  global := List.prefix_append _ _
  ofKind _ := List.prefix_rfl
  record := List.prefix_rfl

variable [LawfulBEq κ]

theorem ofKind_subscribe_self (kind : κ) (l : Listener κ ε) (b : Bus κ ε) :
    (b.subscribe kind l).ofKind kind = b.ofKind kind ++ [l] := by
  rw [ofKind, subscribe, Table.get?_set_self, Option.getD_some]

theorem ofKind_subscribe_of_ne {kind other : κ} (hne : other ≠ kind) (l : Listener κ ε)
    (b : Bus κ ε) : (b.subscribe kind l).ofKind other = b.ofKind other := by
  rw [ofKind, subscribe, Table.get?_set_of_ne hne, ofKind]

theorem grows_subscribe (kind : κ) (l : Listener κ ε) (b : Bus κ ε) :
    b.Grows (b.subscribe kind l) where
  kindOf := rfl
  global := List.prefix_rfl
  ofKind other := by
    by_cases hkind : other = kind
    · rw [hkind, ofKind_subscribe_self]
      exact List.prefix_append _ _
    · exact (ofKind_subscribe_of_ne hkind l b).symm ▸ List.prefix_rfl
  record := List.prefix_rfl

/-- Nothing that programs do to a bus takes a listener away. -/
private theorem grows_of_fuel (fuel : Nat) :
    (∀ event (b : Bus κ ε) d, emit fuel event b = some d → b.Grows d.bus) ∧
    (∀ event listeners index (b : Bus κ ε) d, deliver fuel event listeners index b = some d →
      b.Grows d.bus) ∧
    ∀ p (b : Bus κ ε) outcome b', perform fuel p b = some (outcome, b') → b.Grows b' := by
  induction fuel with
  | zero => exact ⟨nofun, nofun, nofun⟩
  | succ fuel ih =>
      obtain ⟨ihemit, ihdeliver, ihperform⟩ := ih
      refine ⟨fun event b d h => ?_, fun event listeners index b d h => ?_,
        fun p b outcome b' h => ?_⟩
      · obtain ⟨first, hfirst, ⟨_, -, rfl⟩ | ⟨-, rest, hrest, rfl⟩⟩ := emit_eq_some_iff.mp h
        · exact ihdeliver _ _ _ _ _ hfirst
        · have hrestgrows : first.bus.Grows rest.bus := ihdeliver _ _ _ _ _ hrest
          exact (ihdeliver _ _ _ _ _ hfirst).trans hrestgrows
      · obtain ⟨-, rfl⟩ | ⟨l, -, outcome, b₁, hperform, hlast⟩ := deliver_eq_some_iff.mp h
        · exact .refl b
        · have hcall : b.Grows b₁ := (b.grows_note _).trans (ihperform _ _ _ _ hperform)
          obtain ⟨_, -, rfl⟩ | ⟨-, rest, hrest, rfl⟩ := hlast
          · exact hcall
          · have hrestgrows : (b₁.note (.returned l.name)).Grows rest.bus :=
              ihdeliver _ _ _ _ _ hrest
            exact (hcall.trans (b₁.grows_note _)).trans hrestgrows
      · cases p with
        | finish =>
            obtain ⟨-, rfl⟩ := Prod.mk.inj (Option.some.inj h)
            exact .refl b
        | fail message =>
            obtain ⟨-, rfl⟩ := Prod.mk.inj (Option.some.inj h)
            exact .refl b
        | subscribe kind name script next =>
            rw [perform] at h
            exact (grows_subscribe kind _ b).trans (ihperform _ _ _ _ h)
        | onAll name script next =>
            rw [perform] at h
            exact (b.grows_onAll _).trans (ihperform _ _ _ _ h)
        | emit event next =>
            rw [perform] at h
            cases hsent : emit fuel event b with
            | none => simp [hsent] at h
            | some sent =>
                simp only [hsent] at h
                exact (ihemit _ _ _ hsent).trans (ihperform _ _ _ _ h)

theorem Performs.grows {p : Program κ ε} {outcome : Option String} (h : b.Performs p outcome b₁) :
    b.Grows b₁ := by
  obtain ⟨fuel, h⟩ := h
  exact (grows_of_fuel fuel).2.2 _ _ _ _ h

theorem Calls.grows {event : ε} {l : Listener κ ε} {outcome : Option String}
    (h : Calls event l b outcome b₁) : b.Grows b₁ := by
  cases h with
  | ended h => exact ((b.grows_note _).trans h.grows).trans (grows_note _ _)
  | failed h => exact (b.grows_note _).trans h.grows

end Growth

/-- Lists of listeners that keep what they hold in its place while the bus grows. -/
def IsLasting (listeners : Bus κ ε → List (Listener κ ε)) : Prop :=
  ∀ ⦃b b' : Bus κ ε⦄, b.Grows b' → listeners b <+: listeners b'

theorem isLasting_global : IsLasting (Bus.global : Bus κ ε → List (Listener κ ε)) :=
  fun _ _ h => h.global

theorem isLasting_ofKind (event : ε) :
    IsLasting fun b : Bus κ ε => b.ofKind (b.kindOf event) := by
  intro b b' h
  simp only [h.kindOf]
  exact h.ofKind _

/-- A listener that was next when it was called still stands in its place later on. -/
theorem IsLasting.drop_eq_cons {listeners : Bus κ ε → List (Listener κ ε)}
    (h : IsLasting listeners) {b b' : Bus κ ε} (hgrows : b.Grows b') {index : Nat}
    {l : Listener κ ε} (hl : (listeners b)[index]? = some l) :
    (listeners b').drop index = l :: (listeners b').drop (index + 1) := by
  obtain ⟨hlt, hget⟩ := List.getElem?_eq_some_iff.mp hl
  have hprefix : listeners b <+: listeners b' := h hgrows
  have hlt' : index < (listeners b').length := Nat.lt_of_lt_of_le hlt hprefix.length_le
  rw [List.drop_eq_getElem_cons hlt', ← hprefix.getElem hlt, hget]

inductive Delivers (event : ε) (listeners : Bus κ ε → List (Listener κ ε)) (index : Nat)
    (b : Bus κ ε) (d : Delivery κ ε) : Prop
  /-- All that stand in the list when the delivery ends were called. -/
  | ended (hnone : d.failure = none) (hcalled : d.called = (listeners d.bus).drop index)
      (hall : CallsAll event d.called b d.bus)
  /-- Those before the one that failed came to their end, and those behind it were not called. -/
  | failed {before after : List (Listener κ ε)} {l : Listener κ ε} {message : String}
      {mid : Bus κ ε} (hsome : d.failure = some message) (hcalled : d.called = before ++ [l])
      (hlist : (listeners mid).drop index = before ++ l :: after)
      (hbefore : CallsAll event before b mid) (hlast : Calls event l mid (some message) d.bus)

section Delivers

variable [LawfulBEq κ] {event : ε} {b b' : Bus κ ε} {d : Delivery κ ε}

theorem CallsAll.grows {ls : List (Listener κ ε)} (h : CallsAll event ls b b') : b.Grows b' := by
  induction h with
  | nil b => exact .refl b
  | cons hl _ ih => exact hl.grows.trans ih

/-- By the fuel, that is, from one call to the next. The rest is delivered on the bus that a call
leaves, to what the list holds by then. -/
theorem delivers_of_deliver {fuel : Nat} {listeners : Bus κ ε → List (Listener κ ε)}
    (hlasting : IsLasting listeners) {index : Nat}
    (h : deliver fuel event listeners index b = some d) :
    Delivers event listeners index b d := by
  induction fuel generalizing index b d with
  | zero => exact nomatch h
  | succ fuel ih =>
      obtain ⟨hnone, rfl⟩ | ⟨l, hl, outcome, b₁, hperform, hlast⟩ := deliver_eq_some_iff.mp h
      · have hdrop : (listeners b).drop index = [] :=
          List.drop_eq_nil_of_le (List.getElem?_eq_none_iff.mp hnone)
        exact .ended rfl hdrop.symm (.nil b)
      · obtain ⟨message, rfl, rfl⟩ | ⟨rfl, rest, hrest, rfl⟩ := hlast
        · exact .failed rfl (List.nil_append [l]).symm (hlasting.drop_eq_cons (.refl b) hl) (.nil b)
            (.failed ⟨fuel, hperform⟩)
        · have hcall : Calls event l b none (b₁.note (.returned l.name)) := .ended ⟨fuel, hperform⟩
          cases ih hrest with
          | ended hnone hcalled hall =>
              have hgrows : b.Grows rest.bus := hcall.grows.trans hall.grows
              refine .ended hnone ?_ (.cons hcall hall)
              rw [hlasting.drop_eq_cons hgrows hl, hcalled]
          | @failed before after l' message mid hsome hcalled hlist hbefore hlast =>
              have hgrows : b.Grows mid := hcall.grows.trans hbefore.grows
              have hmid : (listeners mid).drop index = (l :: before) ++ l' :: after := by
                rw [hlasting.drop_eq_cons hgrows hl, hlist, List.cons_append]
              exact .failed hsome (congrArg (l :: ·) hcalled) hmid (.cons hcall hbefore) hlast

/-- What the emission of an event does, whatever its listeners do. -/
structure IsDelivered (event : ε) (b : Bus κ ε) (d : Delivery κ ε) : Prop where
  /-- An emission that comes to its end has called the list of those that hear every event, as it
  stands when the last of them is done, and the list of the event's kind, as it stands at the
  end. -/
  completed : d.failure = none → ∃ turn : Bus κ ε,
    CallsAll event turn.global b turn ∧
    CallsAll event (d.bus.ofKind (b.kindOf event)) turn d.bus ∧
    d.called = turn.global ++ d.bus.ofKind (b.kindOf event)
  /-- An emission that fails does so with the message of the listener that it called last, and has
  called those that stand before it. -/
  failed : ∀ message, d.failure = some message → ∃ before l mid,
    d.called = before ++ [l] ∧ Calls event l mid (some message) d.bus ∧ mid.Grows d.bus ∧
    ((∃ after, mid.global = before ++ l :: after ∧ CallsAll event before b mid) ∨
      ∃ turn typed after, before = turn.global ++ typed ∧
        mid.ofKind (b.kindOf event) = typed ++ l :: after ∧
        CallsAll event turn.global b turn ∧ CallsAll event typed turn mid)
  grows : b.Grows d.bus

/-- A listener that hears every event fails, and the list of the event's kind is not reached. -/
theorem isDelivered_of_global {message : String} (h : Delivers event Bus.global 0 b d)
    (hsome : d.failure = some message) : IsDelivered event b d := by
  cases h with
  | ended hnone => exact nomatch hnone.symm.trans hsome
  | @failed before after l message' mid hsome' hcalled hlist hbefore hlast =>
      have hgrows : b.Grows d.bus := hbefore.grows.trans hlast.grows
      refine ⟨fun hnone => (nomatch hnone.symm.trans hsome), fun given hgiven => ?_, hgrows⟩
      obtain rfl : message' = given := Option.some.inj (hsome'.symm.trans hgiven)
      exact ⟨before, l, mid, hcalled, hlast, hlast.grows, .inl ⟨after, hlist, hbefore⟩⟩

/-- All that hear every event came to their end, and the list of the event's kind is gone
through. -/
theorem isDelivered_of_ofKind {first rest : Delivery κ ε}
    (hfirst : CallsAll event first.bus.global b first.bus)
    (h : Delivers event (fun b => b.ofKind (b.kindOf event)) 0 first.bus rest) :
    IsDelivered event b ⟨first.bus.global ++ rest.called, rest.failure, rest.bus⟩ := by
  have hkind {b' : Bus κ ε} (hrest : first.bus.Grows b') : b'.kindOf = b.kindOf :=
    hrest.kindOf.trans hfirst.grows.kindOf
  cases h with
  | ended hnone hcalled hall =>
      have hlist : rest.called = rest.bus.ofKind (b.kindOf event) := by
        rw [hcalled, List.drop_zero, hkind hall.grows]
      refine ⟨fun _ => ?_, fun message hsome => (nomatch hnone.symm.trans hsome),
        hfirst.grows.trans hall.grows⟩
      exact ⟨first.bus, hfirst, hlist ▸ hall, congrArg (first.bus.global ++ ·) hlist⟩
  | @failed before after l message' mid hsome' hcalled hlist hbefore hlast =>
      refine ⟨fun hnone => (nomatch hnone.symm.trans hsome'), fun message hsome => ?_,
        hfirst.grows.trans (hbefore.grows.trans hlast.grows)⟩
      obtain rfl : message' = message := Option.some.inj (hsome'.symm.trans hsome)
      refine ⟨first.bus.global ++ before, l, mid, ?_, hlast, hlast.grows,
        .inr ⟨first.bus, before, after, rfl, ?_, hfirst, hbefore⟩⟩
      · rw [hcalled, List.append_assoc]
      · rw [← hkind hbefore.grows]
        exact hlist

/-- Every emission delivers its event, and none has two outcomes. -/
theorem delivered_of_emit {fuel : Nat} (h : emit fuel event b = some d) :
    IsDelivered event b d ∧ ∀ fuel' d', emit fuel' event b = some d' → d' = d := by
  refine ⟨?_, fun fuel' d' h' => ?_⟩
  · cases fuel with
    | zero => exact nomatch h
    | succ fuel =>
        obtain ⟨first, hfirst, hlast⟩ := emit_eq_some_iff.mp h
        have hglobal := delivers_of_deliver isLasting_global hfirst
        obtain ⟨message, hsome, rfl⟩ | ⟨hnone, rest, hrest, rfl⟩ := hlast
        · exact isDelivered_of_global hglobal hsome
        · cases hglobal with
          | ended _ hcalled hall =>
              rw [hcalled, List.drop_zero] at hall ⊢
              exact isDelivered_of_ofKind hall (delivers_of_deliver (isLasting_ofKind event) hrest)
          | failed hsome => exact nomatch hnone.symm.trans hsome
  · have hmore := emit_of_le (Nat.le_max_left fuel fuel') h
    have hmore' := emit_of_le (Nat.le_max_right fuel fuel') h'
    exact Option.some.inj (hmore'.symm.trans hmore)

/-- A listener that, at its first call, has two more hear every event and one hear only its kind,
and then emits another event. -/
def recruiter : Listener Bool Bool where
  name := "recruiter"
  script record event :=
    if record.isEmpty then
      .onAll "late" (fun _ _ => .finish) <|
        .subscribe event "typed" (fun _ _ => .onAll "later" (fun _ _ => .finish) .finish) <|
          .emit (!event) fun _ => .finish
    else .finish

theorem delivered_of_emit_recruiter :
    ∃ d, emit 20 true ((empty id).onAll recruiter) = some d ∧ d.failure = none ∧
      d.called.map Listener.name = ["recruiter", "late", "typed"] ∧
      d.bus.global.map Listener.name = ["recruiter", "late", "later"] ∧
      IsDelivered true ((empty id).onAll recruiter) d := by
  have h : emit 20 true ((empty id).onAll recruiter) = some _ := rfl
  exact ⟨_, h, rfl, rfl, rfl, (delivered_of_emit h).1⟩

end Delivers

end MediaSplit.Bus
