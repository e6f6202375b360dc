import MediaSplit.Encoding.HostNames
import MediaSplit.Proofs.Cache.Sharing
import Mathlib.Data.List.Induction

/-!
A shared cache that is cleared while it is in use. Clearing drops the style sheets and the locks,
but not what a caller has in hand: one that has read its file and not yet entered what it read
enters it afterwards, and one that holds a lock that was dropped does not keep others from reading.
Nothing else of the time before survives. What later calls give was read since, or was in the hand
of such a caller, and callers that ask for a path after the clearing read it one at a time.
-/

namespace MediaSplit.Cache

def Progress.lock? : Progress → Option Nat
  | .waiting lock | .checking lock | .reading lock | .storing lock _ | .releasing lock _ =>
      some lock
  | .calling | .done _ => none

theorem Progress.lock?_of_heldLock {p : Progress} {lock : Nat} (h : p.heldLock = some lock) :
    p.lock? = some lock := by
  cases p with
  | calling | waiting | done => exact nomatch h
  | checking | reading | storing | releasing => exact h

/-- The style sheet that a caller gives or is about to give. -/
def Progress.gift? : Progress → Option Parsed
  | .releasing _ (.ok parsed) | .done (.ok parsed) => some parsed
  | _ => none

namespace Shared

section Steps

variable {s s' : Shared} {path : String} {p p' : Progress} {parsed : Parsed} {lock : Nat}

/-- What a caller has in hand it has just read. -/
theorem Goes.read_of_storing [Codecs] (h : s.Goes path p (.storing lock parsed) s') :
    p = .reading lock ∧ ∃ sheet, load s.tree s.cache.encoding path = .ok sheet ∧
      parsed = ⟨s.nextSerial, sheet⟩ := by
  cases h with
  | read hload => exact ⟨rfl, _, hload, rfl⟩

/-- What a caller gives it gave before, or had in hand, or has found in the cache. -/
theorem Goes.gift [Codecs] (h : s.Goes path p p' s') (hgift : p'.gift? = some parsed) :
    s.cache.get? path = some parsed ∨ p.gift? = some parsed ∨
      ∃ lock, p = .storing lock parsed := by
  cases h with
  | found hget | foundAgain hget =>
      obtain rfl := Option.some.inj hgift
      exact .inl hget
  | stored =>
      obtain rfl := Option.some.inj hgift
      exact .inr (.inr ⟨_, rfl⟩)
  | @released _ outcome =>
      cases outcome with
      | ok => exact .inr (.inl hgift)
      | error => exact nomatch hgift
  | ended => exact .inr (.inl hgift)
  | queued | opened | blocked | taken | missed | unread | read => exact nomatch hgift

/-- A caller keeps its lock, or has got that of its path. -/
theorem Goes.lock_eq_or_get [Codecs] (h : s.Goes path p p' s')
    (hlock : p'.lock? = some lock) :
    p.lock? = some lock ∨ Table.get? s'.locks path = some lock := by
  cases h with
  | queued _ hget =>
      obtain rfl := Option.some.inj hlock
      exact .inr hget
  | opened =>
      obtain rfl := Option.some.inj hlock
      exact .inr (Table.get?_set_self _ _ _)
  | blocked | taken | foundAgain | missed | unread | read | stored => exact .inl hlock
  | found | released | ended => exact nomatch hlock

theorem Goes.nextSerial_le [Codecs] (h : s.Goes path p p' s') : s.nextSerial ≤ s'.nextSerial := by
  cases h with
  | read => exact Nat.le_succ _
  | found | queued | opened | blocked | taken | foundAgain | missed | unread | stored | released
  | ended => exact Nat.le_refl _

end Steps

theorem nextSerial_le_step [Codecs] (s : Shared) (move : Move) :
    s.nextSerial ≤ (s.step move).nextSerial := by
  cases move with
  | call | clear | change => exact Nat.le_refl _
  | advance i =>
      rcases s.advance_cases i with ⟨-, hsame⟩ | ⟨_, _, _, _, -, hgoes, hnext⟩
      · exact Nat.le_of_eq (congrArg nextSerial hsame).symm
      · rw [step, hnext]
        exact hgoes.nextSerial_le

theorem nextSerial_le_run [Codecs] (s : Shared) (moves : List Move) :
    s.nextSerial ≤ (s.run moves).nextSerial := by
  induction moves generalizing s with
  | nil => exact Nat.le_refl _
  | cons move moves ih => exact Nat.le_trans (s.nextSerial_le_step move) (ih (s.step move))

/-- A move is the step of a caller that reads the file of a path, as it is now. -/
def Reads [Codecs] (s : Shared) (move : Move) (path : String) (parsed : Parsed) : Prop :=
  ∃ (i : Nat) (lock : Nat) (sheet : Stylesheet), move = .advance i ∧
    s.callers[i]? = some ⟨path, .reading lock⟩ ∧
    load s.tree s.cache.encoding path = .ok sheet ∧ parsed = ⟨s.nextSerial, sheet⟩

/-- One of some moves was the one that read a style sheet. -/
def WasRead [Codecs] (s : Shared) (moves : List Move) (path : String) (parsed : Parsed) : Prop :=
  ∃ earlier move later, moves = earlier ++ move :: later ∧
    (s.run earlier).Reads move path parsed

/-- Style sheets are numbered in the order in which they are read. -/
theorem WasRead.nextSerial_le [Codecs] {s : Shared} {moves : List Move} {path : String}
    {parsed : Parsed} (h : s.WasRead moves path parsed) : s.nextSerial ≤ parsed.serial := by
  obtain ⟨earlier, -, -, -, -, -, -, -, -, -, rfl⟩ := h
  exact s.nextSerial_le_run earlier

def IsInHand (s : Shared) (path : String) (parsed : Parsed) : Prop :=
  ∃ (j : Nat) (lock : Nat), s.callers[j]? = some ⟨path, .storing lock parsed⟩

/-- The style sheets of a state are all of one kind: those in the cache, those in hand, and those
that are given to the callers from a number on. -/
structure Holds (give : String → Parsed → Prop) (new : Nat) (s : Shared) : Prop where
  cached : ∀ path parsed, s.cache.get? path = some parsed → give path parsed
  inHand : ∀ path parsed, s.IsInHand path parsed → give path parsed
  given : ∀ (i : Nat) (c : Caller) (parsed : Parsed), new ≤ i → s.callers[i]? = some c →
    c.progress.gift? = some parsed → give c.path parsed

section Holds

variable {s s' : Shared} {give give' : String → Parsed → Prop} {new i : Nat} {path : String}
  {p p' : Progress}

theorem Holds.goes [Codecs] (h : s.Holds give new)
    (hmono : ∀ path parsed, give path parsed → give' path parsed)
    (hread : ∀ path parsed, s.Reads (.advance i) path parsed → give' path parsed)
    (hi : s.callers[i]? = some ⟨path, p⟩) (hgoes : s.Goes path p p' s') :
    Holds give' new { s' with callers := s.callers.set i ⟨path, p'⟩ } where
  cached other parsed hget := by
    rcases hgoes.cache with hcache | ⟨lock, stored, rfl, hcache⟩
    · rw [hcache] at hget
      exact hmono _ _ (h.cached other parsed hget)
    · rw [hcache, get?_store] at hget
      split at hget
      · rename_i heq
        obtain rfl := Option.some.inj hget
        exact hmono _ _ (h.inHand other stored ⟨i, lock, heq ▸ hi⟩)
      · exact hmono _ _ (h.cached other parsed hget)
  inHand other parsed hhand := by
    obtain ⟨j, lock, hj⟩ := hhand
    rcases of_getElem?_set hj with ⟨rfl, heq⟩ | ⟨-, hj⟩
    · obtain ⟨rfl, rfl⟩ := Caller.mk.inj heq
      obtain ⟨rfl, sheet, hload, rfl⟩ := hgoes.read_of_storing
      exact hread other _ ⟨j, lock, sheet, rfl, hi, hload, rfl⟩
    · exact hmono _ _ (h.inHand other parsed ⟨j, lock, hj⟩)
  given j c parsed hnew hj hgift := by
    rcases of_getElem?_set hj with ⟨rfl, rfl⟩ | ⟨-, hj⟩
    · rcases hgoes.gift hgift with hget | hgift | ⟨lock, rfl⟩
      · exact hmono _ _ (h.cached path parsed hget)
      · exact hmono _ _ (h.given j ⟨path, p⟩ parsed hnew hi hgift)
      · exact hmono _ _ (h.inHand path parsed ⟨j, lock, hi⟩)
    · exact hmono _ _ (h.given j c parsed hnew hj hgift)

theorem Holds.mono (h : s.Holds give new)
    (hmono : ∀ path parsed, give path parsed → give' path parsed) :
    s.Holds give' new where
  cached path parsed hget := hmono _ _ (h.cached path parsed hget)
  inHand path parsed hhand := hmono _ _ (h.inHand path parsed hhand)
  given i c parsed hnew hi hgift := hmono _ _ (h.given i c parsed hnew hi hgift)

/-- One step: the only style sheets that come anew are those that are read. -/
theorem Holds.step [Codecs] (h : s.Holds give new) (move : Move)
    (hmono : ∀ path parsed, give path parsed → give' path parsed)
    (hread : ∀ path parsed, s.Reads move path parsed → give' path parsed) :
    (s.step move).Holds give' new := by
  have h' : s.Holds give' new := h.mono hmono
  cases move with
  | clear => exact ⟨fun _ _ hget => (nomatch hget), h'.inHand, h'.given⟩
  | change tree => exact ⟨h'.cached, h'.inHand, h'.given⟩
  | call path =>
      refine ⟨h'.cached, fun other parsed ⟨j, lock, hj⟩ => ?_, fun j c parsed hnew hj hgift => ?_⟩
      · rcases getElem?_callers_call hj with hj | heq
        · exact h'.inHand other parsed ⟨j, lock, hj⟩
        · exact nomatch heq
      · rcases getElem?_callers_call hj with hj | rfl
        · exact h'.given j c parsed hnew hj hgift
        · exact nomatch hgift
  | advance i =>
      rcases s.advance_cases i with ⟨-, hsame⟩ | ⟨path, p, p', s', hi, hgoes, hnext⟩
      · rw [Shared.step, hsame]
        exact h'
      · rw [Shared.step, hnext]
        exact h.goes hmono hread hi hgoes

/-- By the moves since the clearing: what is held was read since or was in hand by then. -/
theorem holds_of_clear [Codecs] (s : Shared) (moves : List Move) :
    ((s.step .clear).run moves).Holds
      (fun path parsed => (s.step .clear).WasRead moves path parsed ∨ s.IsInHand path parsed)
      s.callers.length := by
  induction moves using List.reverseRecOn with
  | nil =>
      refine ⟨fun _ _ hget => (nomatch hget), fun _ _ hhand => .inr hhand, fun i c _ hnew hi => ?_⟩
      exact absurd (List.getElem?_eq_some_iff.mp hi).1 (Nat.not_lt.mpr hnew)
  | append_singleton moves move ih =>
      have hrun : (s.step .clear).run (moves ++ [move]) = ((s.step .clear).run moves).step move :=
        List.foldl_append
      rw [hrun]
      refine ih.step move (fun path parsed hgive => ?_) fun path parsed hread => ?_
      · refine hgive.imp_left fun ⟨earlier, read, later, hmoves, hread⟩ => ?_
        exact ⟨earlier, read, later ++ [move], by rw [hmoves, List.append_assoc]; rfl, hread⟩
      · exact .inl ⟨moves, move, [], rfl, hread⟩

end Holds

/-- The callers since a state have their locks from the table of locks as it is now. -/
def HaveOwnLocks (s now : Shared) : Prop :=
  ∀ (i : Nat) (c : Caller) (lock : Nat), now.callers[i]? = some c → c.progress.lock? = some lock →
    (∃ old, s.callers[i]? = some old ∧ old.progress.lock? = some lock) ∨
      Table.get? now.locks c.path = some lock

section Locks

variable {s now : Shared}

/-- No lock in the table is replaced before the cache is cleared again. -/
theorem HaveOwnLocks.step [Codecs] (h : s.HaveOwnLocks now) {move : Move} (hclear : move ≠ .clear) :
    s.HaveOwnLocks (now.step move) := by
  intro i c lock hi hlock
  cases move with
  | clear => exact absurd rfl hclear
  | change tree => exact h i c lock hi hlock
  | call path =>
      rcases getElem?_callers_call hi with hi | rfl
      · exact h i c lock hi hlock
      · exact nomatch hlock
  | advance j =>
      rcases now.advance_cases j with ⟨-, hsame⟩ | ⟨path, p, p', s', hj, hgoes, hnext⟩
      · rw [Shared.step, hsame] at hi ⊢
        exact h i c lock hi hlock
      · rw [Shared.step, hnext] at hi ⊢
        rcases of_getElem?_set hi with ⟨rfl, rfl⟩ | ⟨-, hi⟩
        · rcases hgoes.lock_eq_or_get hlock with hlock | hlock
          · exact (h i ⟨path, p⟩ lock hj hlock).imp_right hgoes.locks
          · exact .inr hlock
        · exact (h i c lock hi hlock).imp_right hgoes.locks

theorem HaveOwnLocks.run [Codecs] (h : s.HaveOwnLocks now) {moves : List Move}
    (hclear : Move.clear ∉ moves) : s.HaveOwnLocks (now.run moves) := by
  induction moves generalizing now with
  | nil => exact h
  | cons move moves ih =>
      rw [List.mem_cons, not_or] at hclear
      exact ih (h.step (Ne.symm hclear.1)) hclear.2

theorem haveOwnLocks_clear [Codecs] (s : Shared) : s.HaveOwnLocks (s.step .clear) :=
  fun _ c _ hi hlock => .inl ⟨c, hi, hlock⟩

end Locks

section InHand

variable {t : FileTree} {encoding path : String} {sheet : Stylesheet}

def readingCall (path : String) : List Move :=
  [.call path, .advance 0, .advance 0, .advance 0, .advance 0]

theorem run_readingCall [Codecs] (hload : load t encoding path = .ok sheet) :
    (idle t (.empty encoding)).run (readingCall path) =
      ⟨t, .empty encoding, [(path, 0)], [0], 1, 1, [⟨path, .storing 0 ⟨0, sheet⟩⟩]⟩ := by
  simp [readingCall, run, step, advance, progress, lookUp, lookAgain, readNow, idle, empty, get?,
    Table.get?, Table.set, hload]

/-- The cache is cleared, the file becomes another or goes away, and then the caller that has read
it enters what it read. -/
def enterLate (path : String) (now : FileTree) : List Move :=
  [.change now, .advance 0, .call path, .advance 1]

theorem run_enterLate [Codecs] (hload : load t encoding path = .ok sheet) (now : FileTree) :
    ((((idle t (.empty encoding)).run (readingCall path)).step .clear).run
        (enterLate path now)).callers[1]? = some ⟨path, .done (.ok ⟨0, sheet⟩)⟩ := by
  rw [run_readingCall hload]
  simp [enterLate, run, step, advance, progress, lookUp, store, clear, get?, Table.get?, Table.set]

/-- The cache is cleared, and the next caller of the path gets a lock of its own. -/
def readAgain (path : String) : List Move :=
  [.call path, .advance 1, .advance 1, .advance 1]

theorem run_readAgain [Codecs] (hload : load t encoding path = .ok sheet) :
    ((((idle t (.empty encoding)).run (readingCall path)).step .clear).run
        (readAgain path)).callers =
      [⟨path, .storing 0 ⟨0, sheet⟩⟩, ⟨path, .reading 1⟩] := by
  rw [run_readingCall hload]
  simp [readAgain, run, step, advance, progress, lookUp, lookAgain, clear, empty, get?,
    Table.get?, Table.set]

end InHand

structure IsCleared [Codecs] (s : Shared) (moves : List Move) : Prop where
  /-- A call that starts after the clearing gives what was read since, or what a caller had read
  and not yet entered when the cache was cleared. -/
  fresh : ∀ (i : Nat) (path : String) (parsed : Parsed), s.callers.length ≤ i →
    ((s.step .clear).run moves).callers[i]? = some ⟨path, .done (.ok parsed)⟩ →
    (s.step .clear).WasRead moves path parsed ∨ s.IsInHand path parsed
  /-- Of the callers of a path that had no lock when the cache was cleared at most one is at work
  on the file, until the cache is cleared again. -/
  alone : Move.clear ∉ moves → ∀ (i j : Nat) (c d : Caller),
    ((s.step .clear).run moves).callers[i]? = some c →
    ((s.step .clear).run moves).callers[j]? = some d → c.path = d.path →
    c.progress.isLoading = true → d.progress.isLoading = true →
    (∀ old, s.callers[i]? = some old → old.progress.lock? = none) →
    (∀ old, s.callers[j]? = some old → old.progress.lock? = none) → i = j

/-- However the steps of the callers are interleaved with each other, with changes of the files and
with the clearing of the cache. -/
theorem cleared_of_run [Codecs] (t : FileTree) (encoding : String) (before moves : List Move) :
    ((idle t (.empty encoding)).run before).IsCleared moves := by
  have h : ((idle t (.empty encoding)).run before).Exclusive :=
    (exclusive_idle t (.empty encoding)).run before
  generalize (idle t (.empty encoding)).run before = s at h
  refine ⟨fun i path parsed hnew hi => ?_, fun hclear i j c d hi hj hpath hc hd hnewi hnewj => ?_⟩
  · have hgift : (Progress.done (.ok parsed)).gift? = some parsed := rfl
    exact (s.holds_of_clear moves).given i ⟨path, .done (.ok parsed)⟩ parsed hnew hi hgift
  · have hexclusive : ((s.step .clear).run moves).Exclusive := (h.step .clear).run moves
    have howns : s.HaveOwnLocks ((s.step .clear).run moves) := (haveOwnLocks_clear s).run hclear
    obtain ⟨lock, hlock⟩ := Progress.heldLock_of_isLoading hc
    obtain ⟨lock', hlock'⟩ := Progress.heldLock_of_isLoading hd
    have htable := howns i c lock hi (Progress.lock?_of_heldLock hlock)
    have htable' := howns j d lock' hj (Progress.lock?_of_heldLock hlock')
    rcases htable with ⟨old, hold, hsome⟩ | htable
    · exact nomatch (hnewi old hold).symm.trans hsome
    · rcases htable' with ⟨old, hold, hsome⟩ | htable'
      · exact nomatch (hnewj old hold).symm.trans hsome
      · rw [hpath, htable'] at htable
        obtain rfl := Option.some.inj htable
        exact hexclusive.alone i j c d _ hi hj hlock hlock'

/-- A caller has read an empty file when the cache is cleared. If it goes on before the file is
asked for again, the next caller is given what was read before the clearing, though the file is
gone; if it does not, the next caller is at work on the file at the same time. -/
theorem not_cleared_while_loading :
    let s := (idle ⟨[(["a.css"], .file [])], []⟩ (.empty "utf-8")).run (readingCall "a.css")
    let late := (s.step .clear).run (enterLate "a.css" ⟨[], []⟩)
    let again := (s.step .clear).run (readAgain "a.css")
    s.callers.length = 1 ∧
      late.callers[1]? = some ⟨"a.css", .done (.ok ⟨0, ⟨[], "a.css"⟩⟩)⟩ ∧
      ¬ (s.step .clear).WasRead (enterLate "a.css" ⟨[], []⟩) "a.css" ⟨0, ⟨[], "a.css"⟩⟩ ∧
      again.callers.map (fun c => (c.path, c.progress.isLoading)) =
        [("a.css", true), ("a.css", true)] := by
  have hparse : Stylesheet.parse "a.css" "" = .ok ⟨[], "a.css"⟩ := by
    simp [Stylesheet.parse, Stylesheet.tokensOf, Css.normalize, Css.lexemes, Css.Token.ofLexemes,
      Css.Token.Builder.empty, Css.Token.Builder.finish, Css.Rule.ofTokens, Css.Rule.split,
      Node.ofRules]
  have hread : TextFile.read ⟨[(["a.css"], .file [])], []⟩ "utf-8" "a.css" = .ok "" := by
    decide +kernel
  have hload : load ⟨[(["a.css"], .file [])], []⟩ "utf-8" "a.css" = .ok ⟨[], "a.css"⟩ := by
    rw [load, hread]
    exact congrArg (Except.mapError Fault.parse) hparse
  intro s late again
  have hs : s = _ := run_readingCall hload
  have hagain : again.callers = _ := run_readAgain hload
  refine ⟨by rw [hs]; rfl, run_enterLate hload _, fun hread => ?_, by rw [hagain]; rfl⟩
  have hle : s.nextSerial ≤ 0 := hread.nextSerial_le
  rw [hs] at hle
  exact Nat.not_succ_le_zero 0 hle

end Shared

end MediaSplit.Cache
