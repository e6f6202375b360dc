import MediaSplit.Encoding.HostNames
import MediaSplit.Proofs.Cache.Locking

/-!
A cache that several callers share reads each file once. Of the callers of one path at most one
is at work on the file; what it enters stays, and all others are given it. If it fails, nothing is
entered, and the next one that gets the lock finds nothing either and reads the file again.
-/

namespace MediaSplit.Cache

/-- Between the look under the lock and the entry. -/
def Progress.isLoading : Progress → Bool
  | .reading _ | .storing _ _ => true
  | _ => false

theorem Progress.heldLock_of_isLoading {p : Progress} (h : p.isLoading = true) :
    ∃ lock, p.heldLock = some lock := by
  cases p with
  | reading lock => exact ⟨lock, rfl⟩
  | storing lock parsed => exact ⟨lock, rfl⟩
  | calling | waiting | checking | releasing | done => cases h

namespace Shared

variable {s : Shared} {path : String} {p : Progress} {i j : Nat}

theorem callers_advance_self [Codecs] (hi : s.callers[i]? = some ⟨path, p⟩) :
    (s.advance i).callers[i]? = some ⟨path, (s.progress path p).1⟩ := by
  obtain ⟨hlt, -⟩ := List.getElem?_eq_some_iff.mp hi
  rw [advance_of_caller hi]
  exact List.getElem?_set_self hlt

/-- A move that is not a step of a caller leaves the caller where it is. -/
theorem callers_step_of_ne [Codecs] {c : Caller} (hj : s.callers[j]? = some c) {move : Move}
    (hmove : move ≠ .advance j) : (s.step move).callers[j]? = some c := by
  cases move with
  | call path =>
      obtain ⟨hlt, -⟩ := List.getElem?_eq_some_iff.mp hj
      exact (List.getElem?_append_left hlt).trans hj
  | clear => exact hj
  | change tree => exact hj
  | advance i =>
      have hne : i ≠ j := fun heq => hmove (congrArg Move.advance heq)
      rcases s.advance_cases i with ⟨-, hsame⟩ | ⟨_, _, _, s', -, -, hnext⟩
      · rw [Shared.step, hsame, hj]
      · rw [Shared.step, hnext]
        exact (List.getElem?_set_ne hne).trans hj

theorem Sound.kept_step [Codecs] (h : s.Sound) {move : Move} (hclear : move ≠ .clear)
    {parsed : Parsed} (hget : s.cache.get? path = some parsed) :
    (s.step move).cache.get? path = some parsed := by
  cases move with
  | call => exact hget
  | clear => exact absurd rfl hclear
  | change => exact hget
  | advance i =>
      rcases s.advance_cases i with ⟨-, hsame⟩ | ⟨_, _, _, s', hi, hgoes, hnext⟩
      · rw [Shared.step, hsame, hget]
      · rw [Shared.step, hnext]
        exact h.kept hi hgoes hget

theorem Sound.kept_run [Codecs] (h : s.Sound) {moves : List Move} (hclear : Move.clear ∉ moves)
    {parsed : Parsed} (hget : s.cache.get? path = some parsed) :
    (s.run moves).cache.get? path = some parsed := by
  induction moves generalizing s with
  | nil => exact hget
  | cons move moves ih =>
      rw [List.mem_cons, not_or] at hclear
      exact ih (h.step (Ne.symm hclear.1)) hclear.2 (h.kept_step (Ne.symm hclear.1) hget)

/-- A caller of a path that has no entry yet. -/
structure Misses (s : Shared) (j : Nat) (path : String) (p : Progress) : Prop where
  sound : s.Sound
  caller : s.callers[j]? = some ⟨path, p⟩
  missing : s.cache.get? path = none

section Again

variable {lock : Nat}

/-- While the lock of a path is free, nobody makes an entry for the path. -/
theorem Misses.step_of_free [Codecs] (h : s.Misses j path (.waiting lock)) {move : Move}
    (hclear : move ≠ .clear) (hfree : lock ∉ s.held) (hfree' : lock ∉ (s.step move).held) :
    (s.step move).Misses j path (.waiting lock) := by
  have hmove : move ≠ .advance j := by
    -- A caller that waits for a free lock would take it.
    rintro rfl
    apply hfree'
    simp [step, advance, h.caller, progress, hfree]
  refine ⟨h.sound.step hclear, callers_step_of_ne h.caller hmove, ?_⟩
  cases move with
  | call => exact h.missing
  | clear => exact absurd rfl hclear
  | change => exact h.missing
  | advance i =>
      rcases s.advance_cases i with ⟨-, hsame⟩ | ⟨path', p, _, s', hi, hgoes, hnext⟩
      · rw [Shared.step, hsame]
        exact h.missing
      · rw [Shared.step, hnext]
        apply h.sound.missing hi hgoes h.missing
        rintro rfl other hother hheld
        have hlock : Table.get? s.locks path' = some lock := h.sound.fits j _ h.caller
        obtain rfl := Option.some.inj (hlock.symm.trans hother)
        exact hfree (h.sound.held i _ lock hi hheld)

theorem Misses.run_of_free [Codecs] (h : s.Misses j path (.waiting lock)) {moves : List Move}
    (hclear : Move.clear ∉ moves) (hfree : ∀ n, lock ∉ (s.run (moves.take n)).held) :
    (s.run moves).Misses j path (.waiting lock) := by
  induction moves generalizing s with
  | nil => exact h
  | cons move moves ih =>
      rw [List.mem_cons, not_or] at hclear
      exact ih (h.step_of_free (Ne.symm hclear.1) (hfree 0) (hfree 1)) hclear.2
        fun n => hfree (n + 1)

/-- A caller that waits for a free lock gets it. -/
theorem Misses.advance_of_free [Codecs] (h : s.Misses j path (.waiting lock))
    (hfree : lock ∉ s.held) :
    (s.advance j).Misses j path (.checking lock) := by
  have hgo : s.progress path (.waiting lock) =
      (.checking lock, { s with held := lock :: s.held }) := by
    simp [progress, hfree]
  refine ⟨h.sound.advance j, ?_, ?_⟩
  · rw [callers_advance_self h.caller, hgo]
  · rw [advance_of_caller h.caller, hgo]
    exact h.missing

/-- While a caller holds the lock of a path, the path gets no entry from others. -/
theorem Misses.step_of_checking [Codecs] (h : s.Misses j path (.checking lock)) {move : Move}
    (hclear : move ≠ .clear) (hmove : move ≠ .advance j) :
    (s.step move).Misses j path (.checking lock) := by
  refine ⟨h.sound.step hclear, callers_step_of_ne h.caller hmove, ?_⟩
  cases move with
  | call => exact h.missing
  | clear => exact absurd rfl hclear
  | change => exact h.missing
  | advance i =>
      rcases s.advance_cases i with ⟨-, hsame⟩ | ⟨_, _, _, s', hi, hgoes, hnext⟩
      · rw [Shared.step, hsame]
        exact h.missing
      · have hne : j ≠ i := fun heq => hmove (congrArg Move.advance heq.symm)
        rw [Shared.step, hnext]
        have hheld : (Progress.checking lock).heldLock ≠ none := by
          intro heq
          cases heq
        exact h.sound.missing_of_heldLock hi hgoes h.caller hne hheld h.missing

theorem Misses.run_of_checking [Codecs] (h : s.Misses j path (.checking lock)) {moves : List Move}
    (hclear : Move.clear ∉ moves) (hmoves : Move.advance j ∉ moves) :
    (s.run moves).Misses j path (.checking lock) := by
  induction moves generalizing s with
  | nil => exact h
  | cons move moves ih =>
      rw [List.mem_cons, not_or] at hclear hmoves
      exact ih (h.step_of_checking (Ne.symm hclear.1) (Ne.symm hmoves.1)) hclear.2 hmoves.2

theorem Misses.advance_of_checking [Codecs] (h : s.Misses j path (.checking lock)) :
    (s.advance j).callers[j]? = some ⟨path, .reading lock⟩ := by
  rw [callers_advance_self h.caller, progress, lookAgain, h.missing]

end Again

structure Guarded [Codecs] (s : Shared) : Prop where
  /-- At most one caller of a path is at work on its file. -/
  alone : ∀ (i j : Nat) (c d : Caller), s.callers[i]? = some c → s.callers[j]? = some d →
    c.path = d.path → c.progress.isLoading = true → d.progress.isLoading = true → i = j
  stays : ∀ (path : String) (parsed : Parsed) (later : List Move),
    s.cache.get? path = some parsed → Move.clear ∉ later →
    (s.run later).cache.get? path = some parsed
  same : ∀ (i j : Nat) (path : String) (parsed parsed' : Parsed),
    s.callers[i]? = some ⟨path, .done (.ok parsed)⟩ →
    s.callers[j]? = some ⟨path, .done (.ok parsed')⟩ → parsed = parsed'
  failed : ∀ (i : Nat) (path : String) (lock : Nat) (fault : Fault),
    s.callers[i]? = some ⟨path, .reading lock⟩ →
    load s.tree s.cache.encoding path = .error fault →
    (s.advance i).callers[i]? = some ⟨path, .releasing lock (.error fault)⟩ ∧
      (s.advance i).cache.get? path = none
  released : ∀ (i : Nat) (path : String) (lock : Nat) (fault : Fault),
    s.callers[i]? = some ⟨path, .releasing lock (.error fault)⟩ →
    (s.advance i).callers[i]? = some ⟨path, .done (.error fault)⟩ ∧
      (s.advance i).cache.get? path = none ∧ lock ∉ (s.advance i).held
  /-- Whatever happens before the next caller gets the lock, and until it looks under the lock, it
  goes on to read the file. -/
  again : ∀ (i j : Nat) (path : String) (lock : Nat) (fault : Fault)
    (before meanwhile : List Move),
    s.callers[i]? = some ⟨path, .releasing lock (.error fault)⟩ →
    s.callers[j]? = some ⟨path, .waiting lock⟩ →
    Move.clear ∉ before → (∀ n, lock ∉ ((s.advance i).run (before.take n)).held) →
    Move.clear ∉ meanwhile → Move.advance j ∉ meanwhile →
    (((((s.advance i).run before).advance j).run meanwhile).advance j).callers[j]? =
      some ⟨path, .reading lock⟩
  counted : s.cache.parses = s.cache.size

section Guarded

/-- Two callers of one path that hold its lock are one. -/
theorem Sound.eq_of_isLoading (h : s.Sound) {c d : Caller} (hi : s.callers[i]? = some c)
    (hj : s.callers[j]? = some d) (hpath : c.path = d.path) (hc : c.progress.isLoading = true)
    (hd : d.progress.isLoading = true) : i = j := by
  obtain ⟨lock, hlock⟩ := Progress.heldLock_of_isLoading hc
  obtain ⟨lock', hlock'⟩ := Progress.heldLock_of_isLoading hd
  have htable := (h.fits i c hi).lock hlock
  have htable' := (h.fits j d hj).lock hlock'
  rw [hpath, htable'] at htable
  obtain rfl := Option.some.inj htable
  exact h.alone i j c d _ hi hj hlock hlock'

theorem Sound.released [Codecs] (h : s.Sound) {lock : Nat} {outcome : Except Fault Parsed}
    (hi : s.callers[i]? = some ⟨path, .releasing lock outcome⟩) :
    lock ∉ (s.advance i).held := by
  rw [advance_of_caller hi]
  exact fun hmem => (h.nodup.mem_erase_iff.mp hmem).1 rfl

theorem Sound.misses_of_failed [Codecs] (h : s.Sound) {lock : Nat} {fault : Fault}
    (hi : s.callers[i]? = some ⟨path, .releasing lock (.error fault)⟩)
    (hj : s.callers[j]? = some ⟨path, .waiting lock⟩) :
    (s.advance i).Misses j path (.waiting lock) := by
  have hmove : Move.advance i ≠ .advance j := by
    rintro heq
    obtain rfl := Move.advance.inj heq
    rw [hi] at hj
    cases hj
  refine ⟨h.advance i, callers_step_of_ne hj hmove, ?_⟩
  rw [advance_of_caller hi]
  exact (h.fits i _ hi).2

/-- However the steps of the callers are interleaved and whatever becomes of the files. -/
theorem guarded_of_run [Codecs] (t : FileTree) (encoding : String) (moves : List Move)
    (hclear : Move.clear ∉ moves) : ((idle t (.empty encoding)).run moves).Guarded := by
  have h : ((idle t (.empty encoding)).run moves).Sound := (sound_idle t encoding).run hclear
  generalize (idle t (.empty encoding)).run moves = s at h
  refine ⟨?alone, ?stays, ?same, ?failed, ?released, ?again, h.counted⟩
  case alone => exact fun i j c d hi hj => h.eq_of_isLoading hi hj
  case stays => exact fun path parsed later hget hlater => h.kept_run hlater hget
  case same =>
    intro i j path parsed parsed' hi hj
    have hfound : s.cache.get? path = some parsed := h.fits i _ hi
    have hfound' : s.cache.get? path = some parsed' := h.fits j _ hj
    exact Option.some.inj (hfound.symm.trans hfound')
  case failed =>
    intro i path lock fault hi hload
    have hgo : s.progress path (.reading lock) = (.releasing lock (.error fault), s) := by
      simp only [progress, readNow, hload]
    refine ⟨?_, ?_⟩
    · rw [callers_advance_self hi, hgo]
    · rw [advance_of_caller hi, hgo]
      exact (h.fits i _ hi).2
  case released =>
    intro i path lock fault hi
    refine ⟨callers_advance_self hi, ?_, h.released hi⟩
    rw [advance_of_caller hi]
    exact (h.fits i _ hi).2
  case again =>
    intro i j path lock fault before meanwhile hi hj hbefore hfree hmeanwhile hothers
    have hwaiting := (h.misses_of_failed hi hj).run_of_free hbefore hfree
    have hlast : lock ∉ ((s.advance i).run before).held := by
      simpa using hfree before.length
    have hchecking := (hwaiting.advance_of_free hlast).run_of_checking hmeanwhile hothers
    exact hchecking.advance_of_checking

/-- Two callers of one path. The first finds no file and still holds the lock. -/
def twoCallers : List Move :=
  [.call "a.css", .call "a.css", .advance 0, .advance 1, .advance 0, .advance 0, .advance 0]

theorem guarded_of_missing_file :
    let s := (idle ⟨[], []⟩ (.empty "utf-8")).run twoCallers
    Move.clear ∉ twoCallers ∧
      s.callers = [⟨"a.css", .releasing 0 (.error (.path (.trouble .noEntry "a.css")))⟩,
        ⟨"a.css", .waiting 0⟩] ∧ s.Guarded := by
  have hclear : Move.clear ∉ twoCallers := by simp [twoCallers]
  exact ⟨hclear, by rfl, guarded_of_run ⟨[], []⟩ "utf-8" twoCallers hclear⟩

end Guarded

end Shared

end MediaSplit.Cache
