import MediaSplit.Cache.Concurrent
import MediaSplit.Proofs.Cache.Entries

/-!
The locks of a cache that several callers share. A lock is held by one caller at a time, and a
caller gives its own style sheet only while it holds the lock of its path. So what a caller has
found out under the lock stays true until the caller lets the lock go.
-/

namespace MediaSplit.Cache

/-- The lock that a caller holds. -/
def Progress.heldLock : Progress → Option Nat
  | .checking lock | .reading lock | .storing lock _ | .releasing lock _ => some lock
  | .calling | .waiting _ | .done _ => none

namespace Shared

inductive Goes [Codecs] (s : Shared) (path : String) : Progress → Progress → Shared → Prop
  | found {parsed} (hget : s.cache.get? path = some parsed) :
      Goes s path .calling (.done (.ok parsed)) s
  | queued {lock} (hget : s.cache.get? path = none) (hlock : Table.get? s.locks path = some lock) :
      Goes s path .calling (.waiting lock) s
  | opened (hget : s.cache.get? path = none) (hlock : Table.get? s.locks path = none) :
      Goes s path .calling (.waiting s.nextLock)
        { s with locks := Table.set path s.nextLock s.locks, nextLock := s.nextLock + 1 }
  | blocked {lock} (hheld : lock ∈ s.held) : Goes s path (.waiting lock) (.waiting lock) s
  | taken {lock} (hfree : lock ∉ s.held) :
      Goes s path (.waiting lock) (.checking lock) { s with held := lock :: s.held }
  | foundAgain {lock parsed} (hget : s.cache.get? path = some parsed) :
      Goes s path (.checking lock) (.releasing lock (.ok parsed)) s
  | missed {lock} (hget : s.cache.get? path = none) :
      Goes s path (.checking lock) (.reading lock) s
  | unread {lock fault} (hload : load s.tree s.cache.encoding path = .error fault) :
      Goes s path (.reading lock) (.releasing lock (.error fault)) s
  | read {lock sheet} (hload : load s.tree s.cache.encoding path = .ok sheet) :
      Goes s path (.reading lock) (.storing lock ⟨s.nextSerial, sheet⟩)
        { s with nextSerial := s.nextSerial + 1 }
  | stored {lock parsed} :
      Goes s path (.storing lock parsed) (.releasing lock (.ok parsed))
        { s with cache := s.cache.store path parsed }
  | released {lock outcome} :
      Goes s path (.releasing lock outcome) (.done outcome)
        { s with held := s.held.erase lock }
  | ended {outcome} : Goes s path (.done outcome) (.done outcome) s

theorem progress_goes [Codecs] (s : Shared) (path : String) (p : Progress) :
    s.Goes path p (s.progress path p).1 (s.progress path p).2 := by
  cases p with
  | calling =>
      simp only [progress, lookUp]
      split
      · exact .found ‹_›
      · split
        · exact .queued ‹_› ‹_›
        · exact .opened ‹_› ‹_›
  | waiting lock =>
      simp only [progress]
      split
      · rename_i h
        exact .blocked (List.contains_iff_mem.mp h)
      · rename_i h
        exact .taken fun hmem => h (List.contains_iff_mem.mpr hmem)
  | checking lock =>
      simp only [progress, lookAgain]
      split
      · exact .foundAgain ‹_›
      · exact .missed ‹_›
  | reading lock =>
      simp only [progress, readNow]
      split
      · exact .unread ‹_›
      · exact .read ‹_›
  | storing lock parsed => exact .stored
  | releasing lock outcome => exact .released
  | done outcome => exact .ended

section Step

variable {s s' : Shared} {path : String} {p p' : Progress}

theorem Goes.callers [Codecs] (h : s.Goes path p p' s') : s'.callers = s.callers := by
  cases h <;> rfl

/-- A step takes a lock that is free, or gives back the one that is held, or keeps all locks. -/
theorem Goes.held [Codecs] (h : s.Goes path p p' s') :
    (p'.heldLock = p.heldLock ∧ s'.held = s.held) ∨
    (∃ lock, lock ∉ s.held ∧ p.heldLock = none ∧ p'.heldLock = some lock ∧
      s'.held = lock :: s.held) ∨
    ∃ lock, p.heldLock = some lock ∧ p'.heldLock = none ∧ s'.held = s.held.erase lock := by
  cases h with
  | taken hfree => exact Or.inr (Or.inl ⟨_, hfree, rfl, rfl, rfl⟩)
  | released => exact Or.inr (Or.inr ⟨_, rfl, rfl, rfl⟩)
  | found | queued | opened | blocked | foundAgain | missed | unread | read | stored | ended =>
      exact Or.inl ⟨rfl, rfl⟩

/-- The cache changes in one kind of step only, by a style sheet for the path of the caller. -/
theorem Goes.cache [Codecs] (h : s.Goes path p p' s') :
    s'.cache = s.cache ∨
    ∃ lock parsed, p = .storing lock parsed ∧ s'.cache = s.cache.store path parsed := by
  cases h with
  | stored => exact Or.inr ⟨_, _, rfl, rfl⟩
  | found | queued | opened | blocked | taken | foundAgain | missed | unread | read | released
  | ended => exact Or.inl rfl

/-- A path that has a lock keeps it. -/
theorem Goes.locks [Codecs] (h : s.Goes path p p' s') {other : String} {lock : Nat}
    (hlock : Table.get? s.locks other = some lock) : Table.get? s'.locks other = some lock := by
  cases h with
  | opened hget hnone =>
      have hne : other ≠ path := by
        rintro rfl
        rw [hnone] at hlock
        cases hlock
      rw [Table.get?_set_of_ne hne, hlock]
  | found | queued | blocked | taken | foundAgain | missed | unread | read | stored | released
  | ended => exact hlock

theorem advance_of_caller [Codecs] {i : Nat} (hi : s.callers[i]? = some ⟨path, p⟩) :
    s.advance i =
      { (s.progress path p).2 with callers := s.callers.set i ⟨path, (s.progress path p).1⟩ } := by
  simp only [advance, hi, (s.progress_goes path p).callers]

end Step

/-- One inversion for a step: nobody steps, or the caller `i` goes on and all others stay. -/
theorem advance_cases [Codecs] (s : Shared) (i : Nat) :
    (s.callers[i]? = none ∧ s.advance i = s) ∨
    ∃ path p p' s', s.callers[i]? = some ⟨path, p⟩ ∧ s.Goes path p p' s' ∧
      s.advance i = { s' with callers := s.callers.set i ⟨path, p'⟩ } := by
  cases hcaller : s.callers[i]? with
  | none =>
      left
      simp only [advance, hcaller, and_self]
  | some c =>
      exact Or.inr ⟨c.path, c.progress, _, _, rfl, s.progress_goes c.path c.progress,
        advance_of_caller hcaller⟩

end Shared

/-- What a caller relies on: the lock that it waits for or holds is that of its path, and what it
found out about its path is so. -/
def Caller.Fits (locks : Table String Nat) (cache : Cache) (c : Caller) : Prop :=
  match c.progress with
  | .calling => True
  | .waiting lock | .checking lock => Table.get? locks c.path = some lock
  | .reading lock | .storing lock _ | .releasing lock (.error _) =>
      Table.get? locks c.path = some lock ∧ cache.get? c.path = none
  | .releasing lock (.ok parsed) =>
      Table.get? locks c.path = some lock ∧ cache.get? c.path = some parsed
  | .done (.ok parsed) => cache.get? c.path = some parsed
  | .done (.error _) => True

section Fits

variable {locks locks' : Table String Nat} {cache cache' : Cache} {c : Caller}

theorem Caller.Fits.lock (h : c.Fits locks cache) {lock : Nat}
    (hlock : c.progress.heldLock = some lock) : Table.get? locks c.path = some lock := by
  obtain ⟨path, p⟩ := c
  cases p with
  | calling | waiting | done => cases hlock
  | checking => cases hlock; exact h
  | reading | storing => cases hlock; exact h.1
  | releasing _ outcome =>
      cases hlock
      cases outcome with
      | ok => exact h.1
      | error => exact h.1

/-- A caller goes on to rely on what it relied on if no lock is replaced, no style sheet is
replaced, and its path gets none while it holds the lock. -/
theorem Caller.Fits.mono (h : c.Fits locks cache)
    (hlocks : ∀ lock, Table.get? locks c.path = some lock → Table.get? locks' c.path = some lock)
    (hkept : ∀ parsed, cache.get? c.path = some parsed → cache'.get? c.path = some parsed)
    (hnone : c.progress.heldLock ≠ none → cache.get? c.path = none → cache'.get? c.path = none) :
    c.Fits locks' cache' := by
  obtain ⟨path, p⟩ := c
  have hnone' : p.heldLock ≠ none → cache.get? path = none → cache'.get? path = none := hnone
  cases p with
  | calling => trivial
  | waiting | checking => exact hlocks _ h
  | reading => exact ⟨hlocks _ h.1, hnone' (by simp [Progress.heldLock]) h.2⟩
  | storing => exact ⟨hlocks _ h.1, hnone' (by simp [Progress.heldLock]) h.2⟩
  | releasing _ outcome =>
      cases outcome with
      | ok => exact ⟨hlocks _ h.1, hkept _ h.2⟩
      | error => exact ⟨hlocks _ h.1, hnone' (by simp [Progress.heldLock]) h.2⟩
  | done outcome =>
      cases outcome with
      | ok => exact hkept _ h
      | error => trivial

end Fits

namespace Shared

/-- A caller fits before a step of its own, and after it. -/
theorem Goes.fits [Codecs] {s s' : Shared} {path : String} {p p' : Progress}
    (h : s.Goes path p p' s') (hfits : Caller.Fits s.locks s.cache ⟨path, p⟩) :
    Caller.Fits s'.locks s'.cache ⟨path, p'⟩ := by
  cases h with
  | found hget => exact hget
  | queued _ hlock => exact hlock
  | opened => exact Table.get?_set_self _ _ _
  | blocked => exact hfits
  | taken => exact hfits
  | foundAgain hget => exact ⟨hfits, hget⟩
  | missed hget => exact ⟨hfits, hget⟩
  | unread => exact hfits
  | read => exact hfits
  | stored => exact ⟨hfits.1, get?_store_self _ _ _⟩
  | @released _ outcome =>
      cases outcome with
      | ok => exact hfits.2
      | error => trivial
  | ended => exact hfits

/-- No two callers hold one lock. This hangs on the locks alone and not on the tables, so it holds
whatever is dropped from the cache. -/
structure Exclusive (s : Shared) : Prop where
  alone : ∀ (i j : Nat) (c d : Caller) (lock : Nat), s.callers[i]? = some c →
    s.callers[j]? = some d → c.progress.heldLock = some lock → d.progress.heldLock = some lock →
    i = j
  held : ∀ (i : Nat) (c : Caller) (lock : Nat), s.callers[i]? = some c →
    c.progress.heldLock = some lock → lock ∈ s.held
  nodup : s.held.Nodup

section Exclusive

variable {s s' : Shared} {path : String} {p p' : Progress} {i : Nat}

theorem exclusive_idle (t : FileTree) (c : Cache) : (idle t c).Exclusive where
  alone _ _ _ _ _ h := nomatch h
  held _ _ _ h := nomatch h
  nodup := List.nodup_nil

/-- A lock that another caller holds is not taken. -/
theorem Exclusive.not_heldLock [Codecs] (h : s.Exclusive) (hi : s.callers[i]? = some ⟨path, p⟩)
    (hgoes : s.Goes path p p' s') {j : Nat} {c : Caller} (hj : s.callers[j]? = some c)
    (hne : j ≠ i) {lock : Nat} (hheld : c.progress.heldLock = some lock) :
    p'.heldLock ≠ some lock := by
  intro hlock
  rcases hgoes.held with ⟨hsame, -⟩ | ⟨free, hfree, -, htaken, -⟩ | ⟨_, -, hnone, -⟩
  · exact hne (h.alone j i c _ lock hj hi hheld (hsame ▸ hlock))
  · obtain rfl := Option.some.inj (htaken.symm.trans hlock)
    exact hfree (h.held j c _ hj hheld)
  · cases hnone.symm.trans hlock

theorem of_getElem?_set {α : Type} {l : List α} {i j : Nat} {new x : α}
    (h : (l.set i new)[j]? = some x) : (j = i ∧ x = new) ∨ (j ≠ i ∧ l[j]? = some x) := by
  by_cases hij : i = j
  · rw [hij] at h
    by_cases hlt : j < l.length
    · rw [List.getElem?_set_self hlt] at h
      exact Or.inl ⟨hij.symm, (Option.some.inj h).symm⟩
    · rw [List.getElem?_eq_none (by simpa using hlt)] at h
      cases h
  · rw [List.getElem?_set_ne hij] at h
    exact Or.inr ⟨Ne.symm hij, h⟩

theorem Exclusive.goes [Codecs] (h : s.Exclusive) (hi : s.callers[i]? = some ⟨path, p⟩)
    (hgoes : s.Goes path p p' s') :
    Exclusive { s' with callers := s.callers.set i ⟨path, p'⟩ } where
  -- Of two that hold one lock, the one that steps cannot have taken it from the other.
  alone j k c d lock hj hk hc hd := by
    rcases of_getElem?_set hj with ⟨hji, rfl⟩ | ⟨hji, hj'⟩
    · rcases of_getElem?_set hk with ⟨hki, rfl⟩ | ⟨hki, hk'⟩
      · rw [hji, hki]
      · exact absurd hc (h.not_heldLock hi hgoes hk' hki hd)
    · rcases of_getElem?_set hk with ⟨hki, rfl⟩ | ⟨hki, hk'⟩
      · exact absurd hd (h.not_heldLock hi hgoes hj' hji hc)
      · exact h.alone j k c d lock hj' hk' hc hd
  held j c lock hj hc := by
    rcases of_getElem?_set hj with ⟨rfl, rfl⟩ | ⟨hji, hj⟩
    · rcases hgoes.held with ⟨hsame, hheld⟩ | ⟨free, -, -, htaken, hheld⟩ | ⟨_, -, hnone, -⟩
      · rw [hheld]
        exact h.held j _ lock hi (hsame ▸ hc)
      · obtain rfl := Option.some.inj (htaken.symm.trans hc)
        rw [hheld]
        exact List.mem_cons_self
      · cases hnone.symm.trans hc
    · have hmem : lock ∈ s.held := h.held j c lock hj hc
      rcases hgoes.held with ⟨-, hheld⟩ | ⟨free, -, -, -, hheld⟩ | ⟨back, hback, -, hheld⟩
      · rw [hheld]
        exact hmem
      · rw [hheld]
        exact List.mem_cons_of_mem _ hmem
      · have hne : lock ≠ back := by
          rintro rfl
          exact hji (h.alone j i _ _ _ hj hi hc hback)
        rw [hheld]
        exact (List.mem_erase_of_ne hne).mpr hmem
  nodup := by
    rcases hgoes.held with ⟨-, hheld⟩ | ⟨free, hfree, -, -, hheld⟩ | ⟨back, -, -, hheld⟩
    · rw [hheld]
      exact h.nodup
    · rw [hheld]
      exact List.nodup_cons.mpr ⟨hfree, h.nodup⟩
    · rw [hheld]
      exact h.nodup.erase back

theorem getElem?_callers_call {c : Caller}
    (hi : (s.callers ++ [⟨path, .calling⟩])[i]? = some c) :
    s.callers[i]? = some c ∨ c = ⟨path, .calling⟩ := by
  rw [List.getElem?_append] at hi
  split at hi
  · exact Or.inl hi
  · exact Or.inr (List.mem_singleton.mp (List.mem_of_getElem? hi))

theorem Exclusive.call [Codecs] (h : s.Exclusive) (path : String) :
    (s.step (.call path)).Exclusive where
  alone i j c d lock hi hj hc hd := by
    rcases getElem?_callers_call hi with hi | rfl
    · rcases getElem?_callers_call hj with hj | rfl
      · exact h.alone i j c d lock hi hj hc hd
      · cases hd
    · cases hc
  held i c lock hi hc := by
    rcases getElem?_callers_call hi with hi | rfl
    · exact h.held i c lock hi hc
    · cases hc
  nodup := h.nodup

/-- One step, the clearing of the cache included. -/
theorem Exclusive.step [Codecs] (h : s.Exclusive) (move : Move) : (s.step move).Exclusive := by
  cases move with
  | call path => exact h.call path
  | clear => exact ⟨h.alone, h.held, h.nodup⟩
  | change tree => exact ⟨h.alone, h.held, h.nodup⟩
  | advance i =>
      rcases s.advance_cases i with ⟨-, hsame⟩ | ⟨path, p, p', s', hi, hgoes, hnext⟩
      · rw [Shared.step, hsame]
        exact h
      · rw [Shared.step, hnext]
        exact h.goes hi hgoes

theorem Exclusive.run [Codecs] (h : s.Exclusive) (moves : List Move) : (s.run moves).Exclusive := by
  induction moves generalizing s with
  | nil => exact h
  | cons move moves ih => exact ih (h.step move)

end Exclusive

structure Sound (s : Shared) : Prop where
  fits : ∀ (i : Nat) (c : Caller), s.callers[i]? = some c → c.Fits s.locks s.cache
  alone : ∀ (i j : Nat) (c d : Caller) (lock : Nat), s.callers[i]? = some c →
    s.callers[j]? = some d → c.progress.heldLock = some lock → d.progress.heldLock = some lock →
    i = j
  held : ∀ (i : Nat) (c : Caller) (lock : Nat), s.callers[i]? = some c →
    c.progress.heldLock = some lock → lock ∈ s.held
  nodup : s.held.Nodup
  counted : s.cache.parses = s.cache.size

theorem sound_idle (t : FileTree) (encoding : String) : (idle t (.empty encoding)).Sound where
  fits _ _ h := nomatch h
  alone _ _ _ _ _ h := nomatch h
  held _ _ _ h := nomatch h
  nodup := List.nodup_nil
  counted := rfl

section Sound

variable {s s' : Shared} {path : String} {p p' : Progress} {i : Nat}

theorem Sound.exclusive (h : s.Sound) : s.Exclusive :=
  ⟨h.alone, h.held, h.nodup⟩

/-- A caller that is about to store finds no entry for its path. -/
theorem Sound.get?_of_storing (h : s.Sound) {lock : Nat} {parsed : Parsed}
    (hi : s.callers[i]? = some ⟨path, .storing lock parsed⟩) : s.cache.get? path = none :=
  (h.fits i _ hi).2

/-- No style sheet is replaced. -/
theorem Sound.kept [Codecs] (h : s.Sound) (hi : s.callers[i]? = some ⟨path, p⟩)
    (hgoes : s.Goes path p p' s') {other : String} {parsed : Parsed}
    (hget : s.cache.get? other = some parsed) : s'.cache.get? other = some parsed := by
  rcases hgoes.cache with hcache | ⟨lock, new, rfl, hcache⟩
  · rw [hcache, hget]
  · have hne : other ≠ path := by
      rintro rfl
      rw [h.get?_of_storing hi] at hget
      cases hget
    rw [hcache, get?_store_of_ne hne, hget]

/-- Only a caller of a path that holds its lock makes an entry for it. -/
theorem Sound.missing [Codecs] (h : s.Sound) (hi : s.callers[i]? = some ⟨path, p⟩)
    (hgoes : s.Goes path p p' s') {other : String} (hget : s.cache.get? other = none)
    (hother : path = other → ∀ lock, Table.get? s.locks path = some lock →
      p.heldLock ≠ some lock) :
    s'.cache.get? other = none := by
  rcases hgoes.cache with hcache | ⟨lock, new, rfl, hcache⟩
  · rw [hcache, hget]
  · have hne : other ≠ path := fun heq =>
      hother heq.symm lock ((h.fits i _ hi).lock rfl) rfl
    rw [hcache, get?_store_of_ne hne, hget]

/-- While a caller holds the lock of its path, no other caller makes an entry for the path. -/
theorem Sound.missing_of_heldLock [Codecs] (h : s.Sound) (hi : s.callers[i]? = some ⟨path, p⟩)
    (hgoes : s.Goes path p p' s') {j : Nat} {c : Caller} (hj : s.callers[j]? = some c)
    (hne : j ≠ i) (hheld : c.progress.heldLock ≠ none) (hget : s.cache.get? c.path = none) :
    s'.cache.get? c.path = none := by
  apply h.missing hi hgoes hget
  -- The caller that steps would have to hold the lock that `j` holds.
  intro hpath lock hlock hp
  obtain ⟨held, hheld⟩ := Option.ne_none_iff_exists'.mp hheld
  have hheld' := (h.fits j c hj).lock hheld
  rw [← hpath, hlock] at hheld'
  obtain rfl := Option.some.inj hheld'
  exact hne (h.alone j i c _ lock hj hi hheld hp)

theorem Sound.goes [Codecs] (h : s.Sound) (hi : s.callers[i]? = some ⟨path, p⟩)
    (hgoes : s.Goes path p p' s') :
    Sound { s' with callers := s.callers.set i ⟨path, p'⟩ } where
  fits j c hj := by
    rcases of_getElem?_set hj with ⟨rfl, rfl⟩ | ⟨hne, hj⟩
    · exact hgoes.fits (h.fits j _ hi)
    · exact (h.fits j c hj).mono (fun _ => hgoes.locks) (fun _ => h.kept hi hgoes)
        (h.missing_of_heldLock hi hgoes hj hne)
  alone := (h.exclusive.goes hi hgoes).alone
  held := (h.exclusive.goes hi hgoes).held
  nodup := (h.exclusive.goes hi hgoes).nodup
  counted := by
    rcases hgoes.cache with hcache | ⟨lock, new, rfl, hcache⟩
    · rw [hcache]
      exact h.counted
    · rw [hcache, size_store (h.get?_of_storing hi), ← h.counted]
      rfl

theorem Sound.call [Codecs] (h : s.Sound) (path : String) : (s.step (.call path)).Sound where
  fits i c hi := by
    rcases getElem?_callers_call hi with hi | rfl
    · exact h.fits i c hi
    · trivial
  alone := (h.exclusive.call path).alone
  held := (h.exclusive.call path).held
  nodup := h.nodup
  counted := h.counted

/-- One step: whoever goes on, whatever becomes of the files, the callers stay sound as long as
the cache is not cleared. -/
theorem Sound.step [Codecs] (h : s.Sound) {move : Move} (hclear : move ≠ .clear) :
    (s.step move).Sound := by
  cases move with
  | call path => exact h.call path
  | clear => exact absurd rfl hclear
  | change tree => exact ⟨h.fits, h.alone, h.held, h.nodup, h.counted⟩
  | advance i =>
      rcases s.advance_cases i with ⟨-, hsame⟩ | ⟨path, p, p', s', hi, hgoes, hnext⟩
      · rw [Shared.step, hsame]
        exact h
      · rw [Shared.step, hnext]
        exact h.goes hi hgoes

theorem Sound.advance [Codecs] (h : s.Sound) (i : Nat) : (s.advance i).Sound :=
  h.step (show Move.advance i ≠ .clear from fun heq => nomatch heq)

theorem Sound.run [Codecs] (h : s.Sound) {moves : List Move} (hclear : Move.clear ∉ moves) :
    (s.run moves).Sound := by
  induction moves generalizing s with
  | nil => exact h
  | cons move moves ih =>
      rw [List.mem_cons, not_or] at hclear
      exact ih (h.step (Ne.symm hclear.1)) hclear.2

end Sound

end Shared

end MediaSplit.Cache
